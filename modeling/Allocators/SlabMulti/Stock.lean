import Allocators.SlabMulti.Calls

/-! What the calls keep: the rows of a cache account for all its blocks. -/

namespace Allocators.SlabMulti

open Lib Vector Extent

/-- The rows of the cache account for all blocks. -/
structure Stocked (count blockSize : Nat) (s : Shelf) (live : List Nat) : Prop where
  count_eq : s.count=count
  blockSize_eq : s.blockSize=blockSize
  sound : Sound count blockSize s.rows live

/-- The invariant of the calls: besides, the iterators are valid and the counter is right. -/
structure Holds (count blockSize : Nat) (s : Shelf) (live : List Nat) : Prop
    extends Stocked count blockSize s live where
  act : s.act < s.rows.length
  size : s.mySize=live.length

namespace Stocked

variable {count blockSize : Nat} {s s' : Shelf} {live : List Nat} {ptr mem : Nat}

theorem shaped (h : Stocked count blockSize s live) : s.Shaped := by
  intro r hr
  rw [h.blockSize_eq,h.count_eq]
  exact h.sound.shaped r hr

/-- Memory apart from all slabs, as the extents of the rows tell it. -/
theorem fresh_apart (h : Stocked count blockSize s live) (hf : s.cache.Fresh mem) {r : Row}
    (hr : r ∈ s.rows) : Extent.Apart (mem,blockSize*count) r.region.extent := by
  obtain ⟨h1,h2⟩ := h.sound.shaped r hr
  have he : r.region.extent=(r.1,blockSize*count) := by
    simp [Region.extent,Row.region,h1,h2]
  rw [he,← h.blockSize_eq,← h.count_eq]
  exact hf r.1 (List.mem_map_of_mem hr)

/-- So does the memory of a new slab, also after an index was taken from one of them. -/
theorem fresh_rest (h : Stocked count blockSize s live) (hf : s.cache.Fresh mem) {r r' : Row}
    {rest : List Row} (hp : s.rows.Perm (r :: rest)) (hr : r'.region=r.region) (new : Row)
    (hn : new.region.extent=(mem,blockSize*count)) :
    ∀ t ∈ r' :: rest, new.region.extent.Apart t.region.extent := by
  intro t ht
  rw [hn]
  rcases List.mem_cons.mp ht with rfl | ht
  · rw [hr]
    exact h.fresh_apart hf (hp.mem_iff.mpr (by simp))
  · exact h.fresh_apart hf (hp.mem_iff.mpr (List.mem_cons_of_mem _ ht))

theorem new_extent (h : Stocked count blockSize s live) (mem : Nat) (availible : List Nat) :
    Row.region (mem,⟨s.blockSize,s.count,availible,[]⟩)=⟨mem,blockSize,count⟩ := by
  rw [← h.blockSize_eq,← h.count_eq]
  rfl

theorem served (h : Stocked count blockSize s live)
    (hs : Served s ⟨indices count,mem⟩ s' ptr) (hf : s.cache.Grows → s.cache.Fresh mem) :
    Stocked count blockSize s' (ptr :: live) := by
  obtain ⟨hc,hb,hm,hact,r,r',rest,idx,_,hp,hr,hfree,rfl,hrows⟩ := hs.core
  have hold := (h.sound.perm hp).take hr hfree
  refine ⟨hc.trans h.count_eq,hb.trans h.blockSize_eq,?_⟩
  rcases hrows with hrows | ⟨hg,hrows⟩
  · exact hold.perm hrows.symm
  · have hnew := congrArg Region.extent (h.new_extent mem (indices count))
    refine (hold.grow ⟨h.blockSize_eq,h.count_eq⟩ (h.fresh_rest (hf hg) hp hr _ hnew) ?_ ?_).perm
      hrows.symm
    · intro i hi
      exact lt_of_mem_indices (by simpa [Row.free] using hi)
    · simp [Row.free]

/-- The block that is handed out lies in the active slab. -/
theorem served_contains {d : Supply} (h : Stocked count blockSize s live)
    (hs : Served s d s' ptr) : ∃ r, s.rows[s.act]?=some r ∧ r.region.Contains ptr := by
  obtain ⟨_,_,_,_,r,_,_,idx,hr,_,_,hfree,rfl,_⟩ := hs.core
  have hmem := List.mem_of_getElem? hr
  have hidx : idx < r.region.count :=
    (h.sound.tally r hmem).lt idx (hfree.mem_iff.mp List.mem_cons_self)
  exact ⟨r,hr,Region.contains_block (h.sound.size_pos hmem) hidx⟩

theorem served_exact (h : Stocked count blockSize s live) (he : Exact s.rows live)
    (hmax : count ≤ maxSlabBlocks) (hs : Served s ⟨indices count,mem⟩ s' ptr)
    (hf : s.cache.Grows → s.cache.Fresh mem) : ptr ∉ live ∧ Exact s'.rows (ptr :: live) := by
  obtain ⟨hc,hb,hm,hact,r,r',rest,idx,_,hp,hr,hfree,rfl,hrows⟩ := hs.core
  have hsound := (h.sound.perm hp).take hr hfree
  have hold := (he.perm hp).take (h.sound.perm hp) hr hfree
  refine ⟨(he.perm hp).not_live (hfree.mem_iff.mp (List.mem_cons_self)),?_⟩
  rcases hrows with hrows | ⟨hg,hrows⟩
  · exact hold.perm hrows.symm
  · have hnew := congrArg Region.extent (h.new_extent mem (indices count))
    refine (hold.grow hsound ⟨h.blockSize_eq,h.count_eq⟩ (h.fresh_rest (hf hg) hp hr _ hnew) ?_).perm
      hrows.symm
    simpa [Row.free] using indices_perm hmax

/-- The rows after one of them got an index back. -/
theorem give_sound (h : Stocked count blockSize s live) {lo hi : List Row} {r : Row}
    (hr : s.rows=lo ++ r :: hi) (hm : ptr ∈ live) (hc : r.region.Contains ptr)
    (thisThread : Bool) :
    Sound count blockSize (lo ++ r.give ptr thisThread :: hi) (live.erase ptr) := by
  have hs : Sound count blockSize (r :: (lo ++ hi)) live :=
    h.sound.perm (hr ▸ List.perm_middle)
  exact (hs.give (r.region_give ptr thisThread) hm hc (r.free_give ptr thisThread)).perm
    List.perm_middle.symm

theorem give_exact (h : Stocked count blockSize s live) (he : Exact s.rows live)
    (hmax : count ≤ maxSlabBlocks) {lo hi : List Row} {r : Row} (hr : s.rows=lo ++ r :: hi)
    (hm : ptr ∈ live) (hc : r.region.Contains ptr) (thisThread : Bool) :
    Exact (lo ++ r.give ptr thisThread :: hi) (live.erase ptr) := by
  have hp : s.rows.Perm (r :: (lo ++ hi)) := hr ▸ List.perm_middle
  exact ((he.perm hp).give (h.sound.perm hp) hmax (r.region_give ptr thisThread) hm hc
    (r.free_give ptr thisThread)).perm List.perm_middle.symm

/-- The slab a live pointer lies in. -/
theorem located (h : Stocked count blockSize s live) (hm : ptr ∈ live) :
    ∃ r ∈ s.rows, r.region.Contains ptr := by
  obtain ⟨r,hr,hb⟩ := h.sound.located ptr hm
  exact ⟨r,hr,hb.contains (h.sound.size_pos hr)⟩

end Stocked

/-- A rearrangement keeps the account if the slab it gives away is empty. -/
theorem Rearranged.sound {count blockSize : Nat} {s s' : Shelf} {live : List Nat}
    {decision : Decision} (h : Rearranged s decision s') (hs : Sound count blockSize s.rows live)
    (he : ∀ it r, decision=.toDispatch it → s.rows[it]?=some r → r.free.length=count) :
    Sound count blockSize s'.rows live := by
  rcases h.core with ⟨_,hp⟩ | ⟨it,r,hd,hr,hp⟩
  · exact hs.perm hp.symm
  · exact (hs.perm hp.symm).remove (he it r hd hr)

theorem Rearranged.exact {s s' : Shelf} {live : List Nat} {decision : Decision}
    (h : Rearranged s decision s') (he : Exact s.rows live) : Exact s'.rows live := by
  rcases h.core with ⟨_,hp⟩ | ⟨it,r,hd,hr,hp⟩
  · exact he.perm hp.symm
  · exact (he.perm hp.symm).remove

/-- A `deallocate` in one go: the row that has the pointer gets an index back, and then the
decision about it is carried out. -/
structure Returned (s : Shelf) (ptr : Nat) (thisThread : Bool) (s' : Shelf) (lo : List Row)
    (r : Row) (hi : List Row) : Prop where
  rows : s.rows=lo ++ r :: hi
  contains : r.region.Contains ptr
  rearranged : Rearranged { s with rows := lo ++ r.give ptr thisThread :: hi }
    (s.cache.decision lo.length (r.give ptr thisThread).2) s'

namespace Returned

variable {s s' : Shelf} {ptr : Nat} {thisThread : Bool} {lo hi : List Row} {r : Row}

theorem length_eq (h : Returned s ptr thisThread s' lo r hi) :
    (lo ++ r.give ptr thisThread :: hi).length=s.rows.length := by
  simp [h.rows]

/-- No row is new. -/
theorem mem_rows (h : Returned s ptr thisThread s' lo r hi) {x : Row} (hx : x ∈ s'.rows) :
    x ∈ lo ++ r.give ptr thisThread :: hi := by
  rcases h.rearranged.core with ⟨_,hp⟩ | ⟨_,_,_,_,hp⟩
  · exact hp.mem_iff.mp hx
  · exact hp.mem_iff.mp (List.mem_cons_of_mem _ hx)

/-- Giving an index back moves no memory. -/
theorem map_fst (h : Returned s ptr thisThread s' lo r hi) :
    (lo ++ r.give ptr thisThread :: hi).map Prod.fst=s.cache.ptrs := by
  simp [Shelf.cache,h.rows,Row.give]

/-- A slab that goes back to the dispatcher is empty. -/
theorem empty (h : Returned s ptr thisThread s' lo r hi) (hs : s.Shaped) {it : Nat} {x : Row}
    (hd : s.cache.decision lo.length (r.give ptr thisThread).2=.toDispatch it)
    (hx : (lo ++ r.give ptr thisThread :: hi)[it]?=some x) : x.free.length=s.count := by
  obtain ⟨rfl,hl,_⟩ := Shelf.toDispatch_of_decision hd
  rw [getElem?_mid] at hx
  obtain rfl := Option.some.inj hx
  rw [Row.free,List.length_append,hl,r.count_give]
  exact (hs r (by simp [h.rows])).2

theorem act_lt (h : Returned s ptr thisThread s' lo r hi) (hact : s.act < s.rows.length) :
    s'.act < s'.rows.length := by
  have hlen := h.length_eq
  refine h.rearranged.act_lt (by simp only [hlen]; exact hact) ?_ ?_
  · intro it hd
    obtain ⟨rfl,_,hlt⟩ := Shelf.splice_of_decision hd
    exact hlt
  · intro it hd
    simp only [hlen]
    obtain ⟨_,_,hone,_⟩ := Shelf.toDispatch_of_decision hd
    exact hone

end Returned

namespace Holds

variable {count blockSize : Nat} {s s' : Shelf} {live : List Nat} {ptr mem : Nat}
  {thisThread : Bool}

theorem live_perm {live' : List Nat} (h : Holds count blockSize s live) (hp : live.Perm live') :
    Holds count blockSize s live' :=
  ⟨⟨h.count_eq,h.blockSize_eq,h.sound.live_perm hp⟩,h.act,hp.length_eq ▸ h.size⟩

/-- A pointer into no slab is not found, and nothing changes. -/
theorem deallocate_missing (h : Holds count blockSize s live)
    (hn : ∀ r ∈ s.rows, ¬ r.region.Contains ptr) (thisThread : Bool) :
    s.cache.deallocate ptr thisThread=some (s.cache,false) := by
  rcases Shelf.locate_cases h.shaped h.act ptr thisThread with ⟨he,_⟩ | ⟨lo,r,hi,hr,hc,_⟩
  · simp only [Cache.deallocate,he]
  · exact absurd hc (hn r (by simp [hr]))

theorem served (h : Holds count blockSize s live) (hs : Served s ⟨indices count,mem⟩ s' ptr)
    (hf : s.cache.Grows → s.cache.Fresh mem) : Holds count blockSize s' (ptr :: live) := by
  obtain ⟨_,_,hm,hact,_⟩ := hs.core
  exact ⟨h.toStocked.served hs hf,hact,by simp [hm,h.size]⟩

/-- The search ends at the only row that has the pointer. -/
theorem locate_eq (h : Holds count blockSize s live) {lo hi : List Row} {r : Row}
    (hr : s.rows=lo ++ r :: hi) (hc : r.region.Contains ptr) (thisThread : Bool) :
    s.cache.locate ptr thisThread=
      some ({ s with rows := lo ++ r.give ptr thisThread :: hi : Shelf }.cache,
        some (s.cache.decision lo.length (r.give ptr thisThread).2)) := by
  rcases Shelf.locate_cases h.shaped h.act ptr thisThread with
    ⟨_,hn⟩ | ⟨lo',r',hi',hr',hc',he⟩
  · exact absurd hc (hn r (by simp [hr]))
  · have h1 : s.rows[lo.length]?=some r := by rw [hr,getElem?_mid]
    have h2 : s.rows[lo'.length]?=some r' := by rw [hr',getElem?_mid]
    have hlen := h.sound.position_unique h1 h2 hc hc'
    obtain ⟨rfl,ht⟩ := List.append_inj (hr.symm.trans hr') hlen
    obtain ⟨rfl,rfl⟩ := List.cons.inj ht
    exact he

/-- A live pointer is always found, and the call is defined. -/
theorem deallocate (h : Holds count blockSize s live) (hm : ptr ∈ live) (thisThread : Bool) :
    ∃ s' lo r hi, s.cache.deallocate ptr thisThread=some (s'.cache,true) ∧
      Returned s ptr thisThread s' lo r hi := by
  rcases Shelf.locate_cases h.shaped h.act ptr thisThread with
    ⟨_,hn⟩ | ⟨lo,r,hi,hr,hc,he⟩
  · obtain ⟨r,hr,hc⟩ := h.located hm
    exact absurd hc (hn r hr)
  · have hlen : (lo ++ r.give ptr thisThread :: hi).length=s.rows.length := by simp [hr]
    have hlo : lo.length < s.rows.length := by simp [hr]
    obtain ⟨s',hs,hre⟩ := Shelf.rearrange_defined
      (s := { s with rows := lo ++ r.give ptr thisThread :: hi }) (by simp only [hlen]; exact h.act)
      (show _ ∨ _ ∨ _ from by
        rcases Shelf.decision_cases s lo.length (r.give ptr thisThread).2 with
          ⟨hd,_,hlt⟩ | ⟨hd,_⟩ | ⟨hd,_⟩
        · exact .inr (.inl ⟨_,hd,hlt.le,by simp only [hlen]; exact hlo⟩)
        · exact .inr (.inr ⟨_,hd,by simp only [hlen]; exact hlo⟩)
        · exact .inl hd)
    exact ⟨s',lo,r,hi,by simp [Cache.deallocate,he,hs],hr,hc,hre⟩

theorem returned (h : Holds count blockSize s live) (hm : ptr ∈ live) {lo hi : List Row} {r : Row}
    (hr : Returned s ptr thisThread s' lo r hi) : Holds count blockSize s' (live.erase ptr) := by
  obtain ⟨hc,hb,hsize⟩ := hr.rearranged.fields
  have hsound := h.give_sound hr.rows hm hr.contains thisThread
  refine ⟨⟨hc.trans h.count_eq,hb.trans h.blockSize_eq,?_⟩,hr.act_lt h.act,?_⟩
  · refine hr.rearranged.sound hsound ?_
    intro it x hd hx
    rw [hr.empty h.shaped hd hx,h.count_eq]
  · rw [hsize,List.length_erase_of_mem hm]
    exact congrArg (fun n => n-1) h.size

theorem returned_exact (h : Holds count blockSize s live) (he : Exact s.rows live)
    (hmax : count ≤ maxSlabBlocks) (hm : ptr ∈ live) {lo hi : List Row} {r : Row}
    (hr : Returned s ptr thisThread s' lo r hi) : Exact s'.rows (live.erase ptr) :=
  hr.rearranged.exact (h.give_exact he hmax hr.rows hm hr.contains thisThread)

end Holds

/-- Only the slab that takes the index back has the pointer. -/
theorem found_unique {count blockSize : Nat} {s s' : Shelf} {live : List Nat} {ptr : Nat}
    {thisThread : Bool} {lo hi : List Row} {r : Row} (h : Holds count blockSize s live)
    (hr : Returned s ptr thisThread s' lo r hi) {i : Nat} {slab : Slab} {mem : Nat}
    (hslab : s.cache.slabs[i]?=some slab) (hmem : s.cache.ptrs[i]?=some mem)
    (hc : Slab.containsMem ptr mem s.cache.blockSize s.cache.count=true) :
    i=lo.length ∧ slab=r.2 ∧ mem=r.1 := by
  have hrget : s.rows[lo.length]?=some r := by rw [hr.rows,getElem?_mid]
  obtain ⟨x,hx,rfl,rfl⟩ := Shelf.exists_row hslab hmem
  have hcx := (Shelf.containsMem_iff h.shaped (List.mem_of_getElem? hx)).mp hc
  obtain rfl := h.sound.position_unique hx hrget hcx hr.contains
  obtain rfl : x=r := Option.some.inj (hx.symm.trans hrget)
  exact ⟨rfl,rfl,rfl⟩

/-- The slab holds one live block less once the index is back. -/
theorem size_give {count blockSize : Nat} {s s' : Shelf} {live : List Nat} {ptr : Nat}
    {thisThread : Bool} {lo hi : List Row} {r : Row} (h : Holds count blockSize s live)
    (hm : ptr ∈ live) (hr : Returned s ptr thisThread s' lo r hi) :
    (r.give ptr thisThread).2.size+1=r.2.size := by
  have hmem : r ∈ s.rows := by simp [hr.rows]
  have hc : r.2.count=count := (h.sound.shaped r hmem).2
  have htal := (h.sound.tally r hmem).sum
  have hpos : 0 < live.countP (fun p => decide (r.region.Contains p)) :=
    List.countP_pos_iff.mpr ⟨ptr,hm,by simpa using hr.contains⟩
  rw [h.sound.count_eq hmem,Row.free,List.length_append] at htal
  rw [Slab.size,Slab.size,Row.length_give,r.count_give,hc,Row.free,List.length_append]
  omega

end Allocators.SlabMulti
