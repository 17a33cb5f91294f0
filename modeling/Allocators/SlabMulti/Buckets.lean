import Allocators.SlabMulti.Client
import Allocators.SlabMulti.Interface

/-! Caches of all sizes over one dispatcher: what a call on one of them keeps. -/

namespace Allocators.SlabMulti

open Lib Vector Extent

/-- The slab with the index of a block back, as the thread's own or as a foreign one. -/
def Slab.mark (s : Slab) (idx : Nat) (thisThread : Bool) : Slab :=
  if thisThread then { s with availible := s.availible ++ [idx] }
  else { s with foreigns := s.foreigns ++ [idx] }

/-- How a cache differs after a block came back: the slab of the block got its index, no other
slab got one, the counter is one less; only a slab that is empty now may be gone. -/
def Cache.Marks (c : Cache) (ptr : Nat) (thisThread : Bool) (c' : Cache) : Prop :=
  ∃ (i mem idx : Nat) (slab : Slab), c.slabs[i]?=some slab ∧ c.ptrs[i]?=some mem ∧
    idx < c.count ∧ ptr=mem+idx*c.blockSize ∧ c'.mySize+1=c.mySize ∧
    (∀ (j m : Nat) (x : Slab), c'.slabs[j]?=some x → c'.ptrs[j]?=some m →
      m=mem ∧ x=slab.mark idx thisThread ∨
      m ≠ mem ∧ ∃ l : Nat, c.slabs[l]?=some x ∧ c.ptrs[l]?=some m) ∧
    (∀ m ∈ c.ptrs, m ∈ c'.ptrs ∨ m=mem ∧ (slab.mark idx thisThread).empty=true) ∧
    c'.slabs.length=c'.ptrs.length ∧ c'.ptrs.Nodup

/-- A cache of one size class accounts for its live blocks. -/
def Tended (size : Nat) (c : Cache) (live : List Nat) : Prop :=
  ∃ s : Shelf, c=s.cache ∧ Holds (slabSize/size) size s live ∧ Exact s.rows live

section Caches

variable {size ptr mem : Nat} {c c' : Cache} {live : List Nat} {d d' : GlobalDispatch}
  {rest : List Extent} {s s' : Shelf} {thisThread : Bool} {lo hi : List Row} {r : Row}

theorem Tended.live_perm {live' : List Nat} (h : Tended size c live) (hp : live.Perm live') :
    Tended size c live' := by
  obtain ⟨s,hc,hs,he⟩ := h
  exact ⟨s,hc,hs.live_perm hp,he.live_perm hp⟩

/-- The memory of each slab is one slab of the dispatcher. -/
theorem region_extent (hsz : size ∈ cacheSizes) (h : Holds (slabSize/size) size s live)
    (hr : r ∈ s.rows) : r.region.extent=(r.1,slabSize) := by
  rw [h.sound.region_eq hr,Region.extent,(class_bounds hsz).2.1]

/-- A fresh slab is apart from those of the cache. -/
theorem fresh_of_ledger {granted : List Extent} {blocks : List Extent} (hsz : size ∈ cacheSizes)
    (h : Holds (slabSize/size) size s live)
    (hl : Ledger granted ((mem,slabSize) :: (blocks ++ (slabExtents s.cache.ptrs ++ rest)))) :
    s.cache.Fresh mem := by
  intro p hp
  have hsize : s.cache.blockSize*s.cache.count=slabSize := by
    change s.blockSize*s.count=slabSize
    rw [h.blockSize_eq,h.count_eq]
    exact (class_bounds hsz).2.1
  rw [hsize]
  apply (tiled_cons.mp hl.tiled).1
  refine List.mem_append_right _ (List.mem_append_left _ ?_)
  exact List.mem_map_of_mem hp

/-- The indices for the block size of a cache that holds its blocks. -/
theorem getIndicies_of_holds (hsz : size ∈ cacheSizes) (h : Holds (slabSize/size) size s live) :
    Dispatch.getIndicies d s.blockSize=some (indices (slabSize/size)) := by
  rw [h.blockSize_eq]
  exact getIndicies_eq hsz

theorem make_cases (hsz : size ∈ cacheSizes)
    (h : Cache.make d (slabSize/size) size=some (d',c,true)) :
    ∃ mem, d.getBlock=(some mem,d') ∧ c=(Client.first (slabSize/size) size mem).cache := by
  have hi : Dispatch.getIndicies d size=some (indices (slabSize/size)) := getIndicies_eq hsz
  simp only [Cache.make,Cache.addCache,hi] at h
  cases hb : Dispatch.getBlock d with
  | mk block x =>
    cases block with
    | none => simp [hb] at h
    | some mem =>
      simp only [hb,Option.some.injEq,Prod.mk.injEq] at h
      obtain ⟨rfl,rfl,_⟩ := h
      exact ⟨mem,hb,by simp [Shelf.cache,Client.first]⟩

theorem tended_make (hsz : size ∈ cacheSizes)
    (hl : Ledger d.heap.granted (slabExtents d.blocks ++ rest))
    (h : Cache.make d (slabSize/size) size=some (d',c,true)) :
    Tended size c [] ∧
      Ledger d'.heap.granted (slabExtents d'.blocks ++ (slabExtents c.ptrs ++ rest)) ∧
      GlobalDispatch.Extends d d' := by
  obtain ⟨mem,hb,rfl⟩ := make_cases hsz h
  obtain ⟨hled,hext⟩ := GlobalDispatch.getBlock_ledger hl hb
  obtain ⟨hpos,_,_,hmax⟩ := class_bounds hsz
  have hfirst : Holds (slabSize/size) size (Client.first (slabSize/size) size mem) [] :=
    Client.first_holds hpos mem
  refine ⟨⟨_,rfl,hfirst,List.nodup_nil,?_⟩,hled.perm List.perm_middle.symm,hext⟩
  intro r hr
  obtain rfl : r=(mem,⟨size,slabSize/size,indices (slabSize/size),[]⟩) := List.mem_singleton.mp hr
  refine .fresh ?_ hpos (by simp)
  rw [Row.free,List.append_nil]
  exact indices_perm hmax

/-- A block handed out. -/
theorem Tended.allocate (hsz : size ∈ cacheSizes) (h : Tended size c live)
    (hl : Ledger d.heap.granted (slabExtents d.blocks ++ (slabExtents c.ptrs ++ rest)))
    (ha : c.allocate d=some (d',c',some ptr)) :
    Tended size c' (ptr :: live) ∧ 0 < ptr ∧
      Ledger d'.heap.granted (slabExtents d'.blocks ++ (slabExtents c'.ptrs ++ rest)) ∧
      GlobalDispatch.Extends d d' := by
  obtain ⟨s,rfl,hs,he⟩ := h
  obtain ⟨_,_,_,hmax⟩ := class_bounds hsz
  have hpos : ∀ {mem s'}, Served s ⟨indices (slabSize/size),mem⟩ s' ptr → 0 < ptr := by
    intro mem s' hserved
    obtain ⟨_,_,_,_,r,_,_,idx,hr,_,_,_,rfl,_⟩ := hserved.core
    have hmem : (r.1,slabSize) ∈ slabExtents d.blocks ++ (slabExtents s.cache.ptrs ++ rest) := by
      refine List.mem_append_right _ (List.mem_append_left _ (List.mem_map_of_mem ?_))
      exact List.mem_map_of_mem (List.mem_of_getElem? hr)
    exact lt_of_lt_of_le (hl.base_pos hmem) (Nat.le_add_right _ _)
  obtain ⟨s',rfl,hcase⟩ := Shelf.served_of_allocate (getIndicies_of_holds hsz hs) ha
  rcases hcase with ⟨hg,rfl,hserved⟩ | ⟨_,mem,hb,hserved⟩
  · have h0 := hserved ⟨indices (slabSize/size),0⟩
    refine ⟨⟨s',rfl,hs.served h0 fun hx => absurd hx hg,
      (hs.served_exact he hmax h0 fun hx => absurd hx hg).2⟩,hpos h0,?_,.refl _⟩
    rcases h0.ptrs_perm with ⟨_,hp⟩ | ⟨hx,_⟩
    · exact hl.perm (((hp.symm.map _).append_right rest).append_left _)
    · exact absurd hx hg
  · obtain ⟨hled,hext⟩ := GlobalDispatch.getBlock_ledger hl hb
    have hf := fresh_of_ledger hsz hs hled
    refine ⟨⟨s',rfl,hs.served hserved fun _ => hf,
      (hs.served_exact he hmax hserved fun _ => hf).2⟩,hpos hserved,?_,hext⟩
    rcases hserved.ptrs_perm with ⟨_,hp⟩ | ⟨_,hp⟩
    · refine hled.sublist ?_ |>.perm (((hp.symm.map _).append_right rest).append_left _)
      exact List.sublist_cons_self _ _
    · have hnew : ((mem,slabSize) :: slabExtents s.cache.ptrs).Perm
          (slabExtents s'.cache.ptrs) := hp.symm.map fun m => (m,slabSize)
      exact hled.perm (List.perm_middle.symm.trans ((hnew.append_right rest).append_left _))

theorem Tended.located (hsz : size ∈ cacheSizes) (h : Tended size c live) (hm : ptr ∈ live) :
    ∃ mem ∈ c.ptrs, ptr ∈ bytes (mem,slabSize) := by
  obtain ⟨s,rfl,hs,_⟩ := h
  obtain ⟨r,hr,hc⟩ := hs.located hm
  refine ⟨r.1,List.mem_map_of_mem hr,?_⟩
  rw [← region_extent hsz hs hr]
  exact hc

/-- A pointer into memory of others is not found. -/
theorem Tended.deallocate_missing (hsz : size ∈ cacheSizes) (h : Tended size c live)
    (hn : ∀ mem ∈ c.ptrs, ptr ∉ bytes (mem,slabSize)) (thisThread : Bool) :
    c.deallocate ptr thisThread=some (c,false) := by
  obtain ⟨s,rfl,hs,_⟩ := h
  refine hs.deallocate_missing ?_ thisThread
  intro r hr hc
  apply hn r.1 (List.mem_map_of_mem hr)
  rw [← region_extent hsz hs hr]
  exact hc

theorem mark_eq (hs : Sound (slabSize/size) size s.rows live) (hsz : size ∈ cacheSizes)
    (hr : r ∈ s.rows) (hb : r.region.HasBlock ptr) :
    r.give ptr thisThread=(r.1,r.2.mark (r.region.index ptr) thisThread) := by
  obtain ⟨hlt,_⟩ := hb.block_index (hs.size_pos hr)
  have hmax := (class_bounds hsz).2.2.2
  have h16 : maxSlabBlocks < 2^16 := by decide
  rw [hs.count_eq hr] at hlt
  have hidx : toIndexSizeT (r.region.index ptr)=r.region.index ptr :=
    toIndexSizeT_of_lt (by omega)
  rw [Row.give,Slab.deallocate,Slab.mark,← hidx]
  rfl

/-- What a `deallocate` that found its slab did to the cache. -/
theorem marks_of_returned (hsz : size ∈ cacheSizes) (h : Holds (slabSize/size) size s live)
    (hm : ptr ∈ live) (hr : Returned s ptr thisThread s' lo r hi) :
    s.cache.Marks ptr thisThread s'.cache := by
  have hmem : r ∈ s.rows := by simp [hr.rows]
  have hp : s.rows.Perm (r :: (lo ++ hi)) := hr.rows ▸ List.perm_middle
  have hb := (h.sound.perm hp).hasBlock hm hr.contains
  have hgive : r.give ptr thisThread=(r.1,r.2.mark (r.region.index ptr) thisThread) :=
    mark_eq h.sound hsz hmem hb
  obtain ⟨hidx,hblock⟩ := hb.block_index (h.sound.size_pos hmem)
  have hcount : 0 < slabSize/size := Nat.lt_of_lt_of_le (by decide) (class_bounds hsz).2.2.1
  have hnd := h.sound.nodup_mem hcount
  have hnot : ∀ x ∈ lo ++ hi, x.1 ≠ r.1 := by
    have hn := (hp.map Prod.fst).nodup_iff.mp hnd
    rw [List.map_cons,List.nodup_cons] at hn
    exact fun x hx he => hn.1 (he ▸ List.mem_map_of_mem hx)
  refine ⟨lo.length,r.1,r.region.index ptr,r.2,Shelf.slabs_getElem? hr.rows,
    Shelf.ptrs_getElem? hr.rows,?_,?_,?_,?_,?_,
    by simp [Shelf.cache],(h.returned hm hr).sound.nodup_mem hcount⟩
  · rw [h.sound.count_eq hmem] at hidx
    change _ < s.count
    rw [h.count_eq]
    exact hidx
  · have hbs : r.region.size=s.blockSize := by
      rw [h.sound.region_eq hmem,h.blockSize_eq]
    change ptr=r.1+r.region.index ptr*s.blockSize
    rw [← hbs]
    exact hblock.symm
  · have hsize := hr.rearranged.fields.2.2
    have hpos := List.length_pos_of_mem hm
    have hlen := h.size
    change s'.mySize+1=s.mySize
    simp only at hsize
    omega
  · intro j m x hx hm'
    obtain ⟨y,hy,rfl,rfl⟩ := Shelf.exists_row hx hm'
    have hrow := hr.mem_rows (List.mem_of_getElem? hy)
    rcases List.mem_cons.mp (List.perm_middle.mem_iff.mp hrow) with rfl | hrow
    · rw [hgive]
      exact .inl ⟨rfl,rfl⟩
    · have hold : y ∈ s.rows := hp.mem_iff.mpr (List.mem_cons_of_mem _ hrow)
      obtain ⟨l,hl⟩ := List.mem_iff_getElem?.mp hold
      exact .inr ⟨hnot y hrow,l,by simp [Shelf.cache,hl],by simp [Shelf.cache,hl]⟩
  · intro m hm'
    have hm' : m ∈ (lo ++ r.give ptr thisThread :: hi).map Prod.fst := hr.map_fst ▸ hm'
    rcases hr.rearranged.core with ⟨_,hperm⟩ | ⟨it,x,hd,hx,hperm⟩
    · exact .inl ((hperm.map Prod.fst).mem_iff.mpr hm')
    · obtain ⟨rfl,hfull,_⟩ := Shelf.toDispatch_of_decision hd
      obtain rfl : x=r.give ptr thisThread := by
        simp only [getElem?_mid,Option.some.injEq] at hx
        exact hx.symm
      rcases List.mem_cons.mp ((hperm.map Prod.fst).mem_iff.mpr hm') with rfl | hm'
      · refine .inr ⟨by rw [hgive],?_⟩
        rw [hgive] at hfull
        exact decide_eq_true hfull
      · exact .inl hm'

/-- A live block comes back. -/
theorem Tended.deallocate (hsz : size ∈ cacheSizes) (h : Tended size c live) (hm : ptr ∈ live)
    (thisThread : Bool) : ∃ c', c.deallocate ptr thisThread=some (c',true) ∧
      Tended size c' (live.erase ptr) ∧ c'.ptrs.Subperm c.ptrs ∧ c.Marks ptr thisThread c' := by
  obtain ⟨s,rfl,hs,he⟩ := h
  obtain ⟨s',lo,r,hi,hd,hr⟩ := hs.deallocate hm thisThread
  refine ⟨s'.cache,hd,⟨s',rfl,hs.returned hm hr,
    hs.returned_exact he (class_bounds hsz).2.2.2 hm hr⟩,?_,marks_of_returned hsz hs hm hr⟩
  rw [← hr.map_fst]
  rcases hr.rearranged.core with ⟨_,hp⟩ | ⟨_,x,_,_,hp⟩
  · exact (hp.map Prod.fst).subperm
  · exact (List.sublist_cons_self _ _).subperm.trans (hp.map Prod.fst).subperm

end Caches

/-- The memory of all slabs of a bucket. -/
def Bucket.ptrs (b : Bucket) : List Nat := b.caches.flatMap Cache.ptrs

/-- Every cache of a bucket accounts for its live blocks. -/
structure Bucket.Keeps (b : Bucket) (live : Nat → List Nat) : Prop where
  length : b.caches.length=cacheSizes.length
  tended : ∀ (k size : Nat) (c : Cache), cacheSizes[k]?=some size → b.caches[k]?=some c →
    Tended size c (live k)

namespace Bucket

variable {b b' : Bucket} {live live' : Nat → List Nat} {k size ptr bytes : Nat} {c c' : Cache}
  {d d' : GlobalDispatch} {rest : List Extent} {thisThread : Bool}

theorem Keeps.congr (h : b.Keeps live) (hl : ∀ k, (live k).Perm (live' k)) : b.Keeps live' :=
  ⟨h.length,fun k size c hk hc => (h.tended k size c hk hc).live_perm (hl k)⟩

theorem Keeps.cache (h : b.Keeps live) (hk : cacheSizes[k]?=some size) :
    ∃ c, b.caches[k]?=some c ∧ Tended size c (live k) := by
  have hlt := (List.getElem?_eq_some_iff.mp hk).1
  have hlt' : k < b.caches.length := h.length.symm ▸ hlt
  obtain ⟨c,hc⟩ : ∃ c, b.caches[k]?=some c := ⟨_,List.getElem?_eq_getElem hlt'⟩
  exact ⟨c,hc,h.tended k size c hk hc⟩

/-- One of the caches changes, and its live blocks with it. -/
theorem Keeps.set (h : b.Keeps live) (hk : cacheSizes[k]?=some size)
    (hc : Tended size c' (live' k)) (hl : ∀ j, j ≠ k → live' j=live j) :
    Bucket.Keeps ⟨b.caches.set k c'⟩ live' := by
  refine ⟨(List.length_set ..).trans h.length,?_⟩
  intro j size' c hj hcj
  by_cases hjk : j=k
  · subst hjk
    obtain rfl := Option.some.inj (hj.symm.trans hk)
    have hlt := (List.getElem?_eq_some_iff.mp hk).1
    simp only [List.getElem?_set_self (h.length.symm ▸ hlt),Option.some.injEq] at hcj
    exact hcj ▸ hc
  · simp only [List.getElem?_set_ne (Ne.symm hjk)] at hcj
    rw [hl j hjk]
    exact h.tended j size' c hj hcj

/-- The slabs of a bucket are those of one of its caches and the others. -/
theorem ptrs_set (hc : b.caches[k]?=some c) : ∃ others, b.ptrs.Perm (c.ptrs ++ others) ∧
    ∀ c', Bucket.ptrs ⟨b.caches.set k c'⟩ |>.Perm (c'.ptrs ++ others) := by
  obtain ⟨lo,hi,he,rfl⟩ := eq_mid c hc
  refine ⟨lo.flatMap Cache.ptrs ++ hi.flatMap Cache.ptrs,?_,?_⟩
  · rw [ptrs,he]
    exact flatMap_mid_perm lo hi c Cache.ptrs
  · intro c'
    rw [ptrs,he,set_mid]
    exact flatMap_mid_perm lo hi c' Cache.ptrs

theorem slabExtents_perm {l l' : List Nat} (h : l.Perm l') :
    (slabExtents l).Perm (slabExtents l') := h.map _

/-- A block of one of the caches handed out. -/
theorem Keeps.allocate (h : b.Keeps live) (hk : cacheSizes[k]?=some size)
    (hl : Ledger d.heap.granted (slabExtents d.blocks ++ (slabExtents b.ptrs ++ rest)))
    (ha : b.allocate d (some k) bytes=some (d',b',some ptr)) :
    b'.Keeps (Function.update live k (ptr :: live k)) ∧ 0 < ptr ∧
      Ledger d'.heap.granted (slabExtents d'.blocks ++ (slabExtents b'.ptrs ++ rest)) ∧
      GlobalDispatch.Extends d d' := by
  have hsz := List.mem_of_getElem? hk
  obtain ⟨c,c',hc,hx,rfl⟩ := allocate_cache ha
  have hct : Tended size c (live k) := h.tended k size c hk hc
  obtain ⟨others,hp,hp'⟩ := ptrs_set hc
  have hsplit : ∀ {l : List Nat} {x : Cache}, l.Perm (x.ptrs ++ others) →
      (slabExtents l ++ rest).Perm (slabExtents x.ptrs ++ (slabExtents others ++ rest)) := by
    intro l x hlp
    rw [← List.append_assoc,← slabExtents_append]
    exact (slabExtents_perm hlp).append_right rest
  obtain ⟨ht,hpos,hled,hext⟩ := hct.allocate hsz (hl.perm ((hsplit hp).append_left _)) hx
  refine ⟨h.set hk ?_ fun j hj => Function.update_of_ne hj _ _,hpos,
    hled.perm ((hsplit (hp' c')).symm.append_left _),hext⟩
  rw [Function.update_self]
  exact ht

/-- A live block of one of the caches comes back. -/
theorem Keeps.deallocate (h : b.Keeps live) (hk : cacheSizes[k]?=some size) (hm : ptr ∈ live k)
    (d : GlobalDispatch) (bytes : Nat) (thisThread : Bool) :
    ∃ c c', b.caches[k]?=some c ∧
      b.deallocate d ptr (some k) bytes thisThread=some (d,⟨b.caches.set k c'⟩,true) ∧
      Bucket.Keeps ⟨b.caches.set k c'⟩ (Function.update live k ((live k).erase ptr)) ∧
      (Bucket.ptrs ⟨b.caches.set k c'⟩).Subperm b.ptrs ∧ c.Marks ptr thisThread c' := by
  have hsz := List.mem_of_getElem? hk
  obtain ⟨c,hc,hct⟩ := h.cache hk
  obtain ⟨c',hd,ht,hsub,hmarks⟩ := hct.deallocate hsz hm thisThread
  obtain ⟨others,hp,hp'⟩ := ptrs_set hc
  refine ⟨c,c',hc,by simp only [Bucket.deallocate,hc,hd],
    h.set hk ?_ fun j hj => Function.update_of_ne hj _ _,?_,hmarks⟩
  · rw [Function.update_self]
    exact ht
  · exact (hp' c').subperm.trans ((List.subperm_append_right others |>.mpr hsub).trans
      hp.symm.subperm)

/-- A pointer into memory of others is in none of the caches. -/
theorem Keeps.deallocate_missing (h : b.Keeps live) (hk : cacheSizes[k]?=some size)
    (hn : ∀ mem ∈ b.ptrs, ptr ∉ Extent.bytes (mem,slabSize)) (d : GlobalDispatch) (bytes : Nat)
    (thisThread : Bool) :
    b.deallocate d ptr (some k) bytes thisThread=some (d,b,false) := by
  obtain ⟨c,hc,hct⟩ := h.cache hk
  have hd : c.deallocate ptr thisThread=some (c,false) := by
    refine hct.deallocate_missing (List.mem_of_getElem? hk) ?_ thisThread
    intro mem hmem
    exact hn mem (List.mem_flatMap.mpr ⟨c,List.mem_of_getElem? hc,hmem⟩)
  obtain ⟨lo,hi,he,rfl⟩ := eq_mid c hc
  have hset : b.caches.set lo.length c=b.caches := by rw [he,set_mid]
  simp only [Bucket.deallocate,hc,hd,hset]

/-- A live block lies in the memory of its bucket. -/
theorem Keeps.located (h : b.Keeps live) (hk : cacheSizes[k]?=some size) (hm : ptr ∈ live k) :
    ∃ mem ∈ b.ptrs, ptr ∈ Extent.bytes (mem,slabSize) := by
  obtain ⟨c,hc,hct⟩ := h.cache hk
  obtain ⟨mem,hmem,hp⟩ := hct.located (List.mem_of_getElem? hk) hm
  exact ⟨mem,List.mem_flatMap.mpr ⟨c,List.mem_of_getElem? hc,hmem⟩,hp⟩

theorem makeLoop_keeps {classes : List (Nat × Nat)}
    (hcl : ∀ x ∈ classes, x.2 ∈ cacheSizes ∧ x.1=slabSize/x.2) {caches : List Cache}
    (hl : Ledger d.heap.granted (slabExtents d.blocks ++ rest))
    (h : makeLoop d classes=some (d',some caches)) :
    caches.length=classes.length ∧
      (∀ (k : Nat) (x : Nat × Nat) (c : Cache), classes[k]?=some x → caches[k]?=some c →
        Tended x.2 c []) ∧
      Ledger d'.heap.granted
        (slabExtents d'.blocks ++ (slabExtents (caches.flatMap Cache.ptrs) ++ rest)) ∧
      GlobalDispatch.Extends d d' := by
  induction classes generalizing d caches rest with
  | nil =>
    simp only [makeLoop,Option.some.injEq,Prod.mk.injEq] at h
    obtain ⟨rfl,rfl⟩ := h
    exact ⟨rfl,by simp,hl,.refl d⟩
  | cons x classes ih =>
    obtain ⟨d₁,c,cs,hm,hr,rfl⟩ := makeLoop_cons h
    obtain ⟨count,blockSize⟩ := x
    obtain ⟨hsz,hcount⟩ : blockSize ∈ cacheSizes ∧ count=slabSize/blockSize :=
      hcl _ List.mem_cons_self
    subst hcount
    obtain ⟨ht,hled,hext⟩ := tended_make hsz hl hm
    obtain ⟨hlen,htend,hled',hext'⟩ := ih (fun x hx => hcl x (List.mem_cons_of_mem _ hx)) hled hr
    refine ⟨by simp [hlen],?_,hled'.perm ?_,hext.trans hext'⟩
    · intro k x c' hk hc
      cases k with
      | zero =>
        obtain rfl := Option.some.inj hk
        obtain rfl := Option.some.inj hc
        exact ht
      | succ k => exact htend k x c' hk hc
    · rw [List.flatMap_cons,slabExtents_append,List.append_assoc]
      refine List.Perm.append_left _ ?_
      rw [← List.append_assoc,← List.append_assoc]
      exact List.perm_append_comm.append_right rest

/-- The constructor has an index list for every cache. -/
theorem makeLoop_ne_none {classes : List (Nat × Nat)} (hcl : ∀ x ∈ classes, x.2 ∈ cacheSizes)
    (d : GlobalDispatch) : makeLoop d classes ≠ none := by
  induction classes generalizing d with
  | nil => simp [makeLoop]
  | cons x classes ih =>
    have hi : ∀ d : GlobalDispatch, Dispatch.getIndicies d x.2=some (indices (slabSize/x.2)) :=
      fun _ => getIndicies_eq (hcl x List.mem_cons_self)
    have hm : ∃ y, Cache.make d x.1 x.2=some y := by
      simp only [Cache.make,Cache.addCache,hi]
      cases Dispatch.getBlock d with
      | mk block d' => cases block <;> exact ⟨_,rfl⟩
    obtain ⟨⟨d₁,c,ok⟩,hm⟩ := hm
    rw [makeLoop,hm]
    cases ok with
    | false => simp
    | true =>
      cases hr : makeLoop d₁ classes with
      | none => exact absurd hr (ih (fun y hy => hcl y (List.mem_cons_of_mem _ hy)) d₁)
      | some z =>
        obtain ⟨d₂,cs⟩ := z
        cases cs <;> simp [hr]

theorem make_ne_none (d : GlobalDispatch) : Bucket.make d ≠ none := by
  have hcl : ∀ x ∈ blocksPer.zip cacheSizes, x.2 ∈ cacheSizes := fun x hx =>
    (List.of_mem_zip hx).2
  rw [Bucket.make]
  cases hm : makeLoop d (blocksPer.zip cacheSizes) with
  | none => exact absurd hm (makeLoop_ne_none hcl d)
  | some x =>
    obtain ⟨d₁,caches⟩ := x
    cases caches <;> simp

/-- A new bucket has all its blocks free. -/
theorem make_keeps (hl : Ledger d.heap.granted (slabExtents d.blocks ++ rest))
    (h : Bucket.make d=some (d',some b)) :
    b.Keeps (fun _ => []) ∧
      Ledger d'.heap.granted (slabExtents d'.blocks ++ (slabExtents b.ptrs ++ rest)) ∧
      GlobalDispatch.Extends d d' := by
  have hzip : blocksPer.zip cacheSizes=cacheSizes.map fun s => (slabSize/s,s) := by decide
  have hcl : ∀ x ∈ blocksPer.zip cacheSizes, x.2 ∈ cacheSizes ∧ x.1=slabSize/x.2 := by
    intro x hx
    rw [hzip] at hx
    obtain ⟨s,hs,rfl⟩ := List.mem_map.mp hx
    exact ⟨hs,rfl⟩
  obtain ⟨hlen,ht,hled,hext⟩ := makeLoop_keeps hcl hl (makeLoop_of_make h)
  refine ⟨⟨by rw [hlen,hzip,List.length_map],?_⟩,hled,hext⟩
  intro k size c hk hc
  exact ht k (slabSize/size,size) c (by rw [hzip,List.getElem?_map,hk]; rfl) hc

end Bucket

end Allocators.SlabMulti
