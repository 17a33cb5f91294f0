import Allocators.SlabImpl.Steps
import Allocators.Lib.Run

/-! A `Cache` together with its client, and what every run of both keeps. -/

namespace Allocators.SlabImpl

open Lib Extent

/-- The cache and the blocks handed out and not given back. -/
structure Pool where
  vecMap : VecMap
  cache : Cache
  live : List Nat

/-- The calls; `mem` is where `operator new` would put the next slab. -/
inductive Call
  | allocate (mem : Nat)
  | deallocate (ptr : Nat)
  | freeEmpty
  | freeAll
  deriving DecidableEq

namespace Pool

/-- Memory for a slab lies apart from that of all slabs the cache has. -/
def Fresh (c : Cache) (mem : Nat) : Prop :=
  ∀ s ∈ c.slabs, Extent.Apart (mem,c.blockSize*c.count) s.region.extent

/-- `allocate` needs a new slab. -/
def Grows (c : Cache) : Prop := c.slabsPart=[] ∧ c.slabsFree=[]

instance (c : Cache) (mem : Nat) : Decidable (Fresh c mem) :=
  inferInstanceAs (Decidable (∀ s ∈ c.slabs, _))

instance (c : Cache) : Decidable (Grows c) := inferInstanceAs (Decidable (_ ∧ _))

/-- One call; a pointer given back is live, memory for a new slab is fresh. -/
def serve (p : Pool) : Call → Option Pool
  | .allocate mem =>
    if Grows p.cache → Fresh p.cache mem then
      (p.cache.allocate p.vecMap mem).map fun (c,ptr) => ⟨p.vecMap,c,ptr :: p.live⟩
    else none
  | .deallocate ptr =>
    if ptr ∈ p.live then
      (p.cache.deallocate ptr).map fun c => ⟨p.vecMap,c,p.live.erase ptr⟩
    else none
  | .freeEmpty => some ⟨p.vecMap,p.cache.freeEmpty,p.live⟩
  | .freeAll => some ⟨p.vecMap,p.cache.freeAll,[]⟩

/-- What `addCache` leaves: `vecMap` after earlier calls and one for `count`, and the new cache. -/
def machine (blockSize count : Nat) : Machine Pool Call where
  start p := ∃ (counts : List Nat) (mem : Nat),
    p=⟨addToMap (counts.foldl addToMap []) count,
      Cache.make (addToMap (counts.foldl addToMap []) count) mem blockSize count,[]⟩
  next := serve

/-- The live blocks of a slab lie in the list the slab is kept in. -/
def Fits (live : List Nat) : Store → Slab → Prop
  | .slabsFree,s => ∀ ptr ∈ live, ¬ s.region.Contains ptr
  | .slabsPart,s => (∃ ptr ∈ live, s.region.Contains ptr) ∧ s.availible ≠ []
  | .slabsFull,s => s.availible=[]

/-- The lists, the index lists and the counter tell which blocks are live. -/
structure Represents (p : Pool) : Prop where
  fits : ∀ x, ∀ s ∈ p.cache.store x, Fits p.live x s
  accounts : ∀ s ∈ p.cache.slabs, Accounts s.region s.availible p.live
  located : ∀ ptr ∈ p.live, ∃ s ∈ p.cache.slabs, s.region.HasBlock ptr
  nodup : p.live.Nodup
  size : p.cache.mySize=p.live.length

/-- No call of a correct client runs into undefined behaviour, and no live block is handed out. -/
structure Serves (p : Pool) : Prop where
  allocate : ∀ mem, (Grows p.cache → Fresh p.cache mem) →
    ∃ c ptr, p.cache.allocate p.vecMap mem=some (c,ptr) ∧ ptr ∉ p.live
  deallocate : ∀ ptr ∈ p.live, ∃ c, p.cache.deallocate ptr=some c

/-- What is kept beside it: the shape of the slabs, and that their memory does not overlap. -/
structure Sound (blockSize count : Nat) (p : Pool) : Prop extends Represents p where
  indices : p.vecMap.lookup count=some (indices count)
  blockSize_eq : p.cache.blockSize=blockSize
  count_eq : p.cache.count=count
  shape : ∀ s ∈ p.cache.slabs, s.blockSize=blockSize ∧ s.count=count
  apart : Tiled (p.cache.slabs.map fun s => s.region.extent)

end Pool

section Built

/-- Every list in the map is the one for its key. -/
def VecMap.Built (vecMap : VecMap) : Prop :=
  ∀ count l, vecMap.lookup count=some l → l=indices count

theorem VecMap.Built.addToMap {vecMap : VecMap} (h : vecMap.Built) (count : Nat) :
    (addToMap vecMap count).Built ∧
      (SlabImpl.addToMap vecMap count).lookup count=some (indices count) := by
  unfold SlabImpl.addToMap
  cases hl : vecMap.lookup count with
  | none =>
    refine ⟨?_,by simp⟩
    intro k l hk
    rw [List.lookup_cons] at hk
    by_cases he : k=count
    · subst he
      simpa using hk.symm
    · have hb : (k==count)=false := by simpa using he
      rw [hb] at hk
      exact h k l hk
  | some l =>
    refine ⟨h,?_⟩
    simp only [hl,h count l hl]

theorem built_foldl (counts : List Nat) : (counts.foldl addToMap []).Built := by
  have step : ∀ (vecMap : VecMap), vecMap.Built → (counts.foldl addToMap vecMap).Built := by
    induction counts with
    | nil => exact fun _ h => h
    | cons count counts ih => exact fun _ h => ih _ (h.addToMap count).1
  exact step [] (by simp [VecMap.Built])

end Built

namespace Pool

variable {blockSize count : Nat}

theorem Sound.size_pos {p : Pool} (h : Sound blockSize count p) (h0 : 0 < blockSize) {s : Slab}
    (hs : s ∈ p.cache.slabs) : 0 < s.region.size := by
  rw [show s.region.size=blockSize from (h.shape s hs).1]
  exact h0

/-- One slab changes hands and one block of it becomes live or free; the other slabs stay right. -/
theorem Sound.moves {p : Pool} (h : Sound blockSize count p) (h0 : 0 < blockSize) {c' : Cache}
    {x y : Store} {s s' : Slab} (hv : Cache.Moves p.cache c' x y s s')
    (hr : s'.region=s.region) {ptr : Nat} {live' : List Nat} (hptr : s.region.HasBlock ptr)
    (hlive : ∀ q, q ≠ ptr → (q ∈ live' ↔ q ∈ p.live)) (hn : live'.Nodup)
    (hacc : Accounts s'.region s'.availible live') (hfit : Fits live' y s')
    (hsize : c'.mySize=live'.length) : Sound blockSize count ⟨p.vecMap,c',live'⟩ := by
  obtain ⟨rest,hp,hp',hmem⟩ := hv.others
  have hs : s ∈ p.cache.slabs := hp.mem_iff.mpr (by simp)
  have hpos := h.size_pos h0 hs
  have hrest : ∀ t ∈ rest, t ∈ p.cache.slabs :=
    fun t ht => hp.mem_iff.mpr (List.mem_cons_of_mem _ ht)
  have hap : ∀ t ∈ rest, ¬ t.region.Contains ptr := by
    intro t ht
    have hd := (tiled_cons.mp ((tiled_perm (hp.map _)).mp h.apart)).1
    exact Region.not_contains_of_apart (hd _ (List.mem_map_of_mem ht)) (hptr.contains hpos)
  have hne : ∀ t ∈ rest, ∀ q, t.region.Contains q → q ≠ ptr :=
    fun t ht q hq he => hap t ht (he ▸ hq)
  refine ⟨⟨?_,?_,?_,hn,hsize⟩,h.indices,
    hv.blockSize.trans h.blockSize_eq,hv.count.trans h.count_eq,?_,?_⟩
  · intro z t ht
    rcases hmem z t ht with ⟨rfl,rfl⟩ | ⟨hz,htr⟩
    · exact hfit
    · have hold := h.fits z t hz
      cases z with
      | slabsFree =>
        intro q hq hc
        exact hold q ((hlive q (hne t htr q hc)).mp hq) hc
      | slabsPart =>
        obtain ⟨⟨q,hq,hc⟩,ha⟩ := hold
        exact ⟨⟨q,(hlive q (hne t htr q hc)).mpr hq,hc⟩,ha⟩
      | slabsFull => exact hold
  · intro t ht
    rcases List.mem_cons.mp (hp'.mem_iff.mp ht) with rfl | ht
    · exact hacc
    · refine (h.accounts t (hrest t ht)).congr fun i hi => hlive _ (hne t ht _ ?_)
      exact Region.contains_block (h.size_pos h0 (hrest t ht)) hi
  · intro q hq
    by_cases he : q=ptr
    · exact ⟨s',hp'.mem_iff.mpr (by simp),by rw [hr,he]; exact hptr⟩
    · obtain ⟨t,ht,hb⟩ := h.located q ((hlive q he).mp hq)
      rcases List.mem_cons.mp (hp.mem_iff.mp ht) with rfl | ht
      · exact ⟨s',hp'.mem_iff.mpr (by simp),by rw [hr]; exact hb⟩
      · exact ⟨t,hp'.mem_iff.mpr (List.mem_cons_of_mem _ ht),hb⟩
  · intro t ht
    rcases List.mem_cons.mp (hp'.mem_iff.mp ht) with rfl | ht
    · have h1 : t.blockSize=s.blockSize := congrArg Region.size hr
      have h2 : t.count=s.count := congrArg Region.count hr
      rw [h1,h2]
      exact h.shape s hs
    · exact h.shape t (hrest t ht)
  · have ht := (tiled_perm (hp.map _)).mp h.apart
    refine (tiled_perm (hp'.map _)).mpr ?_
    rw [List.map_cons,hr]
    exact ht

/-- A block of a slab is handed out. -/
theorem Sound.take {p : Pool} (h : Sound blockSize count p) (h0 : 0 < blockSize) {c' : Cache}
    {x y : Store} {s : Slab} {availible : List Nat} {idx : Nat}
    (hs : s.availible=availible ++ [idx])
    (hv : Cache.Moves p.cache c' x y s { s with availible := availible })
    (hy : if availible=[] then y=.slabsFull else y=.slabsPart)
    (hsize : c'.mySize=p.cache.mySize+1) :
    s.region.block idx ∉ p.live ∧
      Sound blockSize count ⟨p.vecMap,c',s.region.block idx :: p.live⟩ := by
  have hm : s ∈ p.cache.slabs := Cache.mem_slabs.mpr ⟨x,hv.mem⟩
  have hpos := h.size_pos h0 hm
  have hacc : Accounts s.region (idx :: availible) p.live :=
    (h.accounts s hm).perm (hs ▸ List.perm_append_singleton idx availible)
  have hi := hacc.lt (List.mem_cons_self)
  have hn := hacc.not_live (List.mem_cons_self)
  have hb : s.region.HasBlock (s.region.block idx) := ⟨idx,hi,rfl⟩
  refine ⟨hn,h.moves h0 hv rfl hb ?_ ?_ ?_ ?_ ?_⟩
  · intro q hq
    simp [hq]
  · exact List.nodup_cons.mpr ⟨hn,h.nodup⟩
  · exact hacc.take hpos
  · split_ifs at hy with he
    · subst hy
      exact he
    · subst hy
      exact ⟨⟨_,List.mem_cons_self,Region.contains_block hpos hi⟩,he⟩
  · rw [hsize,h.size,List.length_cons]

/-- A live pointer into a slab's memory is one of its blocks. -/
theorem Sound.hasBlock {p : Pool} (h : Sound blockSize count p) (h0 : 0 < blockSize) {s : Slab}
    (hs : s ∈ p.cache.slabs) {ptr : Nat} (hm : ptr ∈ p.live) (hc : s.region.Contains ptr) :
    s.region.HasBlock ptr := by
  obtain ⟨t,ht,hb⟩ := h.located ptr hm
  have hp := List.perm_cons_erase hs
  rcases List.mem_cons.mp (hp.mem_iff.mp ht) with rfl | hr
  · exact hb
  · have hd := (tiled_cons.mp ((tiled_perm (hp.map _)).mp h.apart)).1
    have hn := Region.not_contains_of_apart (hd _ (List.mem_map_of_mem hr)) hc
    exact absurd (hb.contains (h.size_pos h0 ht)) hn

/-- A block of a slab comes back; an empty slab is then a free one. -/
theorem Sound.give {p : Pool} (h : Sound blockSize count p) (h0 : 0 < blockSize)
    (hmax : count ≤ maxSlabBlocks) {c' : Cache} {x : Store} {s : Slab} {ptr : Nat} (hm : ptr ∈ p.live)
    (hc : s.region.Contains ptr)
    (hv : Cache.Moves p.cache c' x
      (if (s.deallocate ptr).empty then .slabsFree else .slabsPart) s (s.deallocate ptr))
    (hsize : c'.mySize=p.cache.mySize-1) :
    Sound blockSize count ⟨p.vecMap,c',p.live.erase ptr⟩ := by
  have hs : s ∈ p.cache.slabs := Cache.mem_slabs.mpr ⟨x,hv.mem⟩
  have hpos := h.size_pos h0 hs
  have hb := h.hasBlock h0 hs hm hc
  obtain ⟨hi,he⟩ := hb.block_index hpos
  have hcount : s.region.count=count := (h.shape s hs).2
  have hidx : toIndexSizeT (s.region.index ptr)=s.region.index ptr :=
    toIndexSizeT_of_lt (lt_of_lt_of_le (hcount ▸ hi) (hmax.trans (by decide)))
  have hav : (s.deallocate ptr).availible=s.availible ++ [s.region.index ptr] := by
    rw [← hidx]
    rfl
  have hacc : Accounts s.region (s.deallocate ptr).availible (p.live.erase ptr) := by
    have hg := (h.accounts s hs).give hpos h.nodup hi (he.symm ▸ hm)
    rw [he] at hg
    rw [hav]
    exact hg.perm (List.perm_append_singleton _ _).symm
  refine h.moves h0 hv rfl hb ?_ ?_ hacc ?_ ?_
  · intro q hq
    exact List.mem_erase_of_ne hq
  · exact h.nodup.erase ptr
  · cases hem : (s.deallocate ptr).empty with
    | true =>
      have hlen := hacc.length_eq_iff.mp (of_decide_eq_true hem)
      intro q hq hcq
      obtain ⟨i,hi,rfl⟩ := h.hasBlock h0 hs (List.mem_of_mem_erase hq) hcq
      exact hlen i hi hq
    | false =>
      have hlen : ¬ ∀ i < s.region.count, s.region.block i ∉ p.live.erase ptr := by
        rw [← hacc.length_eq_iff]
        exact of_decide_eq_false hem
      obtain ⟨i,hi,hq⟩ : ∃ i < s.region.count, s.region.block i ∈ p.live.erase ptr := by
        by_contra hno
        exact hlen fun i hi hq => hno ⟨i,hi,hq⟩
      refine ⟨⟨_,hq,Region.contains_block hpos hi⟩,?_⟩
      rw [hav]
      simp
  · rw [hsize,h.size,List.length_erase_of_mem hm]

/-- A new slab is free, whatever is live. -/
theorem Sound.newSlab {p : Pool} (h : Sound blockSize count p) (h0 : 0 < blockSize)
    (hmax : count ≤ maxSlabBlocks) {mem : Nat} (hf : Fresh p.cache mem) :
    Sound blockSize count ⟨p.vecMap,Cache.newSlab p.vecMap p.cache mem,p.live⟩ := by
  set s := Slab.make p.vecMap mem p.cache.blockSize p.cache.count with hs
  have hav : s.availible=Allocators.indices count := by
    simp [hs,Slab.make,h.count_eq,h.indices]
  have hr : s.region=⟨mem,p.cache.blockSize,p.cache.count⟩ := rfl
  have hperm : (Cache.newSlab p.vecMap p.cache mem).slabs.Perm (s :: p.cache.slabs) :=
    slabs_newSlab p.vecMap p.cache mem
  have hnone : ∀ ptr ∈ p.live, ¬ s.region.Contains ptr := by
    intro ptr hm hc
    obtain ⟨t,ht,hb⟩ := h.located ptr hm
    have hap : s.region.extent.Apart t.region.extent := hf t ht
    exact Region.not_contains_of_apart hap hc (hb.contains (h.size_pos h0 ht))
  refine ⟨⟨?_,?_,?_,h.nodup,h.size⟩,h.indices,
    h.blockSize_eq,h.count_eq,?_,?_⟩
  · intro z t ht
    have ht' : t ∈ p.cache.store z ∨ z=.slabsFree ∧ t=s := by
      cases z with
      | slabsFree =>
        rcases List.mem_append.mp ht with ht | ht
        · exact .inl ht
        · exact .inr ⟨rfl,List.mem_singleton.mp ht⟩
      | slabsPart => exact .inl ht
      | slabsFull => exact .inl ht
    rcases ht' with ht' | ⟨rfl,rfl⟩
    · exact h.fits z t ht'
    · exact hnone
  · intro t ht
    rcases List.mem_cons.mp (hperm.mem_iff.mp ht) with rfl | ht
    · refine Accounts.fresh ?_ ?_ hnone
      · rw [hav,hr,h.count_eq]
        exact indices_perm hmax
      · rw [hr,h.blockSize_eq]
        exact h0
    · exact h.accounts t ht
  · intro q hq
    obtain ⟨t,ht,hb⟩ := h.located q hq
    exact ⟨t,hperm.mem_iff.mpr (List.mem_cons_of_mem _ ht),hb⟩
  · intro t ht
    rcases List.mem_cons.mp (hperm.mem_iff.mp ht) with rfl | ht
    · exact ⟨h.blockSize_eq,h.count_eq⟩
    · exact h.shape t ht
  · refine (tiled_perm (hperm.map _)).mpr (tiled_cons.mpr ⟨?_,h.apart⟩)
    intro e he
    obtain ⟨t,ht,rfl⟩ := List.mem_map.mp he
    exact hf t ht

/-- A partly filled slab has a block to hand out. -/
theorem Sound.part_concat {p : Pool} (h : Sound blockSize count p) {s : Slab}
    (hm : s ∈ p.cache.slabsPart) : ∃ availible idx, s.availible=availible ++ [idx] := by
  obtain ⟨_,hne⟩ := h.fits .slabsPart s hm
  rcases List.eq_nil_or_concat' s.availible with hnil | hav
  · exact absurd hnil hne
  · exact hav

/-- A free slab has more than one block to hand out. -/
theorem Sound.free_concat {p : Pool} (h : Sound blockSize count p) (h0 : 0 < blockSize)
    (hmin : 2 ≤ count) {s : Slab} (hm : s ∈ p.cache.slabsFree) :
    ∃ availible idx, s.availible=availible ++ [idx] ∧ availible ≠ [] := by
  have hs : s ∈ p.cache.slabs := Cache.mem_slabs.mpr ⟨.slabsFree,hm⟩
  have hlen : s.availible.length=s.region.count := by
    refine (h.accounts s hs).length_eq_iff.mpr ?_
    intro i hi hl
    exact h.fits .slabsFree s hm _ hl (Region.contains_block (h.size_pos h0 hs) hi)
  have hcount : s.region.count=count := (h.shape s hs).2
  rcases List.eq_nil_or_concat' s.availible with hnil | ⟨availible,idx,hav⟩
  · rw [hnil,List.length_nil] at hlen
    omega
  · refine ⟨availible,idx,hav,?_⟩
    rintro rfl
    rw [hav] at hlen
    simp only [List.nil_append,List.length_singleton] at hlen
    omega

theorem Sound.allocate_free {p : Pool} (h : Sound blockSize count p) (h0 : 0 < blockSize)
    (hmin : 2 ≤ count) (hp : p.cache.slabsPart=[]) {s : Slab} {rest : List Slab}
    (hf : p.cache.slabsFree=s :: rest) (mem : Nat) :
    ∃ c ptr, p.cache.allocate p.vecMap mem=some (c,ptr) ∧ ptr ∉ p.live ∧
      Sound blockSize count ⟨p.vecMap,c,ptr :: p.live⟩ := by
  obtain ⟨availible,idx,hav,hne⟩ := h.free_concat h0 hmin (s := s) (by simp [hf])
  obtain ⟨c,ha,hsize,hv⟩ := Cache.allocate_free p.vecMap mem hp hf hav hne
  have hy : if availible=[] then Store.slabsPart=.slabsFull else Store.slabsPart=.slabsPart := by
    rw [if_neg hne]
  obtain ⟨hn,hsound⟩ := h.take h0 hav hv hy hsize
  exact ⟨c,_,ha,hn,hsound⟩

/-- `allocate` never meets an empty index list and hands out a block that is not live. -/
theorem Sound.allocate {p : Pool} (h : Sound blockSize count p) (h0 : 0 < blockSize)
    (hmin : 2 ≤ count) (hmax : count ≤ maxSlabBlocks) {mem : Nat}
    (hf : Grows p.cache → Fresh p.cache mem) :
    ∃ c ptr, p.cache.allocate p.vecMap mem=some (c,ptr) ∧ ptr ∉ p.live ∧
      Sound blockSize count ⟨p.vecMap,c,ptr :: p.live⟩ := by
  cases hp : p.cache.slabsPart with
  | cons s rest =>
    obtain ⟨availible,idx,hav⟩ := h.part_concat (s := s) (by simp [hp])
    obtain ⟨c,ha,hsize,hv⟩ := Cache.allocate_part p.vecMap mem hp hav
    have hy : if availible=[] then
        (if availible=[] then Store.slabsFull else .slabsPart)=Store.slabsFull
        else (if availible=[] then Store.slabsFull else .slabsPart)=Store.slabsPart := by
      split_ifs <;> rfl
    obtain ⟨hn,hsound⟩ := h.take h0 hav hv hy hsize
    exact ⟨c,_,ha,hn,hsound⟩
  | nil =>
    cases hfree : p.cache.slabsFree with
    | cons s rest => exact h.allocate_free h0 hmin hp hfree mem
    | nil =>
      have hnew := h.newSlab h0 hmax (hf ⟨hp,hfree⟩)
      have he : (Cache.newSlab p.vecMap p.cache mem).slabsFree=
          [Slab.make p.vecMap mem p.cache.blockSize p.cache.count] := by
        simp [Cache.newSlab,hfree]
      rw [Cache.allocate_grow p.vecMap mem hp hfree]
      exact hnew.allocate_free h0 hmin hp he mem

theorem Sound.deallocate {p : Pool} (h : Sound blockSize count p) (h0 : 0 < blockSize)
    (hmin : 2 ≤ count) (hmax : count ≤ maxSlabBlocks) {ptr : Nat} (hm : ptr ∈ p.live) :
    ∃ c, p.cache.deallocate ptr=some c ∧
      Sound blockSize count ⟨p.vecMap,c,p.live.erase ptr⟩ := by
  rcases Cache.searchStore_cases p.cache .slabsFull ptr with ⟨hf,hnf⟩ | ⟨i,s,hf,hi,hc⟩
  · rcases Cache.searchStore_cases p.cache .slabsPart ptr with ⟨_,hnp⟩ | ⟨i,s,hp,hi,hc⟩
    · obtain ⟨t,ht,hb⟩ := h.located ptr hm
      obtain ⟨x,hx⟩ := Cache.mem_slabs.mp ht
      have hct := hb.contains (h.size_pos h0 ht)
      cases x with
      | slabsFree => exact absurd hct (h.fits .slabsFree t hx ptr hm)
      | slabsPart => exact absurd hct (hnp t hx)
      | slabsFull => exact absurd hct (hnf t hx)
    · obtain ⟨c,hd,hsize,hv⟩ := Cache.deallocate_part hf hp hi
      exact ⟨c,hd,h.give h0 hmax hm hc hv hsize⟩
  · have hs := List.mem_of_getElem? hi
    have hnil : s.availible=[] := h.fits .slabsFull s hs
    have hcount : s.count=count := (h.shape s (Cache.mem_slabs.mpr ⟨_,hs⟩)).2
    have hempty := Slab.empty_deallocate_of_full hnil (hcount ▸ hmin) ptr
    obtain ⟨c,hd,hsize,hv⟩ := Cache.deallocate_full hf hi hempty
    have hv' : Cache.Moves p.cache c .slabsFull
        (if (s.deallocate ptr).empty then .slabsFree else .slabsPart) s (s.deallocate ptr) := by
      rw [hempty]
      exact hv
    exact ⟨c,hd,h.give h0 hmax hm hc hv' hsize⟩

/-- A free slab has no live block, so dropping it changes nothing for the client. -/
theorem Sound.freeEmpty {p : Pool} (h : Sound blockSize count p) (h0 : 0 < blockSize) :
    Sound blockSize count ⟨p.vecMap,p.cache.freeEmpty,p.live⟩ := by
  have hsub : ∀ z, ∀ s ∈ p.cache.freeEmpty.store z, s ∈ p.cache.store z := by
    intro z s hs
    cases z with
    | slabsFree => simp [Cache.store] at hs
    | slabsPart => simpa [Cache.store] using hs
    | slabsFull => simpa [Cache.store] using hs
  have hlist := p.cache.slabs_freeEmpty_sublist
  refine ⟨⟨fun z s hs => h.fits z s (hsub z s hs),fun s hs => h.accounts s (hlist.mem hs),
    ?_,h.nodup,?_⟩,h.indices,?_,?_,fun s hs => h.shape s (hlist.mem hs),?_⟩
  · intro q hq
    obtain ⟨t,ht,hb⟩ := h.located q hq
    obtain ⟨x,hx⟩ := Cache.mem_slabs.mp ht
    refine ⟨t,Cache.mem_slabs.mpr ⟨x,?_⟩,hb⟩
    cases x with
    | slabsFree => exact absurd (hb.contains (h.size_pos h0 ht)) (h.fits .slabsFree t hx q hq)
    | slabsPart => simpa [Cache.store] using hx
    | slabsFull => simpa [Cache.store] using hx
  · rw [Cache.freeEmpty_mySize]
    exact h.size
  · rw [Cache.freeEmpty_blockSize]
    exact h.blockSize_eq
  · rw [Cache.freeEmpty_count]
    exact h.count_eq
  · exact List.Pairwise.sublist (hlist.map _) h.apart

theorem Sound.freeAll {p : Pool} (h : Sound blockSize count p) :
    Sound blockSize count ⟨p.vecMap,p.cache.freeAll,[]⟩ := by
  refine ⟨⟨fun z s hs => ?_,?_,?_,List.nodup_nil,rfl⟩,h.indices,h.blockSize_eq,h.count_eq,?_,?_⟩
  · cases z <;> exact absurd hs List.not_mem_nil
  all_goals simp [Cache.slabs,Cache.freeAll,Tiled]

/-- What `addCache` leaves, whatever the map of index lists had before. -/
theorem sound_make (h0 : 0 < blockSize) (hmax : count ≤ maxSlabBlocks) {vecMap : VecMap}
    (hb : vecMap.Built) (mem : Nat) : Sound blockSize count
      ⟨addToMap vecMap count,Cache.make (addToMap vecMap count) mem blockSize count,[]⟩ := by
  have hempty : Sound blockSize count
      ⟨addToMap vecMap count,⟨count,blockSize,0,0,[],[],[]⟩,[]⟩ := by
    refine ⟨⟨fun z s hs => ?_,?_,?_,List.nodup_nil,rfl⟩,(hb.addToMap count).2,rfl,rfl,?_,?_⟩
    · cases z <;> exact absurd hs List.not_mem_nil
    all_goals simp [Cache.slabs,Tiled]
  exact hempty.newSlab h0 hmax (by simp [Fresh,Cache.slabs])

theorem sound_start (h0 : 0 < blockSize) (hmax : count ≤ maxSlabBlocks) {p : Pool}
    (h : (machine blockSize count).start p) : Sound blockSize count p := by
  obtain ⟨counts,mem,rfl⟩ := h
  exact sound_make h0 hmax (built_foldl counts) mem

theorem sound_next (h0 : 0 < blockSize) (hmin : 2 ≤ count) (hmax : count ≤ maxSlabBlocks) {p p' : Pool}
    {c : Call} (h : Sound blockSize count p) (hn : (machine blockSize count).next p c=some p') :
    Sound blockSize count p' := by
  change serve p c=some p' at hn
  cases c with
  | allocate mem =>
    simp only [serve] at hn
    split_ifs at hn with hf
    obtain ⟨c,ptr,ha,_,hs⟩ := h.allocate h0 hmin hmax hf
    rw [ha] at hn
    cases hn
    exact hs
  | deallocate ptr =>
    simp only [serve] at hn
    split_ifs at hn with hm
    obtain ⟨c,hd,hs⟩ := h.deallocate h0 hmin hmax hm
    rw [hd] at hn
    cases hn
    exact hs
  | freeEmpty =>
    cases hn
    exact h.freeEmpty h0
  | freeAll =>
    cases hn
    exact h.freeAll

/-- In every run the three lists, the index lists and the counter describe the live blocks, and
the next call is defined and hands out a block that is not live. -/
theorem reachable_represents (h0 : 0 < blockSize) (hmin : 2 ≤ count) (hmax : count ≤ maxSlabBlocks)
    {p : Pool} (r : (machine blockSize count).Reachable p) : Represents p ∧ Serves p := by
  have h : Sound blockSize count p :=
    r.invariant (fun _ hs => sound_start h0 hmax hs) (fun _ _ _ hs hn => sound_next h0 hmin hmax hs hn)
  refine ⟨h.toRepresents,?_,?_⟩
  · intro mem hf
    obtain ⟨c,ptr,ha,hn,_⟩ := h.allocate h0 hmin hmax hf
    exact ⟨c,ptr,ha,hn⟩
  · intro ptr hm
    obtain ⟨c,hd,_⟩ := h.deallocate h0 hmin hmax hm
    exact ⟨c,hd⟩

/-- Slabs of two blocks of 8 bytes: three are handed out, and one of the full slab comes back. -/
theorem reachable_represents_two_slabs :
    ∃ p, (p.cache.slabsPart.length=2 ∧ p.live=[200,100]) ∧ Represents p ∧ Serves p := by
  obtain ⟨p,r,hp⟩ := Machine.reachable_of_runFrom (machine 8 2)
    ⟨addToMap [] 2,Cache.make (addToMap [] 2) 100 8 2,[]⟩
    [.allocate 0,.allocate 0,.allocate 200,.deallocate 108]
    (fun p => p.cache.slabsPart.length=2 ∧ p.live=[200,100]) ⟨[],100,rfl⟩ (by decide)
  exact ⟨p,hp,reachable_represents (by decide) (by decide) (by decide) r⟩

end Pool

end Allocators.SlabImpl
