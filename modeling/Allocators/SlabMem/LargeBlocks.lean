import Allocators.SlabMem.Interface
import Allocators.SlabImpl.Filled

/-! The caches `addCache` builds, down to one block in a slab: which iterators `allocate` and
`deallocate` use. -/

namespace Allocators.SlabMem

open Lib Extent SlabImpl

/-- Each block out is in one of the slabs, and with the index lists they add up slab by slab. -/
structure Counted (blockSize count : Nat) (p : Pool) : Prop where
  filled : Filled p.cache
  indices : p.vecMap.lookup count=some (indices count)
  count_eq : p.cache.count=count
  blockSize_eq : p.cache.blockSize=blockSize
  shape : ∀ s ∈ p.cache.slabs, s.blockSize=blockSize
  tally : ∀ s ∈ p.cache.slabs, Tally s.region s.availible p.live
  located : ∀ ptr ∈ p.live, ∃ s ∈ p.cache.slabs, s.region.Contains ptr
  apart : Tiled (p.cache.slabs.map fun s => s.region.extent)

/-- No iterator is stale and no slab without a block is asked for one; and a full slab is among
the full ones, an empty one among the free ones. -/
structure Safe (p : Pool) : Prop where
  allocate : ∀ mem, (Pool.Grows p.cache → Pool.Fresh p.cache mem) →
    (Traced.allocate p.vecMap p.cache mem).isSome
  deallocate : ∀ ptr ∈ p.live, (Traced.deallocate p.cache ptr).isSome
  full : ∀ s ∈ p.cache.slabs, s.availible=[] → s ∈ p.cache.slabsFull
  empty : ∀ s ∈ p.cache.slabs, s.empty → s ∈ p.cache.slabsFree

namespace Counted

variable {blockSize count : Nat} {p : Pool} {c' : Cache} {s : Slab} {ptr mem : Nat}

theorem live_perm {live' : List Nat} (h : Counted blockSize count p) (hp : p.live.Perm live') :
    Counted blockSize count ⟨p.vecMap,p.cache,live'⟩ :=
  ⟨h.filled,h.indices,h.count_eq,h.blockSize_eq,h.shape,fun s hs => (h.tally s hs).live_perm hp,
    fun ptr hm => h.located ptr (hp.mem_iff.mpr hm),h.apart⟩

/-- A slab whose blocks come and go keeps its memory; the other slabs do not notice. -/
theorem moves (h : Counted blockSize count p) {x y : Store} {s' : Slab} {live' : List Nat}
    (hf : Filled c') (hv : Cache.Moves p.cache c' x y s s') (hr : s'.region=s.region)
    (hc : s.region.Contains ptr) (htally : Tally s'.region s'.availible live')
    (hother : ∀ (r : Region) free, ¬ r.Contains ptr → Tally r free p.live → Tally r free live')
    (hlive : ∀ q ∈ live', q=ptr ∨ q ∈ p.live) : Counted blockSize count ⟨p.vecMap,c',live'⟩ := by
  obtain ⟨rest,hp,hp',_⟩ := hv.others
  have hs : s ∈ p.cache.slabs := hp.mem_iff.mpr (by simp)
  have hrest : ∀ t ∈ rest, t ∈ p.cache.slabs :=
    fun t ht => hp.mem_iff.mpr (List.mem_cons_of_mem _ ht)
  have htiled := (tiled_perm (hp.map _)).mp h.apart
  have hno : ∀ t ∈ rest, ¬ t.region.Contains ptr := fun t ht =>
    Region.not_contains_of_apart ((tiled_cons.mp htiled).1 _ (List.mem_map_of_mem ht)) hc
  have hin : ∀ q t, t ∈ p.cache.slabs → t.region.Contains q →
      ∃ t ∈ c'.slabs, t.region.Contains q := by
    intro q t ht hq
    rcases List.mem_cons.mp (hp.mem_iff.mp ht) with rfl | ht
    · exact ⟨s',hp'.mem_iff.mpr (by simp),hr ▸ hq⟩
    · exact ⟨t,hp'.mem_iff.mpr (List.mem_cons_of_mem _ ht),hq⟩
  refine ⟨hf,h.indices,hv.count.trans h.count_eq,hv.blockSize.trans h.blockSize_eq,
    ?_,?_,?_,?_⟩
  · intro t ht
    rcases List.mem_cons.mp (hp'.mem_iff.mp ht) with rfl | ht
    · exact (congrArg Region.size hr).trans (h.shape s hs)
    · exact h.shape t (hrest t ht)
  · intro t ht
    rcases List.mem_cons.mp (hp'.mem_iff.mp ht) with rfl | ht
    · exact htally
    · exact hother _ _ (hno t ht) (h.tally t (hrest t ht))
  · intro q hq
    rcases hlive q hq with rfl | hq
    · exact hin q s hs hc
    · obtain ⟨t,ht,hqt⟩ := h.located q hq
      exact hin q t ht hqt
  · refine (tiled_perm (hp'.map _)).mpr ?_
    rw [List.map_cons,hr]
    exact htiled

theorem taken (h : Counted blockSize count p) (h0 : 0 < blockSize) {availible : List Nat}
    {idx : Nat} (ht : Taken p.cache c' s availible idx) :
    Counted blockSize count ⟨p.vecMap,c',s.region.block idx :: p.live⟩ := by
  obtain ⟨x,hv⟩ := ht.moves
  have hs : s ∈ p.cache.slabs := Cache.mem_slabs.mpr ⟨x,hv.mem⟩
  have hpos : 0 < s.region.size := by
    rw [show s.region.size=blockSize from h.shape s hs]
    exact h0
  have htally : Tally s.region (idx :: availible) p.live := by
    refine (h.tally s hs).perm ?_
    rw [ht.availible_eq]
    exact List.perm_append_singleton idx availible
  have hc := Region.contains_block hpos (htally.lt idx (by simp))
  refine h.moves (h.filled.taken ht) hv rfl hc (htally.take hpos) ?_ ?_
  · intro r free hn hr
    exact hr.cons_other hn
  · intro q hq
    exact List.mem_cons.mp hq

theorem given (h : Counted blockSize count p) (hm : ptr ∈ p.live)
    (hg : Given p.cache c' s ptr) : Counted blockSize count ⟨p.vecMap,c',p.live.erase ptr⟩ := by
  obtain ⟨x,hv⟩ := hg.moves
  have hs : s ∈ p.cache.slabs := Cache.mem_slabs.mpr ⟨x,hv.mem⟩
  have hc := hg.contains
  have hidx : s.region.index ptr < s.region.count := by
    have hge := hc.1
    have hlt := hc.2
    exact Nat.div_lt_of_lt_mul (by omega)
  have htally : Tally s.region (s.deallocate ptr).availible (p.live.erase ptr) := by
    refine ((h.tally s hs).give (i := toIndexSizeT (s.region.index ptr)) ?_ hm hc).perm ?_
    · exact lt_of_le_of_lt (toIndexSizeT_le _) hidx
    · exact (List.perm_append_singleton _ _).symm
  refine h.moves (h.filled.given hg) hv rfl hc htally ?_ ?_
  · intro r free hn hr
    exact hr.erase_other hn
  · intro q hq
    exact .inr (List.mem_of_mem_erase hq)

theorem newSlab (h : Counted blockSize count p) (hf : Pool.Fresh p.cache mem) :
    Counted blockSize count ⟨p.vecMap,Cache.newSlab p.vecMap p.cache mem,p.live⟩ := by
  have hp := slabs_newSlab p.vecMap p.cache mem
  have hl : p.vecMap.lookup p.cache.count=some (Allocators.indices p.cache.count) := by
    rw [h.count_eq]
    exact h.indices
  have hnone : ∀ q ∈ p.live,
      ¬ (Slab.make p.vecMap mem p.cache.blockSize p.cache.count).region.Contains q := by
    intro q hq hc
    obtain ⟨t,ht,hqt⟩ := h.located q hq
    have hap : (Slab.make p.vecMap mem p.cache.blockSize p.cache.count).region.extent.Apart
        t.region.extent := hf t ht
    exact Region.not_contains_of_apart hap hc hqt
  refine ⟨h.filled.newSlab hl,h.indices,h.count_eq,h.blockSize_eq,?_,?_,
    ?_,?_⟩
  · intro t ht
    rcases List.mem_cons.mp (hp.mem_iff.mp ht) with rfl | ht
    · exact h.blockSize_eq
    · exact h.shape t ht
  · intro t ht
    rcases List.mem_cons.mp (hp.mem_iff.mp ht) with rfl | ht
    · refine .fresh ?_ ?_ hnone
      · intro i hi
        have hi' : i ∈ Allocators.indices p.cache.count := by simpa [Slab.make,hl] using hi
        exact lt_of_mem_indices hi'
      · simp [Slab.make,Slab.region,hl]
    · exact h.tally t ht
  · intro q hq
    obtain ⟨t,ht,hqt⟩ := h.located q hq
    exact ⟨t,hp.mem_iff.mpr (List.mem_cons_of_mem _ ht),hqt⟩
  · refine (tiled_perm (hp.map _)).mpr (tiled_cons.mpr ⟨?_,h.apart⟩)
    intro e he
    obtain ⟨t,ht,rfl⟩ := List.mem_map.mp he
    exact hf t ht

/-- A slab with a live block has an index missing. -/
theorem has_taken (h : Counted blockSize count p) (hm : ptr ∈ p.live) :
    ∃ s ∈ p.cache.slabs, s.availible.length < p.cache.count ∧ s.region.Contains ptr := by
  obtain ⟨s,hs,hc⟩ := h.located ptr hm
  refine ⟨s,hs,?_,hc⟩
  have hsum := (h.tally s hs).sum
  have hpos : 0 < p.live.countP fun q => decide (s.region.Contains q) :=
    List.countP_pos_iff.mpr ⟨ptr,hm,by simpa using hc⟩
  have hcount : s.region.count=p.cache.count := h.filled.shape s hs
  omega

theorem grown (h : Counted blockSize count p) (hf : Pool.Grows p.cache → Pool.Fresh p.cache mem) :
    Counted blockSize count ⟨p.vecMap,SlabImpl.grown p.vecMap p.cache mem,p.live⟩ := by
  unfold SlabImpl.grown
  split_ifs with hg
  · exact h.newSlab (hf hg)
  · exact h

/-- A new slab brings the only new memory. -/
theorem grown_extents (vecMap : VecMap) (c : Cache) (mem : Nat) :
    ((SlabImpl.grown vecMap c mem).slabs.map fun s => s.region.extent).Perm
      ((if Pool.Grows c then [(mem,c.blockSize*c.count)] else []) ++
        c.slabs.map fun s => s.region.extent) := by
  unfold SlabImpl.grown
  split_ifs
  · exact (slabs_newSlab vecMap c mem).map _
  · exact .refl _

theorem allocate (h : Counted blockSize count p) (h0 : 0 < blockSize) (hmin : 2 ≤ count)
    (hf : Pool.Grows p.cache → Pool.Fresh p.cache mem) :
    ∃ c' ptr es, p.cache.allocate p.vecMap mem=some (c',ptr) ∧
      Traced.allocate p.vecMap p.cache mem=some (c',ptr,es) ∧
      Counted blockSize count ⟨p.vecMap,c',ptr :: p.live⟩ ∧
      (c'.slabs.map fun s => s.region.extent).Perm
        ((if Pool.Grows p.cache then [(mem,blockSize*count)] else []) ++
          p.cache.slabs.map fun s => s.region.extent) := by
  have hl : p.vecMap.lookup p.cache.count=some (Allocators.indices p.cache.count) := by
    rw [h.count_eq]
    exact h.indices
  obtain ⟨c',s,availible,idx,es,ha,ht,_,htaken⟩ :=
    h.filled.allocate _ mem (h.count_eq.symm ▸ hmin) hl
  obtain ⟨_,hv⟩ := htaken.moves
  refine ⟨c',_,_,ha,ht,(h.grown hf).taken h0 htaken,(hv.extents rfl).trans ?_⟩
  rw [← h.blockSize_eq,← h.count_eq]
  exact grown_extents p.vecMap p.cache mem

theorem deallocate (h : Counted blockSize count p) (hmin : 2 ≤ count) (hm : ptr ∈ p.live) :
    ∃ c' es, p.cache.deallocate ptr=some c' ∧ Traced.deallocate p.cache ptr=some (c',es) ∧
      Counted blockSize count ⟨p.vecMap,c',p.live.erase ptr⟩ ∧
      (c'.slabs.map fun s => s.region.extent).Perm
        (p.cache.slabs.map fun s => s.region.extent) := by
  obtain ⟨c',s,es,hd,ht,_,hg⟩ :=
    deallocate_some h.filled (h.count_eq.symm ▸ hmin) (h.has_taken hm)
  obtain ⟨_,hv⟩ := hg.moves
  exact ⟨c',es,hd,ht,h.given hm hg,hv.extents rfl⟩

theorem safe (h : Counted blockSize count p) (h0 : 0 < blockSize) (hmin : 2 ≤ count) : Safe p := by
  have hcount := h.count_eq
  refine ⟨?_,?_,?_,?_⟩
  · intro mem hf
    obtain ⟨c',ptr,es,_,ht,_⟩ := h.allocate h0 hmin hf
    rw [ht]
    rfl
  · intro ptr hm
    obtain ⟨c',es,_,ht,_⟩ := h.deallocate hmin hm
    rw [ht]
    rfl
  · intro s hs he
    obtain ⟨x,hx⟩ := Cache.mem_slabs.mp hs
    have hlev := h.filled.levels x s hx
    cases x with
    | slabsFree =>
      simp only [Level,he,List.length_nil] at hlev
      omega
    | slabsPart => simp [Level,he] at hlev
    | slabsFull => exact hx
  · intro s hs he
    obtain ⟨x,hx⟩ := Cache.mem_slabs.mp hs
    have hlev := h.filled.levels x s hx
    have hlen : s.availible.length=s.count := of_decide_eq_true he
    have hshape := h.filled.shape s hs
    cases x with
    | slabsFree => exact hx
    | slabsPart =>
      have := hlev.2
      omega
    | slabsFull =>
      have hnil : s.availible=[] := hlev
      rw [hnil,List.length_nil] at hlen
      omega

end Counted

section Runs

variable {blockSize count : Nat} {p p' : Pool}

/-- What `addCache` leaves, whatever the map of index lists had before. -/
theorem counted_make {vecMap : VecMap} (hb : vecMap.Built) (mem : Nat) : Counted blockSize count
    ⟨addToMap vecMap count,Cache.make (addToMap vecMap count) mem blockSize count,[]⟩ := by
  have hempty : Counted blockSize count
      ⟨addToMap vecMap count,⟨count,blockSize,0,0,[],[],[]⟩,[]⟩ := by
    refine ⟨.empty _ _,(hb.addToMap count).2,rfl,rfl,?_,?_,?_,?_⟩
    all_goals simp [Cache.slabs,Tiled]
  exact hempty.newSlab (by simp [Pool.Fresh,Cache.slabs])

theorem counted_start (h : (Pool.machine blockSize count).start p) :
    Counted blockSize count p := by
  obtain ⟨counts,mem,rfl⟩ := h
  exact counted_make (built_foldl counts) mem

/-- The calls of a client that only allocates and deallocates. -/
def Client (_ : Pool) : Call → Prop
  | .allocate _ => True
  | .deallocate _ => True
  | .freeEmpty => False
  | .freeAll => False

instance (p : Pool) (c : Call) : Decidable (Client p c) := by
  cases c <;> unfold Client <;> infer_instance

/-- The cache `addCache` makes, and allocations and deallocations. -/
def machine (pgSz blockSize count : Nat) : Machine Pool Call :=
  (Pool.machine blockSize (roundedCount pgSz blockSize count)).restrict Client

theorem counted_next (h0 : 0 < blockSize) (hmin : 2 ≤ count) (h : Counted blockSize count p)
    {c : Call} (hc : Client p c) (hn : p.serve c=some p') : Counted blockSize count p' := by
  cases c with
  | allocate mem =>
    simp only [Pool.serve] at hn
    split_ifs at hn with hf
    obtain ⟨c',ptr,es,ha,_,hcount,_⟩ := h.allocate h0 hmin hf
    rw [ha] at hn
    cases hn
    exact hcount
  | deallocate ptr =>
    simp only [Pool.serve] at hn
    split_ifs at hn with hm
    obtain ⟨c',es,hd,_,hcount,_⟩ := h.deallocate hmin hm
    rw [hd] at hn
    cases hn
    exact hcount
  | freeEmpty => exact absurd hc id
  | freeAll => exact absurd hc id

/-- With a slab of at most one block there is nothing at the iterator any more when the slab is
to move on, or no block to begin with. -/
theorem allocate_stale {c : Cache} {s : Slab} (vecMap : VecMap) (mem : Nat)
    (hp : c.slabsPart=[]) (hf : c.slabsFree=[s]) (hlen : s.availible.length ≤ 1) :
    Traced.allocate vecMap c mem=none := by
  have hfind : Traced.findFreeSlab vecMap c mem=(c,(.slabsFree,0),[]) := by
    simp [Traced.findFreeSlab,hp,hf]
  have hd : c.deref (.slabsFree,0)=some s := by simp [Cache.deref,Cache.store,hf]
  rcases List.eq_nil_or_concat' s.availible with hnil | ⟨availible,idx,hav⟩
  · simp [Traced.allocate,hfind,hd,Slab.allocate,hnil]
  · have hnil : availible=[] := by
      rw [hav,List.length_append,List.length_singleton] at hlen
      exact List.length_eq_zero_iff.mp (by omega)
    subst hnil
    set c₁ := c.assign (.slabsFree,0) { s with availible := [] } with hc₁
    have hd₁ : c₁.deref (.slabsFree,0)=some { s with availible := [] } :=
      Traced.deref_assign hd _
    have hstore : c₁.store .slabsFree=[{ s with availible := [] }] := by
      simp [hc₁,Cache.assign,Cache.store,hf]
      rfl
    obtain ⟨es,hes,_⟩ := Traced.splice_eq (show Store.slabsFree ≠ .slabsPart by decide) hd₁
    rw [Cache.splice_eq (show Store.slabsFree ≠ .slabsPart by decide) hd₁] at hes
    have hgone (k : Cache) : (k.setStore (Vector.swapPop (c₁.store .slabsFree) 0)
        .slabsFree).deref (.slabsFree,0)=none := by
      simp [Cache.deref,hstore,Vector.swapPop]
    have hsplice (k : Cache) : Traced.splice (k.setStore (Vector.swapPop (c₁.store .slabsFree) 0)
        .slabsFree) .slabsFull .slabsFree (.slabsFree,0)=none := by
      simp [Traced.splice,hgone]
    simp [Traced.allocate,hfind,hd,Slab.allocate_concat hav,← hc₁,hes,hsplice]

/-- Every iterator is valid in every run exactly if the slabs have two blocks or more. -/
theorem safe_iff_two_blocks (pgSz count : Nat) (h0 : 0 < blockSize) :
    (∀ p, (machine pgSz blockSize count).Reachable p → Safe p) ↔
      2 ≤ roundedCount pgSz blockSize count := by
  constructor
  · intro hsafe
    by_contra hlt
    set n := roundedCount pgSz blockSize count with hn
    have hstart : (machine pgSz blockSize count).start
        ⟨addToMap [] n,Cache.make (addToMap [] n) 0 blockSize n,[]⟩ := ⟨[],0,rfl⟩
    have hs := (hsafe _ ⟨[],.start hstart⟩).allocate 0 (by simp [Pool.Grows,Cache.make,Cache.newSlab])
    have hnone : Traced.allocate (addToMap [] n) (Cache.make (addToMap [] n) 0 blockSize n) 0=none := by
      refine allocate_stale _ _ rfl rfl ?_
      have hl := ((built_foldl []).addToMap n).2
      simp only [List.foldl_nil] at hl
      simp [Slab.make,hl]
      omega
    rw [hnone] at hs
    exact absurd hs (by simp)
  · intro hmin p hr
    have h : Counted blockSize (roundedCount pgSz blockSize count) p := by
      obtain ⟨k,r⟩ := hr
      obtain ⟨r',hg⟩ := r.of_restrict
      exact r'.always (fun _ hs => counted_start hs)
        (fun _ _ _ hi hc hn => counted_next h0 hmin hi hc hn) hg p (by simp)
    exact h.safe h0 hmin

/-- Blocks of half a page. -/
theorem safe_iff_two_blocks_half_page :
    roundedCount 4096 2048 1=2 ∧ ∀ p, (machine 4096 2048 1).Reachable p → Safe p :=
  ⟨by decide,(safe_iff_two_blocks 4096 1 (by decide)).mpr (by decide)⟩

/-- One block of a whole page: the first allocation splices the slab out of `slabsFree` and then
splices from there once more. -/
theorem whole_page_block_is_stale :
    ∃ p, (machine 4096 4096 1).Reachable p ∧ p.cache.count=1 ∧ ¬ Safe p := by
  refine ⟨⟨addToMap [] 1,Cache.make (addToMap [] 1) 65536 4096 1,[]⟩,
    ⟨[],.start ⟨[],65536,rfl⟩⟩,rfl,?_⟩
  intro hs
  have ha := hs.allocate 0 (by decide)
  revert ha
  decide

end Runs

end Allocators.SlabMem
