import Allocators.SlabImpl.Filled

/-! A `Cache` that releases nothing grows with the peak of its live blocks only. -/

namespace Allocators.SlabImpl

open Lib

/-- Blocks are handed out and come back; no slab is released. -/
def Call.Keeps : Call → Prop
  | .allocate _ => True
  | .deallocate _ => True
  | .freeEmpty => False
  | .freeAll => False

instance : DecidablePred Call.Keeps
  | .allocate _ => .isTrue trivial
  | .deallocate _ => .isTrue trivial
  | .freeEmpty => .isFalse id
  | .freeAll => .isFalse id

namespace Filled

variable {c c' : Cache} {s : Slab} {ptr : Nat}

/-- Neither a partial nor a free slab: then all slabs are full. -/
theorem grows_iff (h : Filled c) (h0 : 0 < c.count) :
    Pool.Grows c ↔ ∀ s ∈ c.slabs, s.availible=[] := by
  constructor
  · rintro ⟨hp,hf⟩ s hs
    obtain ⟨x,hx⟩ := Cache.mem_slabs.mp hs
    cases x with
    | slabsFree => simp [Cache.store,hf] at hx
    | slabsPart => simp [Cache.store,hp] at hx
    | slabsFull => exact h.levels .slabsFull s hx
  · intro hall
    have hnone : ∀ x, x ≠ .slabsFull → c.store x=[] := by
      intro x hx
      apply List.eq_nil_iff_forall_not_mem.mpr
      intro s hs
      have hl := h.levels x s hs
      rw [hall s (Cache.mem_slabs.mpr ⟨x,hs⟩)] at hl
      cases x with
      | slabsFree =>
        have hlen : 0=c.count := hl
        omega
      | slabsPart => exact absurd hl.1 (by simp)
      | slabsFull => exact hx rfl
    exact ⟨hnone .slabsPart (by decide),hnone .slabsFree (by decide)⟩

/-- In blocks: the cache grows when as many are out as the slabs have. -/
theorem grows_iff_mySize (h : Filled c) (h0 : 0 < c.count) :
    Pool.Grows c ↔ c.mySize=c.count*c.slabs.length := by
  have hsize := h.size
  have hsum : (c.slabs.map fun s => s.availible.length).sum=0 ↔ ∀ s ∈ c.slabs, s.availible=[] := by
    simp [List.sum_eq_zero_iff]
  rw [h.grows_iff h0,← hsum]
  omega

end Filled

theorem length_slabs_of_moves {c c' : Cache} {x y : Store} {s s' : Slab}
    (h : Cache.Moves c c' x y s s') : c'.slabs.length=c.slabs.length := by
  obtain ⟨rest,hp,hp',_⟩ := h.others
  rw [hp.length_eq,hp'.length_eq,List.length_cons,List.length_cons]

theorem length_slabs_grown (vecMap : VecMap) (c : Cache) (mem : Nat) :
    (grown vecMap c mem).slabs.length=c.slabs.length+if Pool.Grows c then 1 else 0 := by
  unfold grown
  split_ifs
  · exact (slabs_newSlab vecMap c mem).length_eq
  · rfl

namespace Pool

variable {blockSize count : Nat}

/-- The largest `mySize` of a run. -/
def peak (h : List (Pool × Call)) (p : Pool) : Nat :=
  ((Machine.visited h p).map fun t => t.cache.mySize).foldr max 0

theorem peak_cons (h : List (Pool × Call)) (p p' : Pool) (c : Call) :
    peak ((p,c) :: h) p'=max p'.cache.mySize (peak h p) := by
  simp [peak,Machine.visited_cons]

theorem mySize_le_peak (h : List (Pool × Call)) (p : Pool) : p.cache.mySize ≤ peak h p := by
  rw [peak,Machine.visited,List.map_cons,List.foldr_cons]
  exact le_max_left _ _

/-- The slabs hold the peak, and one slab less would not. -/
structure Tight (count peak : Nat) (p : Pool) : Prop where
  filled : Filled p.cache
  count_eq : p.cache.count=count
  indices : p.vecMap.lookup count=some (indices count)
  pos : 0 < p.cache.slabs.length
  enough : peak ≤ count*p.cache.slabs.length
  needed : p.cache.slabs.length=1 ∨ count*(p.cache.slabs.length-1) < peak

namespace Tight

variable {n : Nat} {p : Pool}

theorem start (hp : (machine blockSize count).start p) : Tight count (peak [] p) p := by
  obtain ⟨counts,mem,rfl⟩ := hp
  have hl := ((built_foldl counts).addToMap count).2
  have hslabs : (Cache.make (addToMap (counts.foldl addToMap []) count) mem blockSize count).slabs=
      [Slab.make (addToMap (counts.foldl addToMap []) count) mem blockSize count] := by
    simp [Cache.slabs,Cache.make,Cache.newSlab]
  refine ⟨(Filled.empty blockSize count).newSlab hl,rfl,hl,?_,?_,.inl ?_⟩
  · simp [hslabs]
  · simp [peak,Machine.visited,Cache.make,Cache.newSlab]
  · simp [hslabs]

/-- A block handed out: a new slab only where the old ones hold no more than the peak so far. -/
theorem allocate (h : Tight count n p) (hmin : 2 ≤ count) (hn : p.cache.mySize ≤ n) {mem : Nat}
    {c : Cache} {ptr : Nat} (ha : p.cache.allocate p.vecMap mem=some (c,ptr)) :
    Tight count (max c.mySize n) ⟨p.vecMap,c,ptr :: p.live⟩ ∧
      c.slabs.length=p.cache.slabs.length+if Grows p.cache then 1 else 0 := by
  have hc := h.count_eq
  have hl : p.vecMap.lookup p.cache.count=some (Allocators.indices p.cache.count) := by
    rw [hc]
    exact h.indices
  obtain ⟨c',s,availible,idx,_,ha',_,_,ht⟩ := h.filled.allocate p.vecMap mem (by omega) hl
  obtain ⟨rfl,_⟩ := Prod.mk.inj (Option.some.inj (ha.symm.trans ha'))
  obtain ⟨x,hv⟩ := ht.moves
  have hlen := (length_slabs_of_moves hv).trans (length_slabs_grown p.vecMap p.cache mem)
  have hsize : c.mySize=p.cache.mySize+1 := by
    rw [ht.mySize,grown]
    split_ifs <;> rfl
  have hcount : c.count=count := by
    rw [hv.count,grown]
    split_ifs <;> exact hc
  have hpos := h.pos
  have henough := h.enough
  have hneeded := h.needed
  have hle := h.filled.mySize_le
  have hgrows := h.filled.grows_iff_mySize (by omega)
  rw [hc] at hle hgrows
  refine ⟨⟨(h.filled.grown hl).taken ht,hcount,h.indices,?_,?_,?_⟩,hlen⟩
  · rw [hlen]
    omega
  · rw [hlen,hsize]
    split_ifs with hg
    · rw [Nat.mul_add,Nat.mul_one]
      omega
    · have hlt : p.cache.mySize ≠ count*p.cache.slabs.length := fun he => hg (hgrows.mpr he)
      simp only [Nat.add_zero]
      omega
  · rw [hlen,hsize]
    split_ifs with hg
    · have he := hgrows.mp hg
      rw [Nat.add_sub_cancel]
      omega
    · simp only [Nat.add_zero]
      omega

theorem deallocate (h : Tight count n p) (hmin : 2 ≤ count) (hn : p.cache.mySize ≤ n) {ptr : Nat}
    {c : Cache} (hd : p.cache.deallocate ptr=some c) :
    Tight count (max c.mySize n) ⟨p.vecMap,c,p.live.erase ptr⟩ := by
  have hc := h.count_eq
  obtain ⟨s,_,_,_,hg⟩ := given_of_deallocate h.filled (by omega) hd
  obtain ⟨x,hv⟩ := hg.moves
  have hlen := length_slabs_of_moves hv
  have hsize := hg.mySize
  have hmax : max c.mySize n=n := max_eq_right (by omega)
  rw [hmax]
  exact ⟨h.filled.given hg,hv.count.trans hc,h.indices,hlen ▸ h.pos,hlen ▸ h.enough,
    hlen ▸ h.needed⟩

/-- The number of slabs, from the bounds. -/
theorem length_eq (h : Tight count n p) (h0 : 0 < count) :
    p.cache.slabs.length=max 1 (n ⌈/⌉ count) := by
  have hpos := h.pos
  have hceil : n ⌈/⌉ count ≤ p.cache.slabs.length := by
    rw [ceilDiv_le_iff_le_mul h0]
    exact h.enough
  rcases h.needed with h1 | hlt
  · omega
  · have hge : ¬ n ⌈/⌉ count ≤ p.cache.slabs.length-1 := by
      rw [ceilDiv_le_iff_le_mul h0]
      omega
    omega

end Tight

theorem tight_run (hmin : 2 ≤ count) {h : List (Pool × Call)} {p : Pool}
    (r : (machine blockSize count).Run h p) (hk : ∀ e ∈ h, e.2.Keeps) :
    Tight count (peak h p) p := by
  induction r with
  | start h0 => exact Tight.start h0
  | @step h p p' c r hn ih =>
    have ht := ih fun e he => hk e (List.mem_cons_of_mem _ he)
    have hle := mySize_le_peak h p
    have hkeep : c.Keeps := hk (p,c) List.mem_cons_self
    change serve p c=some p' at hn
    rw [peak_cons]
    cases c with
    | allocate mem =>
      simp only [serve] at hn
      split_ifs at hn
      obtain ⟨⟨c,ptr⟩,ha,rfl⟩ := Option.map_eq_some_iff.mp hn
      exact (ht.allocate hmin hle ha).1
    | deallocate ptr =>
      simp only [serve] at hn
      split_ifs at hn
      obtain ⟨c,hd,rfl⟩ := Option.map_eq_some_iff.mp hn
      exact ht.deallocate hmin hle hd
    | freeEmpty => exact absurd hkeep id
    | freeAll => exact absurd hkeep id

/-- In every run that releases no slab there are as many slabs as the peak needs, and the next
`allocate` adds one exactly if all are full. -/
theorem slabs_eq_peak (hmin : 2 ≤ count) {h : List (Pool × Call)} {p : Pool}
    (r : (machine blockSize count).Run h p) (hk : ∀ e ∈ h, e.2.Keeps) :
    p.cache.slabs.length=max 1 (peak h p ⌈/⌉ count) ∧
      ∀ mem c ptr, p.cache.allocate p.vecMap mem=some (c,ptr) →
        (c.slabs.length=p.cache.slabs.length+1 ↔ ∀ s ∈ p.cache.slabs, s.availible=[]) := by
  have ht := tight_run hmin r hk
  have hc := ht.count_eq
  refine ⟨ht.length_eq (by omega),?_⟩
  intro mem c ptr ha
  obtain ⟨_,hlen⟩ := ht.allocate hmin (mySize_le_peak h p) ha
  rw [← ht.filled.grows_iff (by omega),hlen]
  split_ifs with hg
  · simp [hg]
  · simp [hg]

/-- Slabs of two blocks: three are out at the peak, and one of them comes back. -/
theorem slabs_eq_peak_two_slabs : ∃ (h : List (Pool × Call)) (p : Pool),
    (p.live=[200,100] ∧ p.cache.slabs.length=2) ∧
      p.cache.slabs.length=max 1 (peak h p ⌈/⌉ 2) := by
  let M := (machine 8 2).restrict fun _ c => c.Keeps
  obtain ⟨p,⟨h,r⟩,hp⟩ := Machine.reachable_of_runFrom M
    ⟨addToMap [] 2,Cache.make (addToMap [] 2) 100 8 2,[]⟩
    [.allocate 0,.allocate 0,.allocate 200,.deallocate 108]
    (fun p => p.live=[200,100] ∧ p.cache.slabs.length=2) ⟨[],100,rfl⟩ (by decide)
  obtain ⟨hr,hg⟩ := r.of_restrict
  exact ⟨h,p,hp,(slabs_eq_peak (by decide) hr hg).1⟩

end Pool

end Allocators.SlabImpl
