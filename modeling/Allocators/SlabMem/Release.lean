import Allocators.SlabMem.Interface

/-! Which caches `freeAll` and `freeEmpty` reach. -/

namespace Allocators.SlabMem

open SlabImpl

/-- What is left of a cache after `freeAll`, and after `freeEmpty`. -/
def Freed (all : Bool) (c : Cache) : Prop :=
  if all then c.mySize=0 ∧ c.myCapacity=0 ∧ c.slabs=[] else c.slabsFree=[]

/-- One cache: `freeAll` or `freeEmpty` of `Cache`. -/
def release (all : Bool) (c : Cache) : Cache := if all then c.freeAll else c.freeEmpty

/-- The first cache of the size is released, if there is one, and no other is touched. -/
def ReleasesOne (all : Bool) (cacheSize : Nat) (l l' : List Cache) : Prop :=
  ((∀ c ∈ l, c.blockSize ≠ cacheSize) ∧ l'=l) ∨
    ∃ lo it hi, l=lo ++ it :: hi ∧ (∀ c ∈ lo, c.blockSize ≠ cacheSize) ∧ it.blockSize=cacheSize ∧
      l'=lo ++ release all it :: hi ∧ Freed all (release all it)

/-- The comments on `freeAll` and `freeEmpty`: without a size all caches, else the one of the
size. -/
def Covers (all : Bool) (cacheSize : Nat) (l l' : List Cache) : Prop :=
  if cacheSize=0 then l'.length=l.length ∧ ∀ c ∈ l', Freed all c
  else ReleasesOne all cacheSize l l'

instance (all : Bool) (c : Cache) : Decidable (Freed all c) := by
  unfold Freed
  infer_instance

theorem freed_release (all : Bool) (c : Cache) : Freed all (release all c) := by
  cases all with
  | true => exact ⟨rfl,rfl,rfl⟩
  | false => exact Cache.freeEmpty_slabsFree c

/-- Without a size only the first cache is released. -/
theorem freeIn_wildcard (all : Bool) (l : List Cache) :
    Covers all 0 l (Interface.freeIn all 0 l) ↔ ∀ c ∈ l.tail, Freed all c := by
  unfold Covers
  rw [if_pos rfl]
  cases l with
  | nil => simp [Interface.freeIn]
  | cons it rest =>
    have hstep : Interface.freeIn all 0 (it :: rest)=release all it :: rest := by
      simp [Interface.freeIn,release]
    rw [hstep]
    simp [freed_release]

/-- With a size given the loop does what it should. -/
theorem freeIn_releasesOne (all : Bool) {cacheSize : Nat} (h : cacheSize ≠ 0) (l : List Cache) :
    ReleasesOne all cacheSize l (Interface.freeIn all cacheSize l) := by
  induction l with
  | nil => exact .inl ⟨by simp,rfl⟩
  | cons c l ih =>
    by_cases hc : c.blockSize=cacheSize
    · refine .inr ⟨[],c,l,rfl,by simp,hc,?_,freed_release all c⟩
      simp [Interface.freeIn,release,hc]
    · have hstep : Interface.freeIn all cacheSize (c :: l)=
          c :: Interface.freeIn all cacheSize l := by
        simp [Interface.freeIn,h,hc]
      rw [hstep]
      rcases ih with ⟨hn,he⟩ | ⟨lo,it,hi,he,hlo,hit,hr,hf⟩
      · exact .inl ⟨List.forall_mem_cons.mpr ⟨hc,hn⟩,by rw [he]⟩
      · exact .inr ⟨c :: lo,it,hi,by rw [he]; rfl,List.forall_mem_cons.mpr ⟨hc,hlo⟩,hit,
          by rw [hr]; rfl,hf⟩

/-- The calls do what the comments say exactly if, where no size is given, the caches behind the
first one have nothing to release. -/
theorem freeFunc_covers_iff (i : Interface) (all : Bool) (cacheSize : Nat) :
    Covers all cacheSize i.buckets (Interface.freeFunc all i cacheSize).buckets ↔
      (cacheSize=0 → ∀ c ∈ i.buckets.tail, Freed all c) := by
  change Covers all cacheSize i.buckets (Interface.freeIn all cacheSize i.buckets) ↔ _
  by_cases h : cacheSize=0
  · subst h
    rw [freeIn_wildcard]
    simp
  · have hone := freeIn_releasesOne all h i.buckets
    unfold Covers
    rw [if_neg h]
    constructor
    · intro _ h0
      exact absurd h0 h
    · intro _
      exact hone

/-- Pages of 4096 bytes, caches of two blocks of 2048 and of 4096 bytes, and no other call: the
second cache keeps its slab. -/
theorem second_cache_is_kept :
    ∃ i j, Interface.addCache 4096 ⟨[],[]⟩ 2048 2 65536=some i ∧
      Interface.addCache 4096 i 4096 2 131072=some j ∧
      ¬ Covers true 0 j.buckets (j.freeAll 0).buckets ∧
      ¬ Covers false 0 j.buckets (j.freeEmpty 0).buckets := by
  refine ⟨_,_,rfl,rfl,?_,?_⟩
  · apply (freeIn_wildcard true _).not.mpr
    decide
  · apply (freeIn_wildcard false _).not.mpr
    decide

end Allocators.SlabMem
