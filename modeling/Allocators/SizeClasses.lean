import Allocators.SlabMem.Routing
import Allocators.SlabMulti.Routing
import Allocators.SlabMulti.Sizes

/-! What `allocate` gives for the number of bytes it was asked for, in `SlabMem` and `SlabMulti`. -/

namespace Allocators

namespace SlabMem.Interface

variable {i j : Interface} {sizeofT count mem ptr : Nat}

/-- `allocate` took the block at `ptr` from its target: it is one of the `n` bytes of a bucket, or
`operator new(n)` returned it. -/
def Took (i j : Interface) (sizeofT count mem ptr n : Nat) : Prop :=
  match i.allocateTarget sizeofT count with
  | .bucket idx => ∃ it it', i.buckets[idx]?=some it ∧ it.allocate i.vecMap mem=some (it',ptr) ∧
      j.buckets=i.buckets.set idx it' ∧ n=it.blockSize
  | .heap bytes => j=i ∧ ptr=mem ∧ n=bytes

/-- The block has room for the bytes that were looked for. -/
theorem took_of_allocate (hs : ∀ c ∈ i.buckets, c.blockSize < 2^64)
    (h : i.allocate sizeofT count mem=some (j,ptr)) :
    ∃ n, i.Took j sizeofT count mem ptr n ∧ toSizeT (count*sizeofT) ≤ n ∧ n < 2^64 := by
  obtain ⟨⟨buckets,p⟩,ha,hj⟩ := Option.map_eq_some_iff.mp h
  obtain ⟨rfl,rfl⟩ := Prod.mk.inj hj
  rcases i.bucketFor_cases (toSizeT (count*sizeofT)) with
    ⟨hb,hsmall⟩ | ⟨lo,it,hi,hbs,hlo,hit,hb⟩
  · rw [allocateIn_none _ _ hsmall] at ha
    obtain ⟨rfl,rfl⟩ := Prod.mk.inj (Option.some.inj ha)
    refine ⟨toSizeT (count*sizeofT),?_,le_rfl,Nat.mod_lt _ (by decide)⟩
    simp only [Took,allocateTarget,hb]
    exact ⟨trivial,trivial,trivial⟩
  · rw [hbs,allocateIn_mid _ _ hlo hit] at ha
    obtain ⟨⟨it',q⟩,hc,hq⟩ := Option.map_eq_some_iff.mp ha
    obtain ⟨rfl,rfl⟩ := Prod.mk.inj hq
    refine ⟨it.blockSize,?_,hit,hs it (by simp [hbs])⟩
    simp only [Took,allocateTarget,hb,hbs,Lib.Vector.getElem?_mid]
    exact ⟨it,it',rfl,hc,(Lib.Vector.set_mid ..).symm,rfl⟩

end SlabMem.Interface

/-- Whatever a call that returns was asked for, its block is large enough exactly if the number of
bytes does not wrap around. -/
theorem allocates_enough_iff (sizeofT count : Nat) :
    (∀ (i j : SlabMem.Interface) (mem ptr : Nat), (∀ c ∈ i.buckets, c.blockSize < 2^64) →
      i.allocate sizeofT count mem=some (j,ptr) →
      ∃ n, i.Took j sizeofT count mem ptr n ∧
        (sizeofT*count ≤ n ↔ sizeofT*count < 2^64)) ∧
    ∀ (T : Type) [DecidableEq T] (s s' : SlabMulti.Interface T) (id : T) (answers : List Nat)
      (ptr : Nat), (SlabMulti.Interface.machine T).Reachable s →
      (s.supply answers).allocate id sizeofT count=some (s',some ptr) →
      ∃ n, s'.Took id (toSizeT (sizeofT*count)) ptr n ∧
        (sizeofT*count ≤ n ↔ sizeofT*count < 2^64) := by
  constructor
  · intro i j mem ptr hs h
    obtain ⟨n,ht,hle,hlt⟩ := SlabMem.Interface.took_of_allocate hs h
    rw [Nat.mul_comm] at hle
    exact ⟨n,ht,le_iff_of_toSizeT_le hle hlt⟩
  · intro T _ s s' id answers ptr hr h
    have hs : (s.supply answers).Sized := fun x hx =>
      SlabMulti.Interface.reachable_sized hr x hx
    obtain ⟨n,ht,hle,hlt⟩ := SlabMulti.Interface.took_of_allocate hs h
    exact ⟨n,ht,le_iff_of_toSizeT_le hle hlt⟩

section Calls

open SlabMulti Routing

/-- A cache with blocks of 64 bytes. -/
theorem served_cache (sizeofT count : Nat)
    (h : ((SlabMem.Interface.addCache 4096 ⟨[],[]⟩ 64 64 65536).bind fun i =>
      i.allocate sizeofT count 0).isSome=true) :
    ∃ (i j : SlabMem.Interface) (ptr : Nat), i.allocate sizeofT count 0=some (j,ptr) ∧
      ∀ c ∈ i.buckets, c.blockSize < 2^64 := by
  obtain ⟨i,hi⟩ : ∃ i, SlabMem.Interface.addCache 4096 ⟨[],[]⟩ 64 64 65536=some i := ⟨_,rfl⟩
  rw [hi,Option.bind_some] at h
  obtain ⟨⟨j,ptr⟩,hj⟩ := Option.isSome_iff_exists.mp h
  exact ⟨i,j,ptr,hj,by cases hi; decide⟩

/-- The first call of a thread. -/
theorem served_first (sizeofT count : Nat)
    (h : ((first.interface.supply []).allocate 0 sizeofT count).any (fun r => r.2.isSome)=true) :
    (SlabMulti.Interface.machine Nat).Reachable first.interface ∧
      ∃ s' ptr, (first.interface.supply []).allocate 0 sizeofT count=some (s',some ptr) := by
  refine ⟨⟨[],.start ⟨_,_,Prod.ext rfl (by decide +kernel),rfl⟩⟩,?_⟩
  obtain ⟨⟨s',mem⟩,ha,hm⟩ := (Option.any_eq_true _ _).mp h
  obtain ⟨ptr,rfl⟩ := Option.isSome_iff_exists.mp hm
  exact ⟨s',ptr,ha⟩

/-- Two words from a cache with blocks of 64 bytes, and from the size class of 64 bytes. -/
theorem allocates_enough_iff_two_words :
    (∃ (i j : SlabMem.Interface) (ptr n : Nat), i.allocate 8 2 0=some (j,ptr) ∧
      i.Took j 8 2 0 ptr n ∧ 8*2 ≤ n) ∧
    ∃ (s s' : SlabMulti.Interface Nat) (ptr n : Nat),
      (SlabMulti.Interface.machine Nat).Reachable s ∧
      (s.supply []).allocate 0 8 2=some (s',some ptr) ∧ s'.Took 0 16 ptr n ∧ 8*2 ≤ n := by
  obtain ⟨i,j,ptr,hj,hs⟩ := served_cache 8 2 (by decide)
  obtain ⟨n,ht,hn⟩ := (allocates_enough_iff 8 2).1 i j 0 ptr hs hj
  obtain ⟨hr,s',ptr',hs'⟩ := served_first 8 2 (by decide +kernel)
  obtain ⟨n',ht',hn'⟩ := (allocates_enough_iff 8 2).2 Nat first.interface s' 0 [] ptr' hr hs'
  exact ⟨⟨i,j,ptr,n,hj,ht,hn.mpr (by decide)⟩,_,s',ptr',n',hr,hs',ht',hn'.mpr (by decide)⟩

/-- For `2^62` values of 4 bytes no bytes at all are looked for, and both allocators return a
block. -/
theorem wrapped_product_is_served :
    (∃ (i j : SlabMem.Interface) (ptr n : Nat), (∀ c ∈ i.buckets, c.blockSize < 2^64) ∧
      i.allocate 4 (2^62) 0=some (j,ptr) ∧ i.Took j 4 (2^62) 0 ptr n ∧ n < 4*2^62) ∧
    ∃ (s s' : SlabMulti.Interface Nat) (ptr n : Nat),
      (SlabMulti.Interface.machine Nat).Reachable s ∧
      (s.supply []).allocate 0 4 (2^62)=some (s',some ptr) ∧ s'.Took 0 0 ptr n ∧ n < 4*2^62 := by
  obtain ⟨i,j,ptr,hj,hs⟩ := served_cache 4 (2^62) (by decide)
  obtain ⟨n,ht,_,hn⟩ := SlabMem.Interface.took_of_allocate hs hj
  obtain ⟨hr,s',ptr',hs'⟩ := served_first 4 (2^62) (by decide +kernel)
  have hsized : (first.interface.supply []).Sized := fun x hx =>
    SlabMulti.Interface.reachable_sized hr x hx
  obtain ⟨n',ht',_,hn'⟩ := SlabMulti.Interface.took_of_allocate hsized hs'
  exact ⟨⟨i,j,ptr,n,hs,hj,ht,hn⟩,_,s',ptr',n',hr,hs',ht',hn'⟩

end Calls

end Allocators
