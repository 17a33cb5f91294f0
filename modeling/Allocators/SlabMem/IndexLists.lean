import Allocators.SlabMem.Interface

/-! Up to which number of blocks the index list of a slab names each of them once. -/

namespace Allocators

open Lib Extent

namespace SlabImpl.Slab

variable {s : Slab}

/-- The memory of the next `n` allocations. -/
def allocateAll : Nat → Slab → Option (Slab × List Nat)
  | 0,s => some (s,[])
  | n+1,s =>
    match s.allocate with
    | none => none
    | some (s,ptr,_) => (allocateAll n s).map fun (s,ptrs) => (s,ptr :: ptrs)

/-- A slab serves as many blocks as its index list has, the last one first. -/
theorem allocateAll_eq (s : Slab) : s.allocateAll s.availible.length=
    some ({ s with availible := [] },s.availible.reverse.map s.region.block) := by
  obtain ⟨mem,blockSize,count,availible⟩ := s
  induction availible using List.reverseRecOn with
  | nil => rfl
  | append_singleton availible idx ih =>
    have ha := allocate_concat (s := ⟨mem,blockSize,count,availible ++ [idx]⟩) rfl
    simp only [List.length_append,List.length_singleton,allocateAll,ha,ih]
    simp [region,Region.block]

end SlabImpl.Slab

namespace SlabMem

open SlabImpl

/-- The cache added last has a list with each of the first `count` numbers once, and the slab it
starts with serves as many blocks, side by side in its memory. -/
structure Enumerates (i : Interface) (mem blockSize count : Nat) : Prop where
  listed : ∃ l, i.vecMap.lookup count=some l ∧ (List.range count).Perm l
  served : ∃ c s t ptrs, i.buckets.getLast?=some c ∧ c.slabsFree=[s] ∧
    s.allocateAll count=some (t,ptrs) ∧ ptrs.length=count ∧
    Tiled (ptrs.map fun ptr => (ptr,blockSize)) ∧
    ∀ ptr ∈ ptrs, mem ≤ ptr ∧ ptr+blockSize ≤ mem+blockSize*count

/-- Different blocks of a region lie side by side in it. -/
theorem blocks_tiled (r : Region) {l : List Nat} (hn : l.Nodup) (hl : ∀ i ∈ l, i < r.count) :
    Tiled ((l.map r.block).map fun ptr => (ptr,r.size)) ∧
      ∀ ptr ∈ l.map r.block, r.base ≤ ptr ∧ ptr+r.size ≤ r.base+r.size*r.count := by
  constructor
  · rw [List.map_map,Tiled,List.pairwise_map]
    refine hn.imp fun {i j} hij => apart_iff.mpr ?_
    simp only [Function.comp,Region.block]
    rcases Nat.lt_or_gt_of_ne hij with hlt | hlt
    · have hm : (i+1)*r.size ≤ j*r.size := Nat.mul_le_mul_right _ hlt
      rw [Nat.add_mul,Nat.one_mul] at hm
      omega
    · have hm : (j+1)*r.size ≤ i*r.size := Nat.mul_le_mul_right _ hlt
      rw [Nat.add_mul,Nat.one_mul] at hm
      omega
  · intro ptr hp
    obtain ⟨i,hi,rfl⟩ := List.mem_map.mp hp
    have hm : (i+1)*r.size ≤ r.count*r.size := Nat.mul_le_mul_right _ (hl i hi)
    rw [Nat.add_mul,Nat.one_mul,Nat.mul_comm r.count] at hm
    simp only [Region.block]
    omega

/-- What `addCache` leaves: the list for the new count, and a cache with one fresh slab. -/
theorem addCache_eq (pgSz count mem : Nat) {blockSize : Nat} (h0 : 0 < blockSize) (i : Interface) :
    i.addCache pgSz blockSize count mem=
      some ⟨addToMap i.vecMap (roundedCount pgSz blockSize count),
        i.buckets ++ [Cache.make (addToMap i.vecMap (roundedCount pgSz blockSize count)) mem
          blockSize (roundedCount pgSz blockSize count)]⟩ := by
  rw [Interface.addCache,if_neg (by omega)]

/-- A list built by `iota` names each block once only up to 65536 blocks. -/
theorem Enumerates.narrow {i : Interface} {mem blockSize count : Nat}
    (hl : i.vecMap.lookup count=some (indices count)) (he : Enumerates i mem blockSize count) :
    count ≤ 2^16 := by
  obtain ⟨l,hl',hp⟩ := he.listed
  obtain rfl : l=indices count := Option.some.inj (hl'.symm.trans hl)
  exact indices_perm_iff.mp hp

/-- However large the request, the new cache names each of its blocks once exactly if the rounded
count is at most 65536. -/
theorem enumerates_iff_narrow (pgSz count mem : Nat) {blockSize : Nat} (h0 : 0 < blockSize)
    (counts : List Nat) (buckets : List Cache) :
    ∃ i, Interface.addCache pgSz ⟨counts.foldl addToMap [],buckets⟩ blockSize count mem=some i ∧
      (Enumerates i mem blockSize (roundedCount pgSz blockSize count) ↔
        roundedCount pgSz blockSize count ≤ 2^16) := by
  set n := roundedCount pgSz blockSize count with hn
  have hl := ((built_foldl counts).addToMap n).2
  refine ⟨_,addCache_eq pgSz count mem h0 _,Enumerates.narrow hl,
    fun hle => ⟨⟨_,hl,indices_perm_iff.mpr hle⟩,?_⟩⟩
  · set s := Slab.make (addToMap (counts.foldl addToMap []) n) mem blockSize n with hs
    have hav : s.availible=indices n := by simp [hs,Slab.make,hl]
    have hr : s.region=⟨mem,blockSize,n⟩ := rfl
    have hp := indices_perm_iff.mpr hle
    have hall := s.allocateAll_eq
    rw [hav,length_indices] at hall
    have hnd : (indices n).reverse.Nodup :=
      List.nodup_reverse.mpr (hp.nodup_iff.mp List.nodup_range)
    obtain ⟨ht,hin⟩ := blocks_tiled s.region hnd fun i hi =>
      lt_of_mem_indices (List.mem_reverse.mp hi)
    refine ⟨Cache.make (addToMap (counts.foldl addToMap []) n) mem blockSize n,s,_,_,by simp [← hn],
      by simp [Cache.make,Cache.newSlab,hs],hall,by simp,ht,hin⟩

/-- Blocks of half a page, two of them. -/
theorem enumerates_iff_narrow_half_page :
    ∃ i, Interface.addCache 4096 ⟨[],[]⟩ 2048 1 65536=some i ∧ Enumerates i 65536 2048 2 := by
  obtain ⟨i,hi,he⟩ := enumerates_iff_narrow 4096 1 65536 (show 0 < 2048 by decide) [] []
  exact ⟨i,hi,he.mpr (by decide)⟩

/-- Blocks of one byte on 17 pages: the list of 69632 names 4096 blocks twice. -/
theorem wide_list_repeats :
    ∃ i, Interface.addCache 4096 ⟨[],[]⟩ 1 65537 65536=some i ∧ ¬ Enumerates i 65536 1 69632 := by
  have hn : roundedCount 4096 1 65537=69632 := by decide
  refine ⟨_,addCache_eq 4096 65537 65536 (by decide) _,?_⟩
  intro he
  rw [hn] at he
  exact absurd (he.narrow ((built_foldl []).addToMap 69632).2) (by decide)

end SlabMem

end Allocators
