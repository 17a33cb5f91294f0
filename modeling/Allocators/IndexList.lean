import Mathlib
import Allocators.AllocHelpers

/-! The index lists of a new slab, the same in `SlabImpl` and `ImplSlabMulti`. -/

namespace Allocators

/-- `MAX_SLAB_BLOCKS`. -/
def maxSlabBlocks : Nat := 65535

/-- The value an `IndexSizeT` keeps of a number. -/
def toIndexSizeT (n : Nat) : Nat := n%2^findSizeT maxSlabBlocks 0

/-- `std::iota` from the back: the indices of `count` blocks, the first one last. -/
def indices (count : Nat) : List Nat := (List.range count).reverse.map toIndexSizeT

theorem toIndexSizeT_of_lt {n : Nat} (h : n < 2^16) : toIndexSizeT n=n := Nat.mod_eq_of_lt h

theorem toIndexSizeT_le (n : Nat) : toIndexSizeT n ≤ n := Nat.mod_le _ _

@[simp] theorem length_indices (count : Nat) : (indices count).length=count := by
  simp [indices]

theorem lt_of_mem_indices {count i : Nat} (h : i ∈ indices count) : i < count := by
  obtain ⟨j,hj,rfl⟩ := List.mem_map.mp h
  have hlt : j < count := by simpa using hj
  exact lt_of_le_of_lt (toIndexSizeT_le j) hlt

theorem toIndexSizeT_lt (n : Nat) : toIndexSizeT n < 2^16 := Nat.mod_lt n (Nat.two_pow_pos 16)

/-- The list names every block exactly once while the numbers fit into the index type. -/
theorem indices_perm_iff {count : Nat} : (List.range count).Perm (indices count) ↔ count ≤ 2^16 := by
  constructor
  · intro hp
    by_contra hlt
    have hm : 2^16 ∈ indices count := hp.mem_iff.mp (List.mem_range.mpr (by omega))
    obtain ⟨j,_,hj⟩ := List.mem_map.mp hm
    exact absurd hj (toIndexSizeT_lt j).ne
  · intro h
    have hid : (List.range count).reverse.map toIndexSizeT=(List.range count).reverse := by
      rw [List.map_congr_left (g := id),List.map_id]
      intro i hi
      have hlt : i < count := by simpa using hi
      exact toIndexSizeT_of_lt (by omega)
    rw [indices,hid]
    exact (List.reverse_perm _).symm

/-- The index type is wide enough for the documented maximum. -/
theorem indices_perm {count : Nat} (h : count ≤ maxSlabBlocks) :
    (List.range count).Perm (indices count) :=
  indices_perm_iff.mpr (h.trans (by decide))

end Allocators
