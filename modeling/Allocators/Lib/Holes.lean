import Allocators.Lib.Extent

/-! Where something of a given length fits between ranges. -/

namespace Lib.Extent

variable {m n i : Nat} {l l' : List Extent} {e : Extent}

/-- `n` bytes from `i` on lie in the first `m` and in none of the ranges. -/
def Hole (m : Nat) (l : List Extent) (n i : Nat) : Prop := i+n ≤ m ∧ ∀ e ∈ l, Apart (i,n) e

instance (m : Nat) (l : List Extent) (n i : Nat) : Decidable (Hole m l n i) :=
  inferInstanceAs (Decidable (_ ∧ _))

/-- The lowest place for `n` bytes. -/
def lowest (m : Nat) (l : List Extent) (n : Nat) : Option Nat :=
  (List.range (m+1)).find? fun i => decide (Hole m l n i)

theorem lowest_eq_none_iff : lowest m l n=none ↔ ∀ i, ¬ Hole m l n i := by
  simp only [lowest,List.find?_eq_none,List.mem_range,decide_eq_true_eq]
  constructor
  · intro h i hi
    have := hi.1
    exact h i (by omega) hi
  · exact fun h i _ => h i

theorem lowest_eq_some_iff : lowest m l n=some i ↔ Hole m l n i ∧ ∀ j < i, ¬ Hole m l n j := by
  simp only [lowest,List.find?_range_eq_some,List.mem_range,decide_eq_true_eq,Bool.not_eq_true',
    decide_eq_false_iff_not]
  constructor
  · exact fun h => ⟨h.1,h.2.2⟩
  · rintro ⟨h,hlow⟩
    have := h.1
    exact ⟨h,by omega,hlow⟩

theorem Hole.not_covers (h : Hole m l n i) {b : Nat} (hb : b ∈ bytes (i,n)) : ¬ Covers l b := by
  rintro ⟨e,he,heb⟩
  exact Set.disjoint_left.mp (h.2 e he) hb heb

/-- A maximal run with the first byte of a hole has all of it. -/
theorem MaximalRun.holds (hr : MaximalRun m l e) (h : Hole m l n i) (hi : i ∈ e.bytes) :
    e.1 ≤ i ∧ i+n ≤ e.1+e.2 := by
  have hm := h.1
  simp only [mem_bytes] at hi
  refine ⟨hi.1,?_⟩
  by_contra hlt
  refine h.not_covers (b := e.1+e.2) ?_ (hr.right (by omega))
  simp only [mem_bytes]
  omega

end Lib.Extent
