import Mathlib.Data.List.Nodup
import Mathlib.Data.List.Range
import Mathlib.Data.List.Perm.Basic

/-! Searches that test one position after another, and go round. -/

namespace Lib.Scan

/-- The positions below `n`, from `a` to the end and then those before `a`. -/
def circular (a n : Nat) : List Nat := List.range' a (n-a) ++ List.range a

theorem circular_perm {a n : Nat} (h : a ≤ n) : (circular a n).Perm (List.range n) := by
  obtain ⟨k,rfl⟩ := Nat.exists_eq_add_of_le h
  have hsplit : List.range (a+k)=List.range a ++ List.range' a k := by
    rw [List.range_eq_range',List.range_eq_range',← List.range'_append_1,Nat.zero_add]
  rw [circular,Nat.add_sub_cancel_left,hsplit]
  exact List.perm_append_comm

theorem mem_circular {a n i : Nat} (h : a ≤ n) : i ∈ circular a n ↔ i < n :=
  (circular_perm h).mem_iff.trans List.mem_range

variable {ι : Type*} (p : ι → Bool)

/-- What a search through a list tests: everything up to the first hit. -/
def tested : List ι → List ι
  | [] => []
  | x :: l => if p x then [x] else x :: tested l

theorem tested_prefix (l : List ι) : tested p l <+: l := by
  induction l with
  | nil => exact List.nil_prefix
  | cons x l ih =>
    rw [tested]
    split_ifs with hx
    · exact List.prefix_append [x] l
    · exact List.cons_prefix_cons.mpr ⟨rfl,ih⟩

/-- Where at most one position is a hit, it is the one found. -/
theorem find?_eq_some_iff_of_unique {l : List ι} {x : ι}
    (hu : ∀ x ∈ l, ∀ y ∈ l, p x=true → p y=true → x=y) :
    l.find? p=some x ↔ x ∈ l ∧ p x=true := by
  constructor
  · intro h
    exact ⟨List.mem_of_find?_eq_some h,List.find?_some h⟩
  · rintro ⟨hx,hp⟩
    cases hf : l.find? p with
    | none => exact absurd hp (List.find?_eq_none.mp hf x hx)
    | some y => rw [hu x hx y (List.mem_of_find?_eq_some hf) hp (List.find?_some hf)]

end Lib.Scan
