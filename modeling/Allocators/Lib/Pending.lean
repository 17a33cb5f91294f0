import Mathlib.Data.List.Basic

/-! Writes to a vector that are still to come: what it will be when all are made. Two of them to
different places may be made in either order. -/

namespace Lib.Pending

variable {α β : Type*} {v : List α} {writes lo hi : List (Nat × α)} {i : Nat} {x : α}

/-- The vector when all writes are made, the first one last. -/
def settle (v : List α) (writes : List (Nat × α)) : List α :=
  writes.foldr (fun w v => v.set w.1 w.2) v

@[simp] theorem settle_nil (v : List α) : settle v []=v := rfl

@[simp] theorem settle_cons (v : List α) (w : Nat × α) (writes : List (Nat × α)) :
    settle v (w :: writes)=(settle v writes).set w.1 w.2 := rfl

/-- A place that no write is about. -/
theorem getElem?_settle (h : ∀ w ∈ writes, w.1 ≠ i) : (settle v writes)[i]?=v[i]? := by
  induction writes with
  | nil => rfl
  | cons w writes ih =>
    obtain ⟨hw,hrest⟩ := List.forall_mem_cons.mp h
    rw [settle_cons,List.getElem?_set_ne hw,ih hrest]

theorem settle_set (h : ∀ w ∈ writes, w.1 ≠ i) :
    settle (v.set i x) writes=(settle v writes).set i x := by
  induction writes with
  | nil => rfl
  | cons w writes ih =>
    obtain ⟨hw,hrest⟩ := List.forall_mem_cons.mp h
    rw [settle_cons,settle_cons,ih hrest,List.set_comm _ _ hw.symm]

/-- A write moves past those to other places. -/
theorem settle_mid (h : ∀ w ∈ lo, w.1 ≠ i) :
    settle v (lo ++ (i,x) :: hi)=(settle v (lo ++ hi)).set i x := by
  induction lo with
  | nil => rfl
  | cons w lo ih =>
    obtain ⟨hw,hrest⟩ := List.forall_mem_cons.mp h
    rw [List.cons_append,List.cons_append,settle_cons,settle_cons,ih hrest,
      List.set_comm _ _ hw.symm]

/-- A write of what is there already. -/
theorem settle_same (hx : v[i]?=some x) (h : ∀ w ∈ writes, w.1 ≠ i) :
    settle v ((i,x) :: writes)=settle v writes := by
  obtain ⟨hi,hx⟩ := List.getElem?_eq_some_iff.mp (getElem?_settle h ▸ hx)
  rw [settle_cons,← hx]
  exact List.set_getElem_self hi

/-- What all writes keep of the elements. -/
theorem map_settle {f : α → β} (h : ∀ w ∈ writes, (v.map f)[w.1]?=some (f w.2)) :
    (settle v writes).map f=v.map f := by
  induction writes with
  | nil => rfl
  | cons w writes ih =>
    obtain ⟨hw,hrest⟩ := List.forall_mem_cons.mp h
    obtain ⟨hi,hx⟩ := List.getElem?_eq_some_iff.mp hw
    rw [settle_cons,List.map_set,ih hrest,← hx]
    exact List.set_getElem_self hi

end Lib.Pending
