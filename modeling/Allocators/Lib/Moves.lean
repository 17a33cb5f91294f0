import Allocators.Lib.Vector

/-! Objects in the slots of a growable array, and what moving them does to each slot. -/

namespace Lib

/-- The moves of a type. `construct x` and `assign y x` are the object that takes the value of `x`
and what `x` is then; `self x` is what `x` is when it is assigned to itself. -/
structure Moves (α : Type*) where
  construct : α → α × α
  assign : α → α → α × α
  self : α → α
  construct_fst : ∀ x, (construct x).1=x
  assign_fst : ∀ y x, (assign y x).1=x

namespace Moves

open Lib.Vector

variable {α : Type*}

/-- A move that is a copy. -/
def copy (α : Type*) : Moves α where
  construct x := (x,x)
  assign _ x := (x,x)
  self x := x
  construct_fst _ := rfl
  assign_fst _ _ := rfl

variable (M : Moves α)

/-- `v[i] = std::move(v[j])`. -/
def assignSlot (v : List α) (i j : Nat) : Option (List α) :=
  match v[i]?,v[j]? with
  | some y,some x =>
    if i=j then some (v.set i (M.self x))
    else
      let (y,x) := M.assign y x
      some ((v.set i y).set j x)
  | _,_ => none

/-- `std::swap(v[i], v[j])`, and the temporary at its end. -/
def swap (v : List α) (i j : Nat) : Option (List α × α) := do
  let (tmp,x) := M.construct (← v[i]?)
  let v ← M.assignSlot (v.set i x) i j
  let (y,tmp) := M.assign (← v[j]?) tmp
  some (v.set j y,tmp)

/-- Each element behind `x` is moved to the place before it; the last place is left. -/
def closeGap : α → List α → List α × α
  | x,[] => ([],x)
  | x,y :: v =>
    let (x,y) := M.assign x y
    let (v,last) := closeGap y v
    (x :: v,last)

/-- `v.erase(v.begin()+i)`, and the object it destroys. -/
def erase (v : List α) (i : Nat) : Option (List α × α) := do
  let (hi,last) := M.closeGap (← v[i]?) (v.drop (i+1))
  some (v.take i ++ hi,last)

/-- `v.pop_back()`, and the object it destroys. -/
def popBack (v : List α) : Option (List α × α) := v.getLast?.map fun back => (v.dropLast,back)

/-- `v.emplace_back(std::move(x))`: the vector, `x`, and the objects destroyed when the vector
`grows` into new storage. -/
def emplaceBack (grows : Bool) (v : List α) (x : α) : List α × α × List α :=
  let (y,x) := M.construct x
  if grows then (v.map (fun z => (M.construct z).1) ++ [y],x,v.map fun z => (M.construct z).2)
  else (v ++ [y],x,[])

section Spec

variable {v : List α} {i j : Nat} {x y : α}

/-- A swap is one of values, also of a slot with itself: what the three moves leave in the slots
between them is gone at the end. -/
theorem swap_eq (hx : v[i]?=some x) (hy : v[j]?=some y) :
    ∃ z, M.swap v i j=some ((v.set i y).set j x,(M.assign z x).2) := by
  obtain ⟨hi,rfl⟩ := List.getElem?_eq_some_iff.mp hx
  by_cases hij : i=j
  · subst hij
    obtain rfl : v[i]=y := Option.some.inj (hx.symm.trans hy)
    refine ⟨M.self (M.construct v[i]).2,?_⟩
    simp [swap,assignSlot,hi,construct_fst,assign_fst]
  · obtain ⟨hj,rfl⟩ := List.getElem?_eq_some_iff.mp hy
    refine ⟨(M.assign (M.construct v[i]).2 v[j]).2,?_⟩
    simp [swap,assignSlot,hi,hj,hij,construct_fst,assign_fst]

theorem closeGap_fst (x : α) (v : List α) : (M.closeGap x v).1=v := by
  induction v generalizing x with
  | nil => rfl
  | cons y v ih => simp [closeGap,assign_fst,ih]

theorem erase_eq (hx : v[i]?=some x) : ∃ last, M.erase v i=some (v.eraseIdx i,last) := by
  refine ⟨(M.closeGap x (v.drop (i+1))).2,?_⟩
  rw [erase,hx,List.eraseIdx_eq_take_drop_succ,Option.bind_eq_bind,Option.bind_some]
  simp only [closeGap_fst]

/-- `std::swap(v[i], v.back())` and `v.pop_back()` destroy what was at `i`. -/
theorem swap_popBack (hx : v[i]?=some x) : ∃ v' z, M.swap v i (v.length-1)=
    some (v',(M.assign z x).2) ∧ popBack v'=some (swapPop v i,x) := by
  obtain ⟨back,hback⟩ : ∃ back, v.getLast?=some back := by
    cases hl : v.getLast? with
    | none => simp [List.getLast?_eq_none_iff.mp hl] at hx
    | some back => exact ⟨back,rfl⟩
  obtain ⟨z,hz⟩ := M.swap_eq hx (List.getLast?_eq_getElem? ▸ hback)
  have hsb : (v.set i back).set (v.length-1) x=swapBack v i := by
    simp only [swapBack,hx,hback]
  refine ⟨swapBack v i,z,hsb ▸ hz,?_⟩
  rw [popBack,getLast?_swapBack hx,dropLast_swapBack hx,Option.map_some]

theorem emplaceBack_eq (grows : Bool) : M.emplaceBack grows v x=
    (v ++ [x],(M.construct x).2,if grows then v.map fun z => (M.construct z).2 else []) := by
  cases grows with
  | false => simp [emplaceBack,construct_fst]
  | true => simp [emplaceBack,construct_fst]

end Spec

end Moves

end Lib
