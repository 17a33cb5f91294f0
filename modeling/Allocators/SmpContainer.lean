import Mathlib.Data.List.Basic

/-! `SmpMap` over a vector of pairs; each function is what happens while it holds the lock. -/

namespace Allocators.SmpMap

variable {κ ν α σ : Type}

/-- `emplace`, which appends without a look at the keys. -/
def emplace (cont : List (κ × ν)) (k : κ) (v : ν) : List (κ × ν) := cont ++ [(k,v)]

/-- `find` by a linear search; the length is the end iterator. -/
def find [DecidableEq κ] (cont : List (κ × ν)) (k : κ) : Nat :=
  cont.findIdx fun v => decide (v.1=k)

def findDo [DecidableEq κ] (cont : List (κ × ν)) (k : κ) (func : Nat → List (κ × ν) → α) : α :=
  func (find cont k) cont

/-- `iterate`; the function may change what it is given and stops the loop with `true`. -/
def iterate (func : σ → α → Option (σ × α × Bool)) : σ → List α → Option (σ × List α)
  | s,[] => some (s,[])
  | s,it :: cont =>
    match func s it with
    | none => none
    | some (s,it,true) => some (s,it :: cont)
    | some (s,it,false) =>
      match iterate func s cont with
      | none => none
      | some (s,cont) => some (s,it :: cont)

variable [DecidableEq κ] {lo hi cont : List (κ × ν)} {k : κ} {v : ν}

theorem find_end (h : ∀ e ∈ cont, e.1 ≠ k) : find cont k=cont.length := by
  rw [find,List.findIdx_eq_length_of_false]
  intro e he
  simpa using h e he

theorem find_mid (h : ∀ e ∈ lo, e.1 ≠ k) : find (lo ++ (k,v) :: hi) k=lo.length := by
  have hlo : lo.findIdx (fun v => decide (v.1=k))=lo.length := find_end h
  rw [find,List.findIdx_append,hlo,if_neg (by omega),List.findIdx_cons]
  simp

/-- Elements the function neither changes nor stops at are passed over. -/
theorem iterate_append {α : Type} {func : σ → α → Option (σ × α × Bool)} {s : σ} {lo hi : List α}
    (h : ∀ it ∈ lo, func s it=some (s,it,false)) :
    iterate func s (lo ++ hi)=(iterate func s hi).map fun r => (r.1,lo ++ r.2) := by
  induction lo with
  | nil => simp
  | cons it lo ih =>
    rw [List.cons_append,iterate,h it List.mem_cons_self]
    simp only
    rw [ih fun x hx => h x (List.mem_cons_of_mem _ hx)]
    cases iterate func s hi with
    | none => rfl
    | some r => rfl

/-- The loop stops where the function says so. -/
theorem iterate_stop {α : Type} {func : σ → α → Option (σ × α × Bool)} {s s' : σ}
    {it it' : α} {hi : List α} (h : func s it=some (s',it',true)) :
    iterate func s (it :: hi)=some (s',it' :: hi) := by
  rw [iterate,h]

theorem find_lt (h : k ∈ cont.map Prod.fst) : find cont k < cont.length := by
  obtain ⟨e,he,rfl⟩ := List.mem_map.mp h
  exact List.findIdx_lt_length.mpr ⟨e,he,decide_eq_true rfl⟩

/-- What the search ends at has the key. -/
theorem find_key {e : κ × ν} (h : cont[find cont k]?=some e) : e.1=k := by
  obtain ⟨hlt,rfl⟩ := List.getElem?_eq_some_iff.mp h
  exact of_decide_eq_true (List.findIdx_getElem (w := hlt))

/-- The search looks at the keys only. -/
theorem find_congr {cont' : List (κ × ν)} (h : cont.map Prod.fst=cont'.map Prod.fst) (k : κ) :
    find cont k=find cont' k := by
  have hkeys : ∀ c : List (κ × ν), find c k=(c.map Prod.fst).findIdx fun x => decide (x=k) :=
    fun c => by rw [List.findIdx_map]; rfl
  rw [hkeys,hkeys,h]

omit [DecidableEq κ] in
/-- What the function keeps of an element, the loop keeps of all. -/
theorem iterate_forall {α : Type} {func : σ → α → Option (σ × α × Bool)} {s s' : σ}
    {cont cont' : List α} {P : α → Prop}
    (hf : ∀ s it s' it' stop, P it → func s it=some (s',it',stop) → P it')
    (h : ∀ it ∈ cont, P it) (hi : iterate func s cont=some (s',cont')) : ∀ it ∈ cont', P it := by
  induction cont generalizing s cont' with
  | nil =>
    simp only [iterate,Option.some.injEq,Prod.mk.injEq] at hi
    exact hi.2 ▸ h
  | cons it cont ih =>
    obtain ⟨hit,hcont⟩ := List.forall_mem_cons.mp h
    rw [iterate] at hi
    cases hs : func s it with
    | none => simp [hs] at hi
    | some x =>
      obtain ⟨s₁,it₁,stop⟩ := x
      have h1 := hf s it s₁ it₁ stop hit hs
      cases stop with
      | true =>
        simp only [hs,Option.some.injEq,Prod.mk.injEq] at hi
        exact hi.2 ▸ List.forall_mem_cons.mpr ⟨h1,hcont⟩
      | false =>
        simp only [hs] at hi
        cases hr : iterate func s₁ cont with
        | none => simp [hr] at hi
        | some y =>
          obtain ⟨s₂,cont₂⟩ := y
          simp only [hr,Option.some.injEq,Prod.mk.injEq] at hi
          obtain ⟨rfl,rfl⟩ := hi
          exact List.forall_mem_cons.mpr ⟨h1,ih hcont hr⟩

end Allocators.SmpMap
