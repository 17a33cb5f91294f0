import Mathlib.Data.List.Chain
import Mathlib.Data.List.Nodup
import Mathlib.Data.Set.Defs
import Mathlib.Logic.Function.Basic

/-! Sequences of named elements, and nodes that are linked in both directions. -/

namespace Lib

universe u v

namespace Sequence

variable {κ : Type u} {α : Type v}

def names (s : List (κ × α)) : List κ := s.map Prod.fst

@[simp] theorem names_nil : names ([] : List (κ × α))=[] := rfl

@[simp] theorem names_cons (e : κ × α) (s : List (κ × α)) : names (e :: s)=e.1 :: names s := rfl

@[simp] theorem names_append (s t : List (κ × α)) : names (s ++ t)=names s ++ names t :=
  List.map_append

theorem length_names (s : List (κ × α)) : (names s).length=s.length := List.length_map ..

variable [DecidableEq κ]

/-- `e` before the element named `k`, or at the end if there is none. -/
def insertBefore (k : κ) (e : κ × α) : List (κ × α) → List (κ × α)
  | [] => [e]
  | x :: s => if x.1=k then e :: x :: s else x :: insertBefore k e s

/-- The sequence without its element named `k`. -/
def remove (k : κ) (s : List (κ × α)) : List (κ × α) := s.eraseP fun e => decide (e.1=k)

def lookup (k : κ) (s : List (κ × α)) : Option (κ × α) := s.find? fun e => decide (e.1=k)

variable {k : κ} {lo hi : List (κ × α)}

theorem insertBefore_mid (e : κ × α) (hlo : k ∉ names lo) (hhi : ∀ x ∈ hi.head?, x.1=k) :
    insertBefore k e (lo ++ hi)=lo ++ e :: hi := by
  induction lo with
  | nil =>
    cases hi with
    | nil => rfl
    | cons x hi =>
      have hx : x.1=k := hhi x rfl
      simp [insertBefore,hx]
  | cons x lo ih =>
    rw [names_cons,List.mem_cons,not_or] at hlo
    obtain ⟨hx,hlo⟩ := hlo
    rw [List.cons_append,insertBefore,if_neg (Ne.symm hx),ih hlo,List.cons_append]

theorem remove_mid (v : α) (hlo : k ∉ names lo) : remove k (lo ++ (k,v) :: hi)=lo ++ hi := by
  have hn : ∀ e ∈ lo, ¬ decide (e.1=k)=true := by
    intro e he hk
    exact hlo (List.mem_map.mpr ⟨e,he,of_decide_eq_true hk⟩)
  rw [remove,List.eraseP_append_right _ hn]
  simp

theorem mem_names_remove {k' : κ} {s : List (κ × α)} (h : k' ∈ names s) (hne : k' ≠ k) :
    k' ∈ names (remove k s) := by
  obtain ⟨e,he,rfl⟩ := List.mem_map.mp h
  exact List.mem_map_of_mem ((List.mem_eraseP_of_neg (by simpa using hne)).mpr he)

theorem lookup_mid (v : α) (hlo : k ∉ names lo) : lookup k (lo ++ (k,v) :: hi)=some (k,v) := by
  have hn : lo.find? (fun e => decide (e.1=k))=none := by
    rw [List.find?_eq_none]
    intro e he hk
    exact hlo (List.mem_map.mpr ⟨e,he,of_decide_eq_true hk⟩)
  rw [lookup,List.find?_append,hn,Option.none_or]
  simp

theorem lookup_of_mem {s : List (κ × α)} (h : k ∈ names s) : ∃ v, lookup k s=some (k,v) := by
  cases hf : lookup k s with
  | none =>
    obtain ⟨e,he,rfl⟩ := List.mem_map.mp h
    exact absurd (decide_eq_true rfl) (List.find?_eq_none.mp hf e he)
  | some e =>
    rw [lookup] at hf
    obtain rfl : e.1=k := by simpa using List.find?_some hf
    exact ⟨e.2,rfl⟩

omit [DecidableEq κ] in
/-- The sequence around one of its names. -/
theorem exists_mid {s : List (κ × α)} (h : k ∈ names s) : ∃ lo v hi, s=lo ++ (k,v) :: hi := by
  obtain ⟨e,he,rfl⟩ := List.mem_map.mp h
  obtain ⟨lo,hi,rfl⟩ := List.append_of_mem he
  exact ⟨lo,e.2,hi,rfl⟩

/-- The element named `k` taken to just before the one named `pos`, or to the end if there is none;
before itself it is already. -/
def relocate (pos k : κ) (s : List (κ × α)) : List (κ × α) :=
  if pos=k then s
  else
    match lookup k s with
    | none => s
    | some e => insertBefore pos e (remove k s)

theorem insertBefore_perm (pos : κ) (e : κ × α) (s : List (κ × α)) :
    (insertBefore pos e s).Perm (e :: s) := by
  induction s with
  | nil => exact .refl _
  | cons x s ih =>
    rw [insertBefore]
    split_ifs
    · exact .refl _
    · exact (ih.cons x).trans (.swap e x s)

theorem relocate_perm {pos k : κ} {s : List (κ × α)} (hnd : (names s).Nodup) :
    (relocate pos k s).Perm s := by
  by_cases hk : k ∈ names s
  · obtain ⟨lo,v,hi,rfl⟩ := exists_mid hk
    rw [names_append,names_cons,List.nodup_middle,List.nodup_cons] at hnd
    have hlo : k ∉ names lo := fun h => hnd.1 (List.mem_append_left _ h)
    rw [relocate,lookup_mid v hlo,remove_mid v hlo]
    split_ifs
    · exact .refl _
    · exact (insertBefore_perm pos (k,v) (lo ++ hi)).trans List.perm_middle.symm
  · have hl : lookup k s=none := by
      rw [lookup,List.find?_eq_none]
      intro e he hek
      exact hk (List.mem_map.mpr ⟨e,he,of_decide_eq_true hek⟩)
    rw [relocate,hl]
    split_ifs <;> exact .refl _

/-- Before what comes next it is already, too. -/
theorem relocate_next {pos : κ} (v : α) (hlo : k ∉ names lo) (hpos : pos ∉ names lo)
    (hhi : ∀ x ∈ hi.head?, x.1=pos) : relocate pos k (lo ++ (k,v) :: hi)=lo ++ (k,v) :: hi := by
  rw [relocate,lookup_mid v hlo,remove_mid v hlo]
  split_ifs
  · rfl
  · exact insertBefore_mid (k,v) hpos hhi

end Sequence

namespace Links

variable {κ : Type u} {next prev next' prev' : κ → Option κ} {l lo hi : List κ} {x y z : κ}

/-- Neighbours in the list point at each other. -/
def Linked (next prev : κ → Option κ) (l : List κ) : Prop :=
  l.IsChain fun x y => next x=some y ∧ prev y=some x

theorem linked_mid : Linked next prev (lo ++ x :: y :: hi) ↔
    Linked next prev (lo ++ [x]) ∧ (next x=some y ∧ prev y=some x) ∧
      Linked next prev (y :: hi) :=
  List.isChain_append_cons_cons

theorem Linked.reverse (h : Linked next prev l) : Linked prev next l.reverse := by
  rw [Linked,List.isChain_reverse]
  exact h.imp fun _ _ hxy => ⟨hxy.2,hxy.1⟩

/-- The last `next` and the first `prev` are not looked at. -/
theorem Linked.congr (h : Linked next prev l) (hn : ∀ x ∈ l.dropLast, next' x=next x)
    (hp : ∀ x ∈ l.tail, prev' x=prev x) : Linked next' prev' l := by
  induction l with
  | nil => exact .nil
  | cons x l ih =>
    cases l with
    | nil => exact .singleton x
    | cons y l =>
      obtain ⟨hxy,hl⟩ := List.isChain_cons_cons.mp h
      refine List.isChain_cons_cons.mpr ⟨⟨?_,?_⟩,ih hl ?_ ?_⟩
      · rw [hn x (by simp [List.dropLast])]
        exact hxy.1
      · rw [hp y (by simp)]
        exact hxy.2
      · exact fun a ha => hn a (List.mem_cons_of_mem x ha)
      · exact fun a ha => hp a (List.mem_cons_of_mem y ha)

/-- The nodes met in a number of steps. -/
def follow (step : κ → Option κ) : Nat → κ → Option (List κ)
  | 0,_ => some []
  | n+1,x => (step x).bind fun y => (follow step n y).map fun l => y :: l

/-- Each node met is the step from the one before. -/
theorem follow_isChain {step : κ → Option κ} {n : Nat} (h : follow step n x=some l) :
    (x :: l).IsChain fun a b => step a=some b := by
  induction n generalizing x l with
  | zero =>
    obtain rfl := Option.some.inj h
    exact .singleton x
  | succ n ih =>
    obtain ⟨y,hy,h⟩ := Option.bind_eq_some_iff.mp h
    obtain ⟨l,hl,rfl⟩ := Option.map_eq_some_iff.mp h
    exact List.isChain_cons_cons.mpr ⟨hy,ih hl⟩

/-- A set that no step leaves is not left. -/
theorem follow_subset {step : κ → Option κ} {S : Set κ} (hS : ∀ a ∈ S, ∀ b, step a=some b → b ∈ S)
    {n : Nat} (hx : x ∈ S) (h : follow step n x=some l) : ∀ y ∈ l, y ∈ S := by
  induction n generalizing x l with
  | zero =>
    obtain rfl := Option.some.inj h
    exact fun y hy => absurd hy List.not_mem_nil
  | succ n ih =>
    obtain ⟨y,hy,h⟩ := Option.bind_eq_some_iff.mp h
    obtain ⟨l,hl,rfl⟩ := Option.map_eq_some_iff.mp h
    have hyS := hS x hx y hy
    exact List.forall_mem_cons.mpr ⟨hyS,ih hyS hl⟩

/-- All nodes but the last have their successor in the chain. -/
theorem exists_next {R : κ → κ → Prop} (h : (l ++ [y]).IsChain R) (hx : x ∈ l) :
    ∃ z ∈ l ++ [y], R x z := by
  obtain ⟨lo,hi,rfl⟩ := List.append_of_mem hx
  obtain ⟨z,rest,hz⟩ : ∃ z rest, hi ++ [y]=z :: rest := List.exists_cons_of_ne_nil (by simp)
  rw [List.append_assoc,List.cons_append,hz] at h ⊢
  exact ⟨z,by simp,(List.isChain_append_cons_cons.mp h).2.1⟩

theorem Linked.follow_next (h : Linked next prev (x :: l)) :
    follow next l.length x=some l := by
  induction l generalizing x with
  | nil => rfl
  | cons y l ih =>
    obtain ⟨hxy,hl⟩ := List.isChain_cons_cons.mp h
    rw [List.length_cons,follow,hxy.1,Option.bind_some,ih hl,Option.map_some]

theorem Linked.follow_prev (h : Linked next prev (l ++ [x])) :
    follow prev l.length x=some l.reverse := by
  have hr := h.reverse
  rw [List.reverse_append,List.reverse_singleton,List.singleton_append] at hr
  have hf := hr.follow_next
  rwa [List.length_reverse] at hf

/-- Every node is seen by one of its neighbours. -/
theorem Linked.isSome (h : Linked next prev l) (hl : 2 ≤ l.length) (hx : x ∈ l) :
    (next x).isSome ∨ (prev x).isSome := by
  obtain ⟨lo,hi,rfl⟩ := List.append_of_mem hx
  cases hi with
  | cons y hi =>
    obtain ⟨_,⟨hxy,_⟩,_⟩ := linked_mid.mp h
    exact .inl (by simp [hxy])
  | nil =>
    rcases List.eq_nil_or_concat lo with rfl | ⟨lo,y,rfl⟩
    · simp at hl
    · rw [List.concat_eq_append,List.append_assoc,List.singleton_append] at h
      obtain ⟨_,⟨_,hyx⟩,_⟩ := linked_mid.mp h
      exact .inr (by simp [hyx])

variable [DecidableEq κ]

open Function

/-- Bent to a node that steps to itself, a chain is not left. -/
theorem mem_of_bent {step : κ → Option κ} (h : (l ++ [x]).IsChain fun a b => step a=some b)
    (y : κ) : ∀ a ∈ l ++ [x,y], ∀ b,
      update (update step x (some y)) y (some y) a=some b → b ∈ l ++ [x,y] := by
  intro a ha b hb
  by_cases hay : a=y
  · rw [hay,update_self] at hb
    obtain rfl := Option.some.inj hb
    simp
  · rw [update_of_ne hay] at hb
    by_cases hax : a=x
    · rw [hax,update_self] at hb
      obtain rfl := Option.some.inj hb
      simp
    · rw [update_of_ne hax] at hb
      have ha : a ∈ l := by simpa [hay,hax] using ha
      obtain ⟨z,hz,haz⟩ := exists_next h ha
      obtain rfl : b=z := Option.some.inj (hb.symm.trans haz)
      have hz : b ∈ l ∨ b=x := by simpa using hz
      rcases hz with hz | hz
      · simp [hz]
      · simp [hz]

/-- Two writes take a node out. -/
theorem Linked.unlink (h : Linked next prev (lo ++ x :: y :: z :: hi))
    (hnd : (lo ++ x :: y :: z :: hi).Nodup) :
    Linked (update next x (some z)) (update prev z (some x)) (lo ++ x :: z :: hi) := by
  obtain ⟨hl,_,hr⟩ := linked_mid.mp h
  have hr : Linked next prev (z :: hi) := (List.isChain_cons_cons.mp hr).2
  refine linked_mid.mpr ⟨hl.congr ?_ ?_,⟨update_self ..,update_self ..⟩,hr.congr ?_ ?_⟩
  · intro a ha
    rw [List.dropLast_concat] at ha
    exact update_of_ne (by grind) _ _
  · intro a ha
    have ha := List.mem_of_mem_tail ha
    exact update_of_ne (by grind) _ _
  · intro a ha
    have ha := List.dropLast_subset _ ha
    exact update_of_ne (by grind) _ _
  · intro a ha
    rw [List.tail_cons] at ha
    exact update_of_ne (by grind) _ _

/-- Four writes put a node between two others. -/
theorem Linked.link (h : Linked next prev (lo ++ x :: z :: hi))
    (hnd : (lo ++ x :: y :: z :: hi).Nodup) :
    Linked (update (update next x (some y)) y (some z)) (update (update prev y (some x)) z (some y))
      (lo ++ x :: y :: z :: hi) := by
  have hxy : x ≠ y := by grind
  have hyz : y ≠ z := by grind
  obtain ⟨hl,_,hr⟩ := linked_mid.mp h
  refine linked_mid.mpr ⟨hl.congr ?_ ?_,⟨?_,?_⟩,List.isChain_cons_cons.mpr ⟨⟨?_,?_⟩,hr.congr ?_ ?_⟩⟩
  · intro a ha
    rw [List.dropLast_concat] at ha
    rw [update_of_ne (by grind),update_of_ne (by grind)]
  · intro a ha
    have ha := List.mem_of_mem_tail ha
    rw [update_of_ne (by grind),update_of_ne (by grind)]
  · rw [update_of_ne hxy,update_self]
  · rw [update_of_ne hyz,update_self]
  · exact update_self ..
  · exact update_self ..
  · intro a ha
    have ha := List.dropLast_subset _ ha
    rw [update_of_ne (by grind),update_of_ne (by grind)]
  · intro a ha
    rw [List.tail_cons] at ha
    rw [update_of_ne (by grind),update_of_ne (by grind)]

end Links

end Lib
