import Mathlib.Data.List.Perm.Basic

/-! Objects that are constructed, used and destroyed. -/

namespace Lib

/-- What happens to the object of a name; a name may be taken again. -/
inductive LifeEvent (α : Type*)
  | construct (x : α)
  | use (x : α)
  | destroy (x : α)
  deriving DecidableEq, Repr

namespace LifeEvent

variable {α : Type*} [DecidableEq α]

/-- The living objects after one event. It is `none` where an object is constructed over a living
one, or one that is not alive is used or destroyed. -/
def after (alive : List α) : LifeEvent α → Option (List α)
  | construct x => if x ∈ alive then none else some (x :: alive)
  | use x => if x ∈ alive then some alive else none
  | destroy x => if x ∈ alive then some (alive.erase x) else none

/-- The living objects after a history. -/
def replay (alive : List α) (es : List (LifeEvent α)) : Option (List α) := es.foldlM after alive

variable {alive rest : List α} {es fs : List (LifeEvent α)}

@[simp] theorem replay_nil (alive : List α) : replay alive []=some alive := rfl

theorem replay_cons (alive : List α) (e : LifeEvent α) (es : List (LifeEvent α)) :
    replay alive (e :: es)=(after alive e).bind fun l => replay l es := rfl

theorem replay_append (alive : List α) (es fs : List (LifeEvent α)) :
    replay alive (es ++ fs)=(replay alive es).bind fun l => replay l fs := by
  simp only [replay,List.foldlM_append]
  rfl

/-- A history goes on. -/
theorem replay_trans {l l' : List α} (h : replay alive es=some l) (h' : replay l fs=some l') :
    replay alive (es ++ fs)=some l' := by
  rw [replay_append,h]
  exact h'

theorem replay_construct {xs : List α} (hn : xs.Nodup) (hd : ∀ x ∈ xs, x ∉ alive) :
    ∃ l, replay alive (xs.map construct)=some l ∧ l.Perm (xs ++ alive) := by
  induction xs generalizing alive with
  | nil => exact ⟨alive,rfl,.refl _⟩
  | cons x xs ih =>
    obtain ⟨hx,hn⟩ := List.nodup_cons.mp hn
    have hxs : ∀ y ∈ xs, y ∉ x :: alive := by
      intro y hy hm
      rcases List.mem_cons.mp hm with rfl | hm
      · exact hx hy
      · exact hd y (List.mem_cons_of_mem _ hy) hm
    obtain ⟨l,hl,hp⟩ := ih hn hxs
    refine ⟨l,?_,hp.trans List.perm_middle⟩
    rw [List.map_cons,replay_cons,after,if_neg (hd x (by simp))]
    exact hl

theorem replay_destroy {xs : List α} (hp : alive.Perm (xs ++ rest)) :
    ∃ l, replay alive (xs.map destroy)=some l ∧ l.Perm rest := by
  induction xs generalizing alive with
  | nil => exact ⟨alive,rfl,hp⟩
  | cons x xs ih =>
    have hx : x ∈ alive := hp.mem_iff.mpr (by simp)
    have he : (alive.erase x).Perm (xs ++ rest) := by
      have := hp.erase x
      simpa using this
    obtain ⟨l,hl,hp'⟩ := ih he
    refine ⟨l,?_,hp'⟩
    rw [List.map_cons,replay_cons,after,if_pos hx]
    exact hl

theorem replay_use {x : α} (h : x ∈ alive) : replay alive [use x]=some alive := by
  rw [replay_cons,after,if_pos h]
  rfl

end LifeEvent

end Lib
