import Allocators.Lib.Run
import Mathlib.Algebra.Order.BigOperators.Group.Finset
import Mathlib.Data.Fintype.BigOperators
import Mathlib.Data.List.Perm.Basic
import Mathlib.Data.Finset.Max

/-! Locks taken in the order of their ranks: no deadlock. -/

namespace Lib.LockOrder

universe u v w

/-- What a thread does to a lock. `claim` is a reader that keeps others out as a writer does, but
waits for no reader. -/
inductive Op (L : Type u)
  | lockShared (l : L)
  | claim (l : L)
  | lock (l : L)
  | release (l : L)
  deriving DecidableEq

/-- A thread: what it has still to do, the locks it has as a reader and those it keeps others out
of, and the lock it keeps new readers out of while it waits for those that are there. -/
structure Thread (L : Type u) where
  todo : List (Op L)
  shared : List L
  sole : List L
  pending : Option L

namespace Thread

variable {L : Type u}

def idle : Thread L := ⟨[],[],[],none⟩

/-- The locks a thread has. -/
def held (x : Thread L) : List L := x.shared ++ x.sole

def Excludes (x : Thread L) (l : L) : Prop := l ∈ x.sole ∨ x.pending=some l

instance [DecidableEq L] (x : Thread L) (l : L) : Decidable (x.Excludes l) :=
  inferInstanceAs (Decidable (_ ∨ _))

/-- The lock a thread takes next. -/
def wants (x : Thread L) : Option L :=
  match x.todo with
  | .lockShared l :: _ | .claim l :: _ | .lock l :: _ => some l
  | _ => none

/-- How many steps a thread has still to do. -/
def work (x : Thread L) : Nat := 2*x.todo.length-if x.pending.isSome then 1 else 0

end Thread

/-- A thread begins a call or takes the next step of one; `slip` is a reader that does not see the
writer, or a writer that does not see a reader. -/
inductive Act (T : Type v) (C : Type w)
  | begin (t : T) (c : C)
  | advance (t : T)
  | slip (t : T)

def Act.Begins {T : Type v} {C : Type w} : Act T C → Prop
  | .begin _ _ => True
  | _ => False

section Steps

variable {T : Type v} {L : Type u} [Fintype T] [DecidableEq L]

/-- The next step of a thread; it has none while it is kept waiting. -/
def advance (s : T → Thread L) (t : T) : Option (Thread L) :=
  match s t with
  | ⟨.lockShared l :: ops,shared,sole,none⟩ =>
    if ∀ u, ¬ (s u).Excludes l then some ⟨ops,l :: shared,sole,none⟩ else none
  | ⟨.claim l :: ops,shared,sole,none⟩ =>
    if ∀ u, ¬ (s u).Excludes l then some ⟨ops,shared,l :: sole,none⟩ else none
  | ⟨.lock l :: ops,shared,sole,none⟩ =>
    if ∀ u, ¬ (s u).Excludes l then some ⟨.lock l :: ops,shared,sole,some l⟩ else none
  | ⟨.lock l :: ops,shared,sole,some k⟩ =>
    if k=l ∧ ∀ u, l ∉ (s u).shared then some ⟨ops,shared,l :: sole,none⟩ else none
  | ⟨.release l :: ops,shared,sole,none⟩ =>
    some (if l ∈ shared then ⟨ops,shared.erase l,sole,none⟩ else ⟨ops,shared,sole.erase l,none⟩)
  | _ => none

def slip (s : T → Thread L) (t : T) : Option (Thread L) :=
  match s t with
  | ⟨.lockShared l :: ops,shared,sole,none⟩ => some ⟨ops,l :: shared,sole,none⟩
  | ⟨.lock l :: ops,shared,sole,some k⟩ => if k=l then some ⟨ops,shared,l :: sole,none⟩ else none
  | _ => none

/-- Threads that make calls; `path` tells what a call does to locks. -/
def machine [DecidableEq T] {C : Type w} (path : T → C → List (Op L)) :
    Machine (T → Thread L) (Act T C) where
  start s := s=fun _ => .idle
  next s
    | .begin t c =>
      if (s t).todo=[] then some (Function.update s t { s t with todo := path t c }) else none
    | .advance t => (advance s t).map (Function.update s t)
    | .slip t => (slip s t).map (Function.update s t)

/-- How many steps all threads have still to do. -/
def work (s : T → Thread L) : Nat := ∑ t, (s t).work

/-- What a step does to the thread. -/
inductive Moves : Thread L → Thread L → Prop
  | shares (l : L) (ops : List (Op L)) (shared sole : List L) :
      Moves ⟨.lockShared l :: ops,shared,sole,none⟩ ⟨ops,l :: shared,sole,none⟩
  | claims (l : L) (ops : List (Op L)) (shared sole : List L) :
      Moves ⟨.claim l :: ops,shared,sole,none⟩ ⟨ops,shared,l :: sole,none⟩
  | waits (l : L) (ops : List (Op L)) (shared sole : List L) :
      Moves ⟨.lock l :: ops,shared,sole,none⟩ ⟨.lock l :: ops,shared,sole,some l⟩
  | enters (l : L) (ops : List (Op L)) (shared sole : List L) :
      Moves ⟨.lock l :: ops,shared,sole,some l⟩ ⟨ops,shared,l :: sole,none⟩
  | leavesShared (l : L) (ops : List (Op L)) (shared sole : List L) : l ∈ shared →
      Moves ⟨.release l :: ops,shared,sole,none⟩ ⟨ops,shared.erase l,sole,none⟩
  | leavesSole (l : L) (ops : List (Op L)) (shared sole : List L) : l ∉ shared →
      Moves ⟨.release l :: ops,shared,sole,none⟩ ⟨ops,shared,sole.erase l,none⟩

theorem moves_of_advance {s : T → Thread L} {t : T} {x : Thread L} (h : advance s t=some x) :
    Moves (s t) x := by
  unfold advance at h
  split at h
  · next hs =>
    split_ifs at h
    obtain rfl := Option.some.inj h
    exact hs ▸ .shares ..
  · next hs =>
    split_ifs at h
    obtain rfl := Option.some.inj h
    exact hs ▸ .claims ..
  · next hs =>
    split_ifs at h
    obtain rfl := Option.some.inj h
    exact hs ▸ .waits ..
  · next hs =>
    split_ifs at h with hk
    obtain rfl := Option.some.inj h
    obtain rfl := hk.1
    exact hs ▸ .enters ..
  · next l ops shared sole hs =>
    obtain rfl := Option.some.inj h
    by_cases hl : l ∈ shared
    · rw [if_pos hl]
      exact hs ▸ .leavesShared _ _ _ _ hl
    · rw [if_neg hl]
      exact hs ▸ .leavesSole _ _ _ _ hl
  · cases h

omit [Fintype T] in
theorem moves_of_slip {s : T → Thread L} {t : T} {x : Thread L} (h : slip s t=some x) :
    Moves (s t) x := by
  unfold slip at h
  split at h
  · next hs =>
    obtain rfl := Option.some.inj h
    exact hs ▸ .shares ..
  · next hs =>
    split_ifs at h with hk
    obtain rfl := Option.some.inj h
    subst hk
    exact hs ▸ .enters ..
  · cases h

end Steps

section Ranks

variable {L : Type u} [DecidableEq L] (rank : L → Nat)

/-- Every lock that is taken ranks above all that are held, and what is held is released. -/
def Ordered : List (Op L) → List L → Prop
  | [],held => held=[]
  | .lockShared l :: ops,held | .claim l :: ops,held | .lock l :: ops,held =>
    (∀ k ∈ held, rank k < rank l) ∧ Ordered ops (l :: held)
  | .release l :: ops,held => l ∈ held ∧ Ordered ops (held.erase l)

variable {rank}

theorem Ordered.perm {ops : List (Op L)} {held held' : List L} (h : Ordered rank ops held)
    (hp : held.Perm held') : Ordered rank ops held' := by
  induction ops generalizing held held' with
  | nil =>
    obtain rfl : held=[] := h
    exact List.Perm.eq_nil hp.symm
  | cons op ops ih =>
    cases op with
    | lockShared l | claim l | lock l =>
      exact ⟨fun k hk => h.1 k (hp.mem_iff.mpr hk),ih h.2 (hp.cons l)⟩
    | release l => exact ⟨hp.mem_iff.mp h.1,ih h.2 (hp.erase l)⟩

variable (rank)

/-- Whoever holds only locks of rank below `r` may do it, and holds the same locks after it. -/
def Balanced (r : Nat) (ops : List (Op L)) : Prop :=
  ∀ held rest, (∀ k ∈ held, rank k < r) → Ordered rank rest held → Ordered rank (ops ++ rest) held

variable {rank}

theorem Balanced.nil (r : Nat) : Balanced rank r [] := fun _ _ _ h => h

theorem Balanced.append {r : Nat} {ops ops' : List (Op L)} (h : Balanced rank r ops)
    (h' : Balanced rank r ops') : Balanced rank r (ops ++ ops') := by
  intro held rest hk hr
  rw [List.append_assoc]
  exact h held _ hk (h' held rest hk hr)

theorem Balanced.mono {r r' : Nat} {ops : List (Op L)} (h : Balanced rank r ops) (hle : r' ≤ r) :
    Balanced rank r' ops := fun held rest hk hr =>
  h held rest (fun k hm => Nat.lt_of_lt_of_le (hk k hm) hle) hr

theorem Balanced.flatMap {α : Type*} {r : Nat} {f : α → List (Op L)} {l : List α}
    (h : ∀ a ∈ l, Balanced rank r (f a)) : Balanced rank r (l.flatMap f) := by
  induction l with
  | nil => exact .nil r
  | cons a l ih =>
    rw [List.flatMap_cons]
    exact (h a List.mem_cons_self).append (ih fun x hx => h x (List.mem_cons_of_mem _ hx))

/-- What is done between taking a lock and its release may take locks above it. -/
theorem Balanced.between {r : Nat} {l : L} {op : Op L} {ops : List (Op L)} (hr : r ≤ rank l)
    (hop : op=.lockShared l ∨ op=.claim l ∨ op=.lock l) (h : Balanced rank (rank l+1) ops) :
    Balanced rank r (op :: (ops ++ [.release l])) := by
  intro held rest hk hrest
  have hlt : ∀ k ∈ held, rank k < rank l := fun k hm => Nat.lt_of_lt_of_le (hk k hm) hr
  have hbody : Ordered rank (ops ++ ([.release l] ++ rest)) (l :: held) := by
    refine h (l :: held) _ ?_ ⟨List.mem_cons_self,by rwa [List.erase_cons_head]⟩
    intro k hm
    rcases List.mem_cons.mp hm with rfl | hm
    · exact Nat.lt_succ_self _
    · exact Nat.lt_succ_of_lt (hlt k hm)
  rw [List.cons_append,List.append_assoc]
  rcases hop with rfl | rfl | rfl
  · exact ⟨hlt,hbody⟩
  · exact ⟨hlt,hbody⟩
  · exact ⟨hlt,hbody⟩

/-- What starts and ends without locks. -/
theorem Balanced.ordered {r : Nat} {ops : List (Op L)} (h : Balanced rank r ops) :
    Ordered rank ops [] := by
  have hx := h [] [] (by simp) rfl
  rwa [List.append_nil] at hx

variable (rank)

/-- The invariant of a thread: it goes on in order, and waits for the lock it takes next. -/
structure Good (x : Thread L) : Prop where
  ordered : Ordered rank x.todo x.held
  pending : ∀ l, x.pending=some l → ∃ ops, x.todo=.lock l :: ops

variable {rank}

theorem good_idle : Good rank (Thread.idle : Thread L) := ⟨rfl,by simp [Thread.idle]⟩

/-- A thread with nothing to do has no lock. -/
theorem Good.eq_idle {x : Thread L} (h : Good rank x) (ht : x.todo=[]) : x=.idle := by
  obtain ⟨todo,shared,sole,pending⟩ := x
  obtain rfl : todo=[] := ht
  have hheld : shared ++ sole=[] := h.ordered
  obtain ⟨rfl,rfl⟩ := List.append_eq_nil_iff.mp hheld
  cases pending with
  | none => rfl
  | some l =>
    obtain ⟨ops,ho⟩ := h.pending l rfl
    cases ho

/-- A step keeps the order, and there is less to do. -/
theorem Good.moves {x y : Thread L} (h : Good rank x) (hm : Moves x y) :
    Good rank y ∧ y.work < x.work := by
  have ho := h.ordered
  cases hm with
  | shares l ops shared sole =>
    refine ⟨⟨ho.2,by simp⟩,?_⟩
    simp [Thread.work]
  | claims l ops shared sole =>
    refine ⟨⟨ho.2.perm List.perm_middle.symm,by simp⟩,?_⟩
    simp [Thread.work]
  | waits l ops shared sole =>
    refine ⟨⟨ho,?_⟩,?_⟩
    · rintro k ⟨⟩
      exact ⟨ops,rfl⟩
    · change 2*(ops.length+1)-1 < 2*(ops.length+1)-0
      omega
  | enters l ops shared sole =>
    refine ⟨⟨ho.2.perm List.perm_middle.symm,by simp⟩,?_⟩
    simp [Thread.work]
    omega
  | leavesShared l ops shared sole hl =>
    have hx := ho.2
    rw [Thread.held,List.erase_append_left _ hl] at hx
    exact ⟨⟨hx,by simp⟩,by simp [Thread.work]⟩
  | leavesSole l ops shared sole hl =>
    have hx := ho.2
    rw [Thread.held,List.erase_append_right _ hl] at hx
    exact ⟨⟨hx,by simp⟩,by simp [Thread.work]⟩

section Machine

variable {T : Type v} {C : Type w} [Fintype T] [DecidableEq T] {s s' : T → Thread L}
  {path : T → C → List (Op L)}

theorem good_next {a : Act T C} (hpath : ∀ t c, Ordered rank (path t c) []) (h : ∀ t, Good rank (s t))
    (hn : (machine path).next s a=some s') :
    (∀ t, Good rank (s' t)) ∧ (¬ a.Begins → work s' < work s) := by
  have hstep : ∀ t x, Moves (s t) x → s'=Function.update s t x →
      (∀ t, Good rank (s' t)) ∧ work s' < work s := by
    rintro t x hm rfl
    obtain ⟨hx,hlt⟩ := (h t).moves hm
    constructor
    · intro u
      by_cases hu : u=t
      · subst hu
        rwa [Function.update_self]
      · rw [Function.update_of_ne hu]
        exact h u
    · refine Finset.sum_lt_sum ?_ ⟨t,Finset.mem_univ t,by rwa [Function.update_self]⟩
      intro u _
      by_cases hu : u=t
      · subst hu
        rw [Function.update_self]
        exact hlt.le
      · rw [Function.update_of_ne hu]
  cases a with
  | begin t c =>
    simp only [machine] at hn
    split_ifs at hn with ht
    obtain rfl := Option.some.inj hn
    refine ⟨?_,fun hb => absurd trivial hb⟩
    intro u
    by_cases hu : u=t
    · subst hu
      rw [Function.update_self,(h u).eq_idle ht]
      exact ⟨hpath u c,by simp [Thread.idle]⟩
    · rw [Function.update_of_ne hu]
      exact h u
  | advance t =>
    obtain ⟨x,hx,rfl⟩ := Option.map_eq_some_iff.mp hn
    obtain ⟨hg,hw⟩ := hstep t x (moves_of_advance hx) rfl
    exact ⟨hg,fun _ => hw⟩
  | slip t =>
    obtain ⟨x,hx,rfl⟩ := Option.map_eq_some_iff.mp hn
    obtain ⟨hg,hw⟩ := hstep t x (moves_of_slip hx) rfl
    exact ⟨hg,fun _ => hw⟩

theorem reachable_good (hpath : ∀ t c, Ordered rank (path t c) [])
    (h : (machine path).Reachable s) : ∀ t, Good rank (s t) := by
  have h0 : ∀ s, (machine path).start s → ∀ t, Good rank (s t) := by
    rintro s rfl t
    exact good_idle
  exact h.invariant h0 fun _ _ _ hi hn => (good_next hpath hi hn).1

omit [DecidableEq T] in
/-- What keeps a thread waiting: the lock it takes next, and who has it or waits for it. -/
theorem blocked {t : T} (h : Good rank (s t)) (hn : advance s t=none) (ht : (s t).todo ≠ []) :
    ∃ l, (s t).wants=some l ∧ (∀ k ∈ (s t).held, rank k < rank l) ∧
      ∃ u, l ∈ (s u).held ∨ (s u).pending=some l ∧ (s t).pending=none := by
  have ho := h.ordered
  have hp := h.pending
  revert hn ht ho hp
  unfold advance
  rcases s t with ⟨_ | ⟨op,ops⟩,shared,sole,pending⟩
  · intro _ ht
    exact absurd rfl ht
  · intro hn _ ho hp
    cases pending with
    | none =>
      have hexcl : ∀ l, ¬ (∀ u, ¬ (s u).Excludes l) →
          ∃ u, l ∈ (s u).held ∨ (s u).pending=some l ∧ (none : Option L)=none := by
        intro l hl
        push Not at hl
        obtain ⟨u,hu⟩ := hl
        rcases hu with hu | hu
        · exact ⟨u,.inl (List.mem_append_right _ hu)⟩
        · exact ⟨u,.inr ⟨hu,rfl⟩⟩
      cases op with
      | lockShared l | claim l | lock l =>
        simp only at hn
        split_ifs at hn with hl
        exact ⟨l,rfl,ho.1,hexcl l hl⟩
      | release l => simp at hn
    | some k =>
      obtain ⟨ops',he⟩ := hp k rfl
      obtain ⟨rfl,rfl⟩ := List.cons.inj he
      simp only [true_and] at hn
      split_ifs at hn with hl
      push Not at hl
      obtain ⟨u,hu⟩ := hl
      exact ⟨k,rfl,ho.1,u,.inl (List.mem_append_left _ hu)⟩

omit [DecidableEq T] in
/-- If no thread can go on, none has anything to do: the one that waits for the lock of the highest
rank would wait for nobody. -/
theorem not_stuck (h : ∀ t, Good rank (s t)) (hn : ∀ t, advance s t=none) :
    ∀ t, (s t).todo=[] := by
  by_contra hne
  push Not at hne
  obtain ⟨t₀,ht₀⟩ := hne
  let key : T → Nat := fun u => ((s u).wants.map rank).getD 0
  obtain ⟨t,ht,hmax⟩ := Finset.exists_max_image (Finset.univ.filter fun u => (s u).todo ≠ []) key
    ⟨t₀,by simpa using ht₀⟩
  have htodo : (s t).todo ≠ [] := by simpa using ht
  obtain ⟨l,hw,_,u,hu⟩ := blocked (h t) (hn t) htodo
  have hkey : key t=rank l := by simp [key,hw]
  have hheld : ∀ u, l ∉ (s u).held := by
    intro u hl
    have hu : (s u).todo ≠ [] := by
      intro he
      rw [(h u).eq_idle he] at hl
      cases hl
    obtain ⟨k,hwu,hlt,_⟩ := blocked (h u) (hn u) hu
    have hle : key u ≤ key t := hmax u (by simpa using hu)
    have hk : key u=rank k := by simp [key,hwu]
    have := hlt l hl
    omega
  rcases hu with hl | ⟨hp,_⟩
  · exact hheld u hl
  · obtain ⟨ops,he⟩ := (h u).pending l hp
    obtain ⟨k,hwu,_,x,hx⟩ := blocked (h u) (hn u) (by simp [he])
    have hk : k=l := by simpa [Thread.wants,he,eq_comm] using hwu
    subst hk
    rcases hx with hx | ⟨_,hx⟩
    · exact hheld x hx
    · rw [hp] at hx
      cases hx

/-- However the steps of the threads follow each other they come to an end, and where no thread has
a next step all calls have returned and no lock is held. -/
theorem schedules (hpath : ∀ t c, Ordered rank (path t c) []) (h : (machine path).Reachable s)
    {is : List (Act T C)} (his : ∀ a ∈ is, ¬ a.Begins)
    (hr : (machine path).runFrom s is=some s') :
    is.length+work s' ≤ work s ∧ ((∀ t, advance s' t=none) → s'=fun _ => .idle) := by
  have hgood := reachable_good hpath h
  clear h
  induction is generalizing s with
  | nil =>
    have he : s=s' := by simpa [Machine.runFrom] using hr
    subst he
    refine ⟨by simp,?_⟩
    intro hn
    funext t
    exact (hgood t).eq_idle (not_stuck hgood hn t)
  | cons a is ih =>
    simp only [Machine.runFrom,List.foldlM_cons,Option.bind_eq_bind] at hr
    obtain ⟨s₁,hn,hr'⟩ := Option.bind_eq_some_iff.mp hr
    obtain ⟨hg₁,hlt⟩ := good_next hpath hgood hn
    obtain ⟨hle,hend⟩ := ih (fun b hb => his b (List.mem_cons_of_mem _ hb)) hr' hg₁
    have := hlt (his a List.mem_cons_self)
    refine ⟨?_,hend⟩
    rw [List.length_cons]
    omega

end Machine

end Ranks

end Lib.LockOrder
