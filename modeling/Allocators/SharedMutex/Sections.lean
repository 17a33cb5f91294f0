import Allocators.SharedMutex.Owner

/-! What `lock`, `unlock`, `lock_shared` and `unlock_shared` keep to, with threads that start and
exit. -/

namespace Allocators.SharedMutex

open Lib

/-- The calls that wait for their lock, and the exit of a thread. -/
def Act.Blocking : Act → Prop
  | .tryLockShared => False
  | _ => True

instance : DecidablePred Act.Blocking
  | .tryLockShared => inferInstanceAs (Decidable False)
  | .lockShared | .unlockShared | .lock | .unlock | .exit | .advance =>
    inferInstanceAs (Decidable True)

section States

variable {T : Type}

/-- In a section that only `spLock` guards. -/
def State.InSpLock (s : State T) (t : T) : Prop := s.pc t=.exclusive ∨ s.pc t=.spill

/-- Back from `lock_shared`, and not yet in `unlock_shared`. -/
def State.InShared (s : State T) (t : T) : Prop := s.pc t=.shared ∨ s.pc t=.spill

/-- `spLock` has one thread at a time, and a slot is its reader's own. -/
structure Guarded (s : State T) : Prop where
  one : ∀ t u, s.InSpLock t → s.InSpLock u → t=u
  locked : ∀ t, s.InSpLock t → s.spLock=true
  slot : ∀ t u i, s.index t=.registered i → s.index u=.registered i → t=u
  flag : ∀ t i, s.InShared t → s.index t=.registered i → s.flags[i]?=some .sharedLock

theorem tracked_initial (threads : Nat) : Tracked (initial T threads) none := by
  constructor <;> simp [initial,PC.Owning,PC.Spilling,PC.Reading]

theorem State.InSpLock.owning {s : State T} {t : T} (h : s.InSpLock t) : (s.pc t).Owning := by
  cases h with
  | inl h => simp [h,PC.Owning]
  | inr h => simp [h,PC.Owning]

namespace Tracked

variable {s : State T} {owner : Option T}

/-- A thread in the spill path has no slot. -/
theorem flag (h : Tracked s owner) {t : T} {i : Nat} (hs : s.InShared t)
    (hi : s.index t=.registered i) : s.flags[i]?=some .sharedLock := by
  cases hs with
  | inl hp =>
    have hslot := h.slot t i hi
    rwa [if_pos hp] at hslot
  | inr hp =>
    have hu := h.spilling t (by simp [PC.Spilling,hp])
    rw [hu] at hi
    cases hi

theorem guarded (h : Tracked s owner) : Guarded s := by
  refine ⟨?_,?_,h.unique,fun t i => h.flag⟩
  · intro t u ht hu
    have ht := (h.owns t).mp ht.owning
    have hu := (h.owns u).mp hu.owning
    exact Option.some.inj (ht.symm.trans hu)
  · intro t ht
    rw [h.spLock,(h.owns t).mp ht.owning]
    rfl

end Tracked

end States

variable {T : Type} [DecidableEq T] {s s' : State T} {t : T}

theorem pc_other (h : Moves s t s') {u : T} (hu : u ≠ t) : s'.pc u=s.pc u := by
  cases h with
  | spins => rfl
  | passes _ _ => simp [State.pc_setPC,hu]
  | enrolls _ _ _ => simp [State.pc_setPC,hu]
  | claims _ _ _ => simp [State.pc_setPC,hu]
  | stores _ _ => simp [State.pc_setPC,hu]
  | releases _ => simp [State.pc_setPC,hu]
  | leaves _ => simp [State.pc_setPC,hu]

/-- A call keeps to what it is: the scan for a slot leads on in `lock_shared` or in
`try_lock_shared`. -/
theorem trying_advance (h : Advances s t s') (ht : (s'.pc t).Trying) : (s.pc t).Trying := by
  cases h with
  | spins => exact ht
  | claims hp _ => simpa [State.pc_setPC,PC.Trying,hp] using ht
  | skips hp _ _ => simpa [State.pc_setPC,PC.Trying,hp] using ht
  | overflows hp _ => simpa [State.pc_setPC,PC.Trying,hp] using ht
  | fails hp _ => simp [PC.Trying,hp]
  | slips hp _ => simp [PC.Trying,hp]
  | refuses _ _ => simp [State.pc_setPC,PC.Trying] at ht
  | passes _ _ => simp [State.pc_setPC,PC.Trying] at ht
  | stores _ _ => simp [State.pc_setPC,PC.Trying] at ht
  | spills _ _ => simp [State.pc_setPC,PC.Trying] at ht
  | locks _ _ => simp [State.pc_setPC,PC.Trying] at ht
  | scans _ _ _ => simp [State.pc_setPC,PC.Trying] at ht
  | enters _ _ => simp [State.pc_setPC,PC.Trying] at ht
  | leaves _ _ _ => simp [State.pc_setPC,PC.Trying] at ht

theorem trying_beginShared (h : ((s.beginShared t false).pc t).Trying) : False := by
  cases hi : s.index t with
  | absent => simp [State.beginShared,hi,State.pc_setPC,PC.Trying] at h
  | unregistered => simp [State.beginShared,hi,State.pc_setPC,PC.Trying] at h
  | registered i => simp [State.beginShared,hi,State.pc_setPC,PC.Trying] at h

theorem trying_unlockShared (h : ((s.unlockShared t).pc t).Trying) : False := by
  cases hi : s.index t with
  | absent => simp [State.unlockShared,hi,State.pc_setPC,PC.Trying] at h
  | unregistered => simp [State.unlockShared,hi,State.pc_setPC,PC.Trying] at h
  | registered i => simp [State.unlockShared,hi,State.pc_setPC,PC.Trying] at h

theorem trying_exit (h : ((s.exit t).pc t).Trying) : False := by
  cases hi : s.index t with
  | absent => simp [State.exit,hi,State.pc_setPC,PC.Trying] at h
  | unregistered => simp [State.exit,hi,State.pc_setPC,PC.Trying] at h
  | registered i => simp [State.exit,hi,State.pc_setPC,PC.Trying] at h

theorem trying_next {a : Act} (ha : a.Blocking) (h : s.next t a=some s')
    (ht : (s'.pc t).Trying) : (s.pc t).Trying := by
  cases a with
  | advance => exact trying_advance (advances_of_some h) ht
  | lockShared =>
    simp only [State.next] at h
    split_ifs at h
    cases h
    exact (trying_beginShared ht).elim
  | tryLockShared => exact ha.elim
  | unlockShared =>
    simp only [State.next] at h
    split_ifs at h
    cases h
    exact (trying_unlockShared ht).elim
  | lock =>
    simp only [State.next] at h
    split_ifs at h
    cases h
    simp [State.pc_setPC,PC.Trying] at ht
  | unlock =>
    simp only [State.next] at h
    split_ifs at h
    cases h
    simp [State.pc_setPC,PC.Trying] at ht
  | exit =>
    simp only [State.next] at h
    split_ifs at h
    cases h
    exact (trying_exit ht).elim

omit [DecidableEq T] in
theorem sparesSpLock_of_not_trying {a : Act} (h : ¬ (s.pc t).Trying) : s.SparesSpLock (t,a) := by
  cases a with
  | advance =>
    intro hp
    apply h
    rw [hp]
    rfl
  | _ => trivial

/-- Some thread has set `spLock` or none has, and none is in `try_lock_shared`. -/
def Settled (s : State T) : Prop := (∃ owner, Tracked s owner) ∧ ∀ t, ¬ (s.pc t).Trying

omit [DecidableEq T] in
theorem settled_initial (threads : Nat) : Settled (initial T threads) :=
  ⟨⟨none,tracked_initial threads⟩,fun _ h => by cases h⟩

theorem Settled.next {threads : Nat} {l : T × Act} (h : Settled s)
    (hn : (machine T threads Act.Blocking).next s l=some s') : Settled s' := by
  obtain ⟨t,a⟩ := l
  obtain ⟨⟨owner,hs⟩,hno⟩ := h
  have hn : (if a.Blocking then s.next t a else none)=some s' := hn
  split_ifs at hn with ha
  have hacts := hs.acts_next (sparesSpLock_of_not_trying (hno t)) hn
  refine ⟨⟨_,hs.step hacts⟩,?_⟩
  intro u hu
  by_cases hut : u=t
  · subst hut
    exact hno u (trying_next ha hn hu)
  · rw [pc_other (moves_next hn) hut] at hu
    exact hno u hu

/-- Under any interleaving, `spLock` has one thread at a time and is set while it does, slots are
not shared, and a reader's slot says so until it unlocks. -/
theorem guarded_of_reachable {threads : Nat}
    (h : (machine T threads Act.Blocking).Reachable s) : Guarded s := by
  have hs : Settled s :=
    h.invariant (fun s hs => hs ▸ settled_initial threads) fun _ _ _ hi hn => hi.next hn
  obtain ⟨owner,ho⟩ := hs.1
  exact ho.guarded

/-- One reader in the only slot, one in the spill path, and a writer that waits for it. -/
theorem guarded_of_reachable_spilled :
    ∃ s, (s.pc 0=.shared ∧ s.pc 1=.spill ∧ s.pc 2=.exchangeLock) ∧ Guarded (T := Fin 3) s := by
  obtain ⟨s,hr,hs⟩ := Machine.reachable_of_runFrom (machine (Fin 3) 1 Act.Blocking)
    (initial (Fin 3) 1)
    [(0,.lockShared),(0,.advance),(0,.advance),(0,.advance),(1,.lockShared),(1,.advance),
      (1,.advance),(1,.advance),(2,.lock),(2,.advance)]
    (fun s => s.pc 0=.shared ∧ s.pc 1=.spill ∧ s.pc 2=.exchangeLock) rfl (by decide)
  exact ⟨s,hs,guarded_of_reachable hr⟩

end Allocators.SharedMutex
