import Allocators.Lib.Run
import Mathlib.Logic.Function.Basic

/-! `SharedMutex` under sequential consistency: threads that take one atomic step at a time. -/

namespace Allocators.SharedMutex

open Lib

/-- `ContentionFreeFlag::Flags`. -/
inductive Flag
  | unregistered
  | registered
  | prepareLock
  | sharedLock
  deriving DecidableEq, Repr

/-- The `ThreadRegister` a thread's `tmap` has for the mutex: none yet, one without an index, or
one with. -/
inductive ThreadRegister
  | absent
  | unregistered
  | registered (index : Nat)
  deriving DecidableEq, Repr

/-- What a thread does next; `tries` tells `try_lock_shared` from `lock_shared`. -/
inductive PC
  | idle
  | registerThread (tries : Bool) (i : Nat)
  | loadSpLock (tries : Bool)
  | storeSharedLock
  | shared
  | exchangeSpill (tries : Bool)
  | spill
  | exchangeLock
  | scan (i : Nat)
  | exclusive
  | unregister
  | exited
  deriving DecidableEq, Repr

/-- The mutex and its threads. The flags' `id` is written and never read. -/
structure State (T : Type) where
  spLock : Bool
  flags : List Flag
  index : T → ThreadRegister
  pc : T → PC

/-- The calls of a thread, its exit, and its next step inside a call. -/
inductive Act
  | lockShared
  | tryLockShared
  | unlockShared
  | lock
  | unlock
  | exit
  | advance
  deriving DecidableEq, Repr

/-- The locking calls alone. -/
def Act.Locks : Act → Prop
  | .tryLockShared | .exit => False
  | _ => True

instance : DecidablePred Act.Locks
  | .tryLockShared | .exit => inferInstanceAs (Decidable False)
  | .lockShared | .unlockShared | .lock | .unlock | .advance => inferInstanceAs (Decidable True)

variable {T : Type} [DecidableEq T]

namespace State

def setPC (s : State T) (t : T) (p : PC) : State T := { s with pc := Function.update s.pc t p }

def setIndex (s : State T) (t : T) (r : ThreadRegister) : State T :=
  { s with index := Function.update s.index t r }

def setFlag (s : State T) (i : Nat) (f : Flag) : State T := { s with flags := s.flags.set i f }

def setSpLock (s : State T) (b : Bool) : State T := { s with spLock := b }

@[simp] theorem flags_setPC (s : State T) (t : T) (p : PC) : (s.setPC t p).flags=s.flags := rfl

@[simp] theorem index_setPC (s : State T) (t : T) (p : PC) : (s.setPC t p).index=s.index := rfl

theorem pc_setPC (s : State T) (t u : T) (p : PC) :
    (s.setPC t p).pc u=if u=t then p else s.pc u := Function.update_apply s.pc t p u

@[simp] theorem flags_setIndex (s : State T) (t : T) (r : ThreadRegister) :
    (s.setIndex t r).flags=s.flags := rfl

@[simp] theorem pc_setIndex (s : State T) (t : T) (r : ThreadRegister) :
    (s.setIndex t r).pc=s.pc := rfl

theorem index_setIndex (s : State T) (t u : T) (r : ThreadRegister) :
    (s.setIndex t r).index u=if u=t then r else s.index u := Function.update_apply s.index t r u

@[simp] theorem setIndex_self (s : State T) (t : T) : s.setIndex t (s.index t)=s := by
  simp [setIndex]

section Fields

omit [DecidableEq T]

@[simp] theorem setSpLock_self (s : State T) : s.setSpLock s.spLock=s := rfl

@[simp] theorem flags_setFlag (s : State T) (i : Nat) (f : Flag) :
    (s.setFlag i f).flags=s.flags.set i f := rfl

@[simp] theorem index_setFlag (s : State T) (i : Nat) (f : Flag) :
    (s.setFlag i f).index=s.index := rfl

@[simp] theorem pc_setFlag (s : State T) (i : Nat) (f : Flag) : (s.setFlag i f).pc=s.pc := rfl

@[simp] theorem flags_setSpLock (s : State T) (b : Bool) : (s.setSpLock b).flags=s.flags := rfl

@[simp] theorem index_setSpLock (s : State T) (b : Bool) : (s.setSpLock b).index=s.index := rfl

@[simp] theorem pc_setSpLock (s : State T) (b : Bool) : (s.setSpLock b).pc=s.pc := rfl

end Fields

/-- `getOrSetIndex` at the start of `lock_shared` and `try_lock_shared`. -/
def beginShared (s : State T) (t : T) (tries : Bool) : State T :=
  match s.index t with
  | .absent => (s.setIndex t .unregistered).setPC t (.registerThread tries 0)
  | .unregistered => s.setPC t (.exchangeSpill tries)
  | .registered _ => s.setPC t (.loadSpLock tries)

def unlockShared (s : State T) (t : T) : State T :=
  match s.index t with
  | .registered i => (s.setFlag i .registered).setPC t .idle
  | _ => (s.setSpLock false).setPC t .idle

/-- The exit of a thread, up to the exchange in `~ThreadRegister`. -/
def exit (s : State T) (t : T) : State T :=
  match s.index t with
  | .registered _ => s.setPC t .unregister
  | _ => (s.setIndex t .absent).setPC t .exited

/-- The next atomic step of a thread inside a call. A loop that goes round once more leaves the
state as it is, as does a spurious failure of `compare_exchange_weak`. -/
def advance (s : State T) (t : T) : Option (State T) :=
  match s.pc t with
  | .registerThread tries i =>
    match s.flags[i]? with
    | none => some (s.setPC t (.exchangeSpill tries))
    | some f =>
      if f=.unregistered then
        some (((s.setFlag i .registered).setIndex t (.registered i)).setPC t (.loadSpLock tries))
      else some (s.setPC t (.registerThread tries (i+1)))
  | .loadSpLock tries =>
    if s.spLock then if tries then some (s.setPC t .idle) else some s
    else some (s.setPC t .storeSharedLock)
  | .storeSharedLock =>
    match s.index t with
    | .registered i => some ((s.setFlag i .sharedLock).setPC t .shared)
    | _ => none
  | .exchangeSpill true =>
    -- returns `locked`, which is what `spLock` was before
    if s.spLock then some (s.setPC t .spill) else some ((s.setSpLock true).setPC t .idle)
  | .exchangeSpill false =>
    if s.spLock then some s else some ((s.setSpLock true).setPC t .spill)
  | .exchangeLock =>
    if s.spLock then some s else some ((s.setSpLock true).setPC t (.scan 0))
  | .scan i =>
    match s.flags[i]? with
    | none => some (s.setPC t .exclusive)
    | some f => if f=.sharedLock then some s else some (s.setPC t (.scan (i+1)))
  | .unregister =>
    match s.index t with
    | .registered i =>
      if s.flags[i]?=some .registered then
        some (((s.setFlag i .unregistered).setIndex t .absent).setPC t .exited)
      else some s
    | _ => none
  | _ => none

def next (s : State T) (t : T) : Act → Option (State T)
  | .lockShared => if s.pc t=.idle then some (s.beginShared t false) else none
  | .tryLockShared => if s.pc t=.idle then some (s.beginShared t true) else none
  | .unlockShared => if s.pc t=.shared ∨ s.pc t=.spill then some (s.unlockShared t) else none
  | .lock => if s.pc t=.idle then some (s.setPC t .exchangeLock) else none
  | .unlock => if s.pc t=.exclusive then some ((s.setSpLock false).setPC t .idle) else none
  | .exit => if s.pc t=.idle then some (s.exit t) else none
  | .advance => s.advance t

end State

/-- The ways `advance` can go. -/
inductive Advances (s : State T) (t : T) : State T → Prop
  | spins : Advances s t s
  | claims {tries i} : s.pc t=.registerThread tries i → s.flags[i]?=some .unregistered →
      Advances s t
        (((s.setFlag i .registered).setIndex t (.registered i)).setPC t (.loadSpLock tries))
  | skips {tries i f} : s.pc t=.registerThread tries i → s.flags[i]?=some f → f ≠ .unregistered →
      Advances s t (s.setPC t (.registerThread tries (i+1)))
  | overflows {tries i} : s.pc t=.registerThread tries i → s.flags[i]?=none →
      Advances s t (s.setPC t (.exchangeSpill tries))
  | refuses : s.pc t=.loadSpLock true → s.spLock=true → Advances s t (s.setPC t .idle)
  | passes {tries} : s.pc t=.loadSpLock tries → s.spLock=false →
      Advances s t (s.setPC t .storeSharedLock)
  | stores {i} : s.pc t=.storeSharedLock → s.index t=.registered i →
      Advances s t ((s.setFlag i .sharedLock).setPC t .shared)
  | fails : s.pc t=.exchangeSpill true → s.spLock=true → Advances s t (s.setPC t .spill)
  | slips : s.pc t=.exchangeSpill true → s.spLock=false →
      Advances s t ((s.setSpLock true).setPC t .idle)
  | spills : s.pc t=.exchangeSpill false → s.spLock=false →
      Advances s t ((s.setSpLock true).setPC t .spill)
  | locks : s.pc t=.exchangeLock → s.spLock=false →
      Advances s t ((s.setSpLock true).setPC t (.scan 0))
  | scans {i f} : s.pc t=.scan i → s.flags[i]?=some f → f ≠ .sharedLock →
      Advances s t (s.setPC t (.scan (i+1)))
  | enters {i} : s.pc t=.scan i → s.flags[i]?=none → Advances s t (s.setPC t .exclusive)
  | leaves {i} : s.pc t=.unregister → s.index t=.registered i → s.flags[i]?=some .registered →
      Advances s t (((s.setFlag i .unregistered).setIndex t .absent).setPC t .exited)

theorem advances_of_some {s s' : State T} {t : T} (h : s.advance t=some s') : Advances s t s' := by
  simp only [State.advance] at h
  cases hp : s.pc t with
  | registerThread tries i =>
    simp only [hp] at h
    cases hf : s.flags[i]? with
    | none =>
      simp only [hf,Option.some.injEq] at h
      subst h
      exact .overflows hp hf
    | some f =>
      simp only [hf] at h
      split_ifs at h with hu
      · cases h
        exact .claims hp (hu ▸ hf)
      · cases h
        exact .skips hp hf hu
  | loadSpLock tries =>
    simp only [hp] at h
    split_ifs at h with hl htries
    · cases h
      exact .refuses (htries ▸ hp) hl
    · cases h
      exact .spins
    · cases h
      exact .passes hp (by simpa using hl)
  | storeSharedLock =>
    simp only [hp] at h
    cases hi : s.index t with
    | registered i =>
      simp only [hi,Option.some.injEq] at h
      subst h
      exact .stores hp hi
    | absent => simp [hi] at h
    | unregistered => simp [hi] at h
  | exchangeSpill tries =>
    cases tries with
    | true =>
      simp only [hp] at h
      split_ifs at h with hl
      · cases h
        exact .fails hp hl
      · cases h
        exact .slips hp (by simpa using hl)
    | false =>
      simp only [hp] at h
      split_ifs at h with hl
      · cases h
        exact .spins
      · cases h
        exact .spills hp (by simpa using hl)
  | exchangeLock =>
    simp only [hp] at h
    split_ifs at h with hl
    · cases h
      exact .spins
    · cases h
      exact .locks hp (by simpa using hl)
  | scan i =>
    simp only [hp] at h
    cases hf : s.flags[i]? with
    | none =>
      simp only [hf,Option.some.injEq] at h
      subst h
      exact .enters hp hf
    | some f =>
      simp only [hf] at h
      split_ifs at h with hs
      · cases h
        exact .spins
      · cases h
        exact .scans hp hf hs
  | unregister =>
    simp only [hp] at h
    cases hi : s.index t with
    | registered i =>
      simp only [hi] at h
      split_ifs at h with hf
      · cases h
        exact .leaves hp hi hf
      · cases h
        exact .spins
    | absent => simp [hi] at h
    | unregistered => simp [hi] at h
  | idle => simp [hp] at h
  | shared => simp [hp] at h
  | spill => simp [hp] at h
  | exclusive => simp [hp] at h
  | exited => simp [hp] at h

/-- The mutex just built, and threads that have not used it. -/
def initial (T : Type) (threads : Nat) : State T :=
  ⟨false,List.replicate threads .unregistered,fun _ => .absent,fun _ => .idle⟩

/-- The interleavings of the calls that are allowed. -/
def machine (T : Type) [DecidableEq T] (threads : Nat) (allowed : Act → Prop)
    [DecidablePred allowed] : Machine (State T) (T × Act) where
  start s := s=initial T threads
  next s l := if allowed l.2 then s.next l.1 l.2 else none

end Allocators.SharedMutex
