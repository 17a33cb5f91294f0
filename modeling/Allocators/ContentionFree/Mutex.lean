import Allocators.Lib.Run
import Mathlib.Logic.Function.Basic

/-! `contention_free_shared_mutex` under sequential consistency: threads that take one atomic step
at a time. -/

namespace Allocators.ContentionFree

open Lib

/-- What a thread does next. `shared` tells `lock_shared` and `unlock_shared` without a slot from
`lock` and `unlock`; `depth` is the `recursion_depth` that was read. -/
inductive PC
  | idle
  | loadUseCount
  | loadSlot (i : Nat)
  | exchangeSlot (i : Nat)
  | addUseCount
  | loadDepth
  | storeDepth (depth : Nat)
  | loadWant (depth : Nat)
  | storeBack (depth : Nat)
  | awaitWant (depth : Nat)
  | storeAgain (depth : Nat)
  | loadOwner (shared : Bool)
  | exchangeWant (shared : Bool)
  | storeOwner (shared : Bool)
  | scan (i : Nat)
  | increment (shared : Bool)
  | loadRelease
  | storeRelease (depth : Nat)
  | decrement (shared : Bool)
  | clearOwner
  | clearWant
  | loadUnregister
  | unregister
  | dropUseCount
  deriving DecidableEq, Repr

/-- The members of the mutex. A slot is 0 unregistered, 1 registered and free, else busy;
`useCount` is that of `shared_locks_array_ptr`. -/
structure Mutex (T : Type) where
  wantXLock : Bool
  sharedLocks : List Nat
  useCount : Nat
  recursiveXLockCount : Nat
  ownerThreadId : Option T

/-- A thread: the index its `thread_local_index_hashmap` has for the mutex, and how many exclusive
locks, shared locks in its slot and shared locks through `want_x_lock` it has. -/
structure Thread where
  pc : PC
  index : Option Nat
  exclusives : Nat
  shareds : Nat
  spilled : Nat
  deriving DecidableEq, Repr

structure State (T : Type) where
  mutex : Mutex T
  threads : T → Thread

/-- The calls of a thread, and its next step inside a call. -/
inductive Act
  | lockShared
  | unlockShared
  | lock
  | unlock
  | unregisterThread
  | advance
  deriving DecidableEq, Repr

namespace Mutex

variable {T : Type}

/-- The constructor, for `contention_free_count` slots. -/
def make (T : Type) (contentionFreeCount : Nat) : Mutex T :=
  ⟨false,List.replicate contentionFreeCount 0,1,0,none⟩

def setSlot (m : Mutex T) (i v : Nat) : Mutex T := { m with sharedLocks := m.sharedLocks.set i v }

@[simp] theorem wantXLock_setSlot (m : Mutex T) (i v : Nat) :
    (m.setSlot i v).wantXLock=m.wantXLock := rfl

@[simp] theorem sharedLocks_setSlot (m : Mutex T) (i v : Nat) :
    (m.setSlot i v).sharedLocks=m.sharedLocks.set i v := rfl

@[simp] theorem recursiveXLockCount_setSlot (m : Mutex T) (i v : Nat) :
    (m.setSlot i v).recursiveXLockCount=m.recursiveXLockCount := rfl

@[simp] theorem ownerThreadId_setSlot (m : Mutex T) (i v : Nat) :
    (m.setSlot i v).ownerThreadId=m.ownerThreadId := rfl

def slot (m : Mutex T) (x : Thread) : Option Nat := x.index.bind fun i => m.sharedLocks[i]?

end Mutex

namespace Thread

def goto (x : Thread) (pc : PC) : Thread := { x with pc := pc }

/-- The locks a thread has that `want_x_lock` guards. -/
@[simp] def owned (x : Thread) : Nat := x.exclusives+x.spilled

end Thread

section Steps

variable {T : Type} [DecidableEq T]

/-- The next atomic step inside a call. A loop that goes round once more leaves all as it is, as
does a spurious failure of `compare_exchange_weak`. -/
def advance (m : Mutex T) (t : T) (x : Thread) : Option (Mutex T × Thread) :=
  match x.pc with
  | .idle => none
  | .loadUseCount =>
    if m.useCount ≤ m.sharedLocks.length then some (m,x.goto (.loadSlot 0))
    else some (m,x.goto (.loadOwner true))
  | .loadSlot i =>
    match m.sharedLocks[i]? with
    | none => some (m,x.goto (.loadOwner true))
    | some v => some (m,x.goto (if v=0 then .exchangeSlot i else .loadSlot (i+1)))
  | .exchangeSlot i =>
    if m.sharedLocks[i]?=some 0 then
      some (m.setSlot i 1,{ x with pc := .addUseCount, index := some i })
    else some (m,x.goto (.loadSlot (i+1)))
  | .addUseCount => some ({ m with useCount := m.useCount+1 },x.goto .loadDepth)
  | .loadDepth => (m.slot x).map fun depth => (m,x.goto (.storeDepth depth))
  | .storeDepth depth =>
    x.index.map fun i =>
      if 1 < depth then
        (m.setSlot i (depth+1),{ x with pc := .idle, shareds := x.shareds+1 })
      else (m.setSlot i (depth+1),x.goto (.loadWant depth))
  | .loadWant depth =>
    if m.wantXLock then some (m,x.goto (.storeBack depth))
    else some (m,{ x with pc := .idle, shareds := x.shareds+1 })
  | .storeBack depth => x.index.map fun i => (m.setSlot i depth,x.goto (.awaitWant depth))
  | .awaitWant depth =>
    if m.wantXLock then some (m,x) else some (m,x.goto (.storeAgain depth))
  | .storeAgain depth => x.index.map fun i => (m.setSlot i (depth+1),x.goto (.loadWant depth))
  | .loadOwner shared =>
    if m.ownerThreadId=some t then some (m,x.goto (.increment shared))
    else some (m,x.goto (.exchangeWant shared))
  | .exchangeWant shared =>
    if m.wantXLock then some (m,x)
    else some ({ m with wantXLock := true },x.goto (.storeOwner shared))
  | .storeOwner shared =>
    -- only `lock` waits for the slots
    some ({ m with ownerThreadId := some t },
      x.goto (if shared then .increment true else .scan 0))
  | .scan i =>
    match m.sharedLocks[i]? with
    | none => some (m,x.goto (.increment false))
    | some v => if 1 < v then some (m,x) else some (m,x.goto (.scan (i+1)))
  | .increment shared =>
    some ({ m with recursiveXLockCount := m.recursiveXLockCount+1 },
      if shared then { x with pc := .idle, spilled := x.spilled+1 }
      else { x with pc := .idle, exclusives := x.exclusives+1 })
  | .loadRelease => (m.slot x).map fun depth => (m,x.goto (.storeRelease depth))
  | .storeRelease depth =>
    x.index.map fun i => (m.setSlot i (depth-1),{ x with pc := .idle, shareds := x.shareds-1 })
  | .decrement shared =>
    let x := if shared then { x with spilled := x.spilled-1 }
      else { x with exclusives := x.exclusives-1 }
    some ({ m with recursiveXLockCount := m.recursiveXLockCount-1 },
      x.goto (if m.recursiveXLockCount-1=0 then .clearOwner else .idle))
  | .clearOwner => some ({ m with ownerThreadId := none },x.goto .clearWant)
  | .clearWant => some ({ m with wantXLock := false },x.goto .idle)
  | .loadUnregister =>
    (m.slot x).map fun v => (m,x.goto (if v=1 then .unregister else .idle))
  | .unregister =>
    match x.index,m.slot x with
    | some i,some v =>
      some (m.setSlot i (v-1),{ x with pc := .dropUseCount, index := none })
    | _,_ => none
  | .dropUseCount => some ({ m with useCount := m.useCount-1 },x.goto .idle)

/-- The start of a call. What a thread unlocks it has locked, and none that has only shared locks
calls `lock`. -/
def call (x : Thread) : Act → Option Thread
  | .lockShared => some (x.goto (if x.index.isSome then .loadDepth else .loadUseCount))
  | .unlockShared =>
    if x.index.isSome then if 0 < x.shareds then some (x.goto .loadRelease) else none
    else if 0 < x.spilled then some (x.goto (.decrement true)) else none
  | .lock =>
    if 0 < x.exclusives ∨ x.shareds=0 ∧ x.spilled=0 then some (x.goto (.loadOwner false)) else none
  | .unlock => if 0 < x.exclusives then some (x.goto (.decrement false)) else none
  | .unregisterThread => if x.index.isSome then some (x.goto .loadUnregister) else none
  | .advance => none

def act (m : Mutex T) (t : T) (x : Thread) : Act → Option (Mutex T × Thread)
  | .advance => advance m t x
  | c => if x.pc=.idle then (call x c).map fun x => (m,x) else none

namespace State

def next (s : State T) (t : T) (c : Act) : Option (State T) :=
  (act s.mutex t (s.threads t) c).map fun r => ⟨r.1,Function.update s.threads t r.2⟩

/-- The mutex just built, and threads that have not used it. -/
def initial (T : Type) (contentionFreeCount : Nat) : State T :=
  ⟨.make T contentionFreeCount,fun _ => ⟨.idle,none,0,0,0⟩⟩

end State

/-- All interleavings. -/
def machine (T : Type) [DecidableEq T] (contentionFreeCount : Nat) :
    Machine (State T) (T × Act) where
  start s := s=State.initial T contentionFreeCount
  next s l := s.next l.1 l.2

end Steps

end Allocators.ContentionFree
