import Allocators.Lib.LockOrder
import Allocators.SlabMulti.Interface

/-! The locks `Interface` takes. Every function is the locking of the one it is named after, on the
state that it finds; other threads may have changed the state between two sections of a call. -/

namespace Allocators.SlabMulti

open Lib LockOrder

/-- The mutex of the map, those of the caches, the spin lock at a position of `slabs`, and the
mutex of `dispatcher`. -/
inductive Lock (T : Type)
  | buckets
  | cache (id : T) (k : Nat)
  | slab (id : T) (k i : Nat)
  | dispatcher
  deriving DecidableEq

/-- What is held when a lock is taken has a lower rank. -/
def Lock.rank {T : Type} : Lock T → Nat
  | .buckets => 0
  | .cache _ _ => 1
  | .slab _ _ _ => 2
  | .dispatcher => 2

section Paths

variable {T : Type} (spill : Lock T → Bool)

/-- `std::lock_guard`. -/
def guarded (l : Lock T) (body : List (Op (Lock T))) : List (Op (Lock T)) :=
  .lock l :: (body ++ [.release l])

/-- `std::shared_lock`; a thread that got no slot in the mutex takes its spill lock. -/
def reading (l : Lock T) (body : List (Op (Lock T))) : List (Op (Lock T)) :=
  (if spill l then .claim l else .lockShared l) :: (body ++ [.release l])

namespace Cache

def possiblyFullLocks (c : Cache) (id : T) (k : Nat) : List (Op (Lock T)) :=
  match c.slabs[c.actBlock]? with
  | none => []
  | some slab =>
    if !slab.full then guarded (.slab id k c.actBlock) []
    else if c.actBlock ≠ 0 then []
    else guarded .dispatcher []

def allocateLocks (c : Cache) (id : T) (k : Nat) : List (Op (Lock T)) :=
  match c.slabs[c.actBlock]?,c.ptrs[c.actMem]? with
  | some slab,some mem =>
    match slab.allocate mem with
    | some (slab,_,true) =>
      guarded (.cache id k)
        (possiblyFullLocks { c with slabs := c.slabs.set c.actBlock slab } id k)
    | _ => []
  | _,_ => []

/-- The spin lock is taken for the block of another thread and for `emptyAndSize`. -/
def deallocateLocks (c : Cache) (id : T) (k ptr : Nat) (thisThread : Bool) : List (Op (Lock T)) :=
  match search c ptr,locate c ptr thisThread with
  | some (some it),some (_,some decision) =>
    reading spill (.cache id k)
      ((if thisThread then [] else guarded (.slab id k it) []) ++ guarded (.slab id k it) []) ++
    match decision with
    | .nothing => []
    | _ => guarded (.cache id k) []
  | _,_ => reading spill (.cache id k) []

end Cache

namespace Bucket

/-- `dispatcher.getBlock` for every cache, up to one that throws. -/
def makeLocks (d : GlobalDispatch) : List (Nat × Nat) → List (Op (Lock T))
  | [] => []
  | (count,blockSize) :: rest =>
    match Cache.make d count blockSize with
    | none => []
    | some (_,_,false) => guarded .dispatcher []
    | some (d,_,true) => guarded .dispatcher [] ++ makeLocks d rest

def allocateLocks (b : Bucket) (id : T) (idx : Option Nat) : List (Op (Lock T)) :=
  match idx.bind fun k => (b.caches[k]?).map fun cache => (k,cache) with
  | some (k,cache) => cache.allocateLocks id k
  | none => []

def deallocateLocks (b : Bucket) (id : T) (ptr : Nat) (idx : Option Nat) (thisThread : Bool) :
    List (Op (Lock T)) :=
  match idx.bind fun k => (b.caches[k]?).map fun cache => (k,cache) with
  | some (k,cache) => cache.deallocateLocks spill id k ptr thisThread
  | none => []

end Bucket

namespace Interface

/-- The bucket is made before the map is locked. -/
def registerThreadLocks (d : GlobalDispatch) : List (Op (Lock T)) :=
  Bucket.makeLocks d (blocksPer.zip cacheSizes) ++
  match Bucket.make d with
  | some (_,some _) => guarded .buckets []
  | _ => []

variable [DecidableEq T]

def findAllocLocks (s : Interface T) (id : T) (idx : Option Nat) : List (Op (Lock T)) :=
  reading spill .buckets <|
    SmpMap.findDo s.buckets id fun it vec =>
      match vec[it]? with
      | none => []
      | some (key,bucket) => bucket.allocateLocks key idx

/-- `allocate`, which finds `s`, after that `d` and at last `s'`. -/
def allocateLocks (s : Interface T) (d : GlobalDispatch) (s' : Interface T) (id : T)
    (size count : Nat) : List (Op (Lock T)) :=
  let bytes := toSizeT (size*count)
  let idx := findCacheIdx bytes
  findAllocLocks spill s id idx ++
  match findAlloc s id idx bytes with
  | some (_,some 0) => registerThreadLocks d ++
    match Bucket.make d with
    | some (_,some _) => findAllocLocks spill s' id idx
    | _ => []
  | _ => []

def findDeallocLocks (s : Interface T) (id : T) (ptr : Nat) (idx : Option Nat) :
    List (Op (Lock T)) :=
  reading spill .buckets <|
    SmpMap.findDo s.buckets id fun it cont =>
      match cont[it]? with
      | none => []
      | some (key,bucket) => bucket.deallocateLocks spill key ptr idx true

/-- The loop of `iterate`, which stops at the bucket that takes the block. -/
def deallocElsewhereLocks (d : GlobalDispatch) (id : T) (ptr : Nat) (idx : Option Nat)
    (bytes : Nat) : List (T × Bucket) → List (Op (Lock T))
  | [] => []
  | pair :: rest =>
    (if pair.1 ≠ id then pair.2.deallocateLocks spill pair.1 ptr idx false else []) ++
    match deallocElsewhere id ptr idx bytes (d,false) pair with
    | some (_,_,false) => deallocElsewhereLocks d id ptr idx bytes rest
    | _ => []

/-- `deallocate`, which finds `s`, after that `s'` and at last `d`. -/
def deallocateLocks (s s' : Interface T) (d : GlobalDispatch) (id : T) (ptr size n : Nat) :
    List (Op (Lock T)) :=
  let bytes := toSizeT (size*n)
  let idx := findCacheIdx bytes
  findDeallocLocks spill s id ptr idx ++
  match findDealloc s id ptr idx bytes with
  | none => []
  | some (_,found,registered) =>
    (if found then [] else reading spill .buckets
      (deallocElsewhereLocks spill s'.dispatcher id ptr idx bytes s'.buckets)) ++
    if registered then [] else registerThreadLocks d

end Interface

/-- A call, with what it finds and the mutexes that have no slot for the thread. -/
inductive SeenCall (T : Type)
  | allocate (spill : Lock T → Bool) (s : Interface T) (d : GlobalDispatch) (s' : Interface T)
      (size count : Nat)
  | deallocate (spill : Lock T → Bool) (s s' : Interface T) (d : GlobalDispatch)
      (ptr size n : Nat)

def SeenCall.locks [DecidableEq T] (id : T) : SeenCall T → List (Op (Lock T))
  | .allocate spill s d s' size count => s.allocateLocks spill d s' id size count
  | .deallocate spill s s' d ptr size n => s.deallocateLocks spill s' d id ptr size n

/-- Threads that allocate and deallocate, as far as locks go. -/
def lockMachine (T : Type) [Fintype T] [DecidableEq T] :
    Machine (T → LockOrder.Thread (Lock T)) (Act T (SeenCall T)) := LockOrder.machine SeenCall.locks

end Paths

section Order

variable {T : Type} {spill : Lock T → Bool} {body : List (Op (Lock T))} {l : Lock T} {r : Nat}
  [DecidableEq T]

theorem balanced_guarded (hr : r ≤ l.rank) (h : Balanced Lock.rank (l.rank+1) body) :
    Balanced Lock.rank r (guarded l body) := .between hr (.inr (.inr rfl)) h

theorem balanced_reading (hr : r ≤ l.rank) (h : Balanced Lock.rank (l.rank+1) body) :
    Balanced Lock.rank r (reading spill l body) := by
  unfold reading
  cases spill l with
  | false => exact .between hr (.inl rfl) h
  | true => exact .between hr (.inr (.inl rfl)) h

namespace Cache

theorem balanced_possiblyFull (c : Cache) (id : T) (k : Nat) :
    Balanced Lock.rank 2 (c.possiblyFullLocks id k) := by
  unfold possiblyFullLocks
  cases c.slabs[c.actBlock]? with
  | none => exact .nil 2
  | some slab =>
    simp only
    split_ifs
    · exact balanced_guarded le_rfl (.nil _)
    · exact .nil 2
    · exact balanced_guarded le_rfl (.nil _)

theorem balanced_allocate (c : Cache) (id : T) (k : Nat) :
    Balanced Lock.rank 1 (c.allocateLocks id k) := by
  unfold allocateLocks
  split
  · split
    · exact balanced_guarded le_rfl (balanced_possiblyFull _ id k)
    · exact .nil 1
  · exact .nil 1

theorem balanced_deallocate (c : Cache) (id : T) (k ptr : Nat) (thisThread : Bool) :
    Balanced Lock.rank 1 (c.deallocateLocks spill id k ptr thisThread) := by
  have hslab : ∀ i, Balanced Lock.rank 2 (guarded (.slab id k i) []) := fun i =>
    balanced_guarded le_rfl (.nil _)
  unfold deallocateLocks
  split
  · next it _ decision _ _ =>
    refine .append (balanced_reading le_rfl (.append ?_ (hslab it))) ?_
    · cases thisThread with
      | true => exact .nil 2
      | false => exact hslab it
    · cases decision with
      | nothing => exact .nil 1
      | splice it | toDispatch it => exact balanced_guarded le_rfl (.nil _)
  · exact balanced_reading le_rfl (.nil _)

end Cache

namespace Bucket

theorem balanced_make (d : GlobalDispatch) (classes : List (Nat × Nat)) :
    Balanced Lock.rank 0 (makeLocks (T := T) d classes) := by
  have hd : Balanced Lock.rank 0 (guarded (.dispatcher : Lock T) []) :=
    balanced_guarded (Nat.zero_le _) (.nil _)
  induction classes generalizing d with
  | nil => exact .nil 0
  | cons x classes ih =>
    rw [makeLocks]
    split
    · exact .nil 0
    · exact hd
    · exact hd.append (ih _)

theorem balanced_allocate (b : Bucket) (id : T) (idx : Option Nat) :
    Balanced Lock.rank 1 (b.allocateLocks id idx) := by
  unfold allocateLocks
  split
  · exact Cache.balanced_allocate _ id _
  · exact .nil 1

theorem balanced_deallocate (b : Bucket) (id : T) (ptr : Nat) (idx : Option Nat)
    (thisThread : Bool) : Balanced Lock.rank 1 (b.deallocateLocks spill id ptr idx thisThread) := by
  unfold deallocateLocks
  split
  · exact Cache.balanced_deallocate _ id _ ptr thisThread
  · exact .nil 1

end Bucket

namespace Interface

theorem balanced_registerThread (d : GlobalDispatch) :
    Balanced Lock.rank 0 (registerThreadLocks (T := T) d) := by
  unfold registerThreadLocks
  refine .append (Bucket.balanced_make d _) ?_
  split
  · exact balanced_guarded le_rfl (.nil _)
  · exact .nil 0

theorem balanced_findAlloc (s : Interface T) (id : T) (idx : Option Nat) :
    Balanced Lock.rank 0 (s.findAllocLocks spill id idx) := by
  refine balanced_reading le_rfl ?_
  cases hb : s.buckets[SmpMap.find s.buckets id]? with
  | none =>
    simp only [SmpMap.findDo,hb]
    exact .nil 1
  | some x =>
    simp only [SmpMap.findDo,hb]
    exact Bucket.balanced_allocate x.2 x.1 idx

theorem balanced_allocate (s : Interface T) (d : GlobalDispatch) (s' : Interface T) (id : T)
    (size count : Nat) : Balanced Lock.rank 0 (s.allocateLocks spill d s' id size count) := by
  refine .append (balanced_findAlloc s id _) ?_
  split
  · refine .append (balanced_registerThread d) ?_
    split
    · exact balanced_findAlloc s' id _
    · exact .nil 0
  · exact .nil 0

theorem balanced_findDealloc (s : Interface T) (id : T) (ptr : Nat) (idx : Option Nat) :
    Balanced Lock.rank 0 (s.findDeallocLocks spill id ptr idx) := by
  refine balanced_reading le_rfl ?_
  cases hb : s.buckets[SmpMap.find s.buckets id]? with
  | none =>
    simp only [SmpMap.findDo,hb]
    exact .nil 1
  | some x =>
    simp only [SmpMap.findDo,hb]
    exact Bucket.balanced_deallocate x.2 x.1 ptr idx true

theorem balanced_deallocElsewhere (d : GlobalDispatch) (id : T) (ptr : Nat) (idx : Option Nat)
    (bytes : Nat) (buckets : List (T × Bucket)) :
    Balanced Lock.rank 1 (deallocElsewhereLocks spill d id ptr idx bytes buckets) := by
  induction buckets with
  | nil => exact .nil 1
  | cons pair rest ih =>
    rw [deallocElsewhereLocks]
    refine .append ?_ ?_
    · split_ifs
      · exact Bucket.balanced_deallocate _ _ ptr idx false
      · exact .nil 1
    · split
      · exact ih
      · exact .nil 1

theorem balanced_deallocate (s s' : Interface T) (d : GlobalDispatch) (id : T)
    (ptr size n : Nat) :
    Balanced Lock.rank 0 (s.deallocateLocks spill s' d id ptr size n) := by
  refine .append (balanced_findDealloc s id ptr _) ?_
  split
  · exact .nil 0
  · refine .append ?_ ?_
    · split_ifs
      · exact .nil 0
      · exact balanced_reading le_rfl (balanced_deallocElsewhere _ id ptr _ _ _)
    · split_ifs
      · exact .nil 0
      · exact balanced_registerThread d

end Interface

theorem SeenCall.ordered (id : T) (c : SeenCall T) : Ordered Lock.rank (c.locks id) [] := by
  cases c with
  | allocate spill s d s' size count =>
    exact (Interface.balanced_allocate s d s' id size count).ordered
  | deallocate spill s s' d ptr size n =>
    exact (Interface.balanced_deallocate s s' d id ptr size n).ordered

end Order

/-- Calls that overlap do not keep each other waiting for good: whatever each finds and however the
steps follow each other they come to an end, and when no thread has a next step all calls have
returned and no lock is held. -/
theorem calls_return {T : Type} [Fintype T] [DecidableEq T]
    {s s' : T → LockOrder.Thread (Lock T)} {is : List (Act T (SeenCall T))}
    (h : (lockMachine T).Reachable s) (his : ∀ a ∈ is, ¬ a.Begins)
    (hr : (lockMachine T).runFrom s is=some s') :
    is.length+work s' ≤ work s ∧ ((∀ t, advance s' t=none) → s'=fun _ => .idle) :=
  schedules SeenCall.ordered h his hr

/-- Two threads whose caches both have to grow. -/
def growing : Interface (Fin 2) :=
  let cache : Cache := ⟨0,1,1,64,0,[⟨64,1,[0],[]⟩],[4096],0,0⟩
  ⟨⟨⟨[],[],[]⟩,[8192,16384],1⟩,[(0,⟨[cache]⟩),(1,⟨[cache]⟩)]⟩

def growingCall : SeenCall (Fin 2) :=
  .allocate (fun _ => false) growing growing.dispatcher growing 8 1

theorem calls_return_growing : ∃ s s' : Fin 2 → LockOrder.Thread (Lock (Fin 2)),
    ∃ is : List (Act (Fin 2) (SeenCall (Fin 2))), (lockMachine (Fin 2)).Reachable s ∧
      (lockMachine (Fin 2)).runFrom s is=some s' ∧ is.length+work s' ≤ work s ∧
      s'=fun _ => .idle := by
  obtain ⟨s,hs,hp⟩ := (lockMachine (Fin 2)).reachable_of_runFrom (fun _ => .idle)
    [.begin 0 growingCall,.begin 1 growingCall]
    (fun s => ((lockMachine (Fin 2)).runFrom s
      (([0,1,0,0,1,1,0,0,0,1,1,1,0,0,1,1] : List (Fin 2)).map .advance)).any
        (fun s' => decide (∀ t, advance s' t=none))=true) rfl (by decide +kernel)
  obtain ⟨s',hr,hn⟩ := (Option.any_eq_true _ _).mp hp
  have hx := calls_return hs (by simp [Act.Begins]) hr
  exact ⟨s,s',_,hs,hr,hx.1,hx.2 (by simpa using hn)⟩

end Allocators.SlabMulti
