import Allocators.IndexList
import Allocators.Lib.BlockPool
import Allocators.Lib.Vector

/-! `ImplSlabMulti::Slab` and `ImplSlabMulti::Cache`. Each function is what one thread does while
it holds the lock; an iterator is a position; `none` is undefined behaviour or `std::terminate`. -/

namespace Allocators.SlabMulti

open Lib Vector

/-- What a cache asks of `dispatcher`; `none` is an exception. -/
class Dispatch (δ : Type) where
  getIndicies : δ → Nat → Option (List Nat)
  getBlock : δ → Option Nat × δ

structure Slab where
  blockSize : Nat
  count : Nat
  availible : List Nat
  foreigns : List Nat
  deriving DecidableEq, Repr

namespace Slab

def empty (s : Slab) : Bool := decide (s.availible.length+s.foreigns.length=s.count)

def size (s : Slab) : Nat := s.count-(s.availible.length+s.foreigns.length)

def full (s : Slab) : Bool := s.availible.isEmpty && s.foreigns.isEmpty

/-- The slab, the memory and whether `availible` is now empty. -/
def allocate (s : Slab) (mem : Nat) : Option (Slab × Nat × Bool) :=
  match s.availible.getLast? with
  | none => none
  | some idx =>
    let availible := s.availible.dropLast
    some ({ s with availible := availible },mem+idx*s.blockSize,availible.isEmpty)

def deallocate (s : Slab) (ptr mem : Nat) (thisThread : Bool) : Slab :=
  let idx := (ptr-mem)/s.blockSize
  if thisThread then { s with availible := s.availible ++ [toIndexSizeT idx] }
  else { s with foreigns := s.foreigns ++ [toIndexSizeT idx] }

def mergeForeigns (s : Slab) : Slab :=
  { s with availible := s.availible ++ s.foreigns, foreigns := [] }

def containsMem (ptr mem blockSize count : Nat) : Bool :=
  decide (mem ≤ ptr) && decide (ptr < mem+blockSize*count)

end Slab

/-- `Cache`; the owner's iterators `actBlock` and `actMem` are kept as the two positions they are. -/
structure Cache where
  mySize : Nat
  myCapacity : Nat
  count : Nat
  blockSize : Nat
  threshold : Nat
  slabs : List Slab
  ptrs : List Nat
  actBlock : Nat
  actMem : Nat
  deriving DecidableEq, Repr

/-- What `deallocate` decides under the shared lock; the position is that of `it` and `mit`. -/
inductive Decision
  | nothing
  | splice (it : Nat)
  | toDispatch (it : Nat)
  deriving DecidableEq, Repr

namespace Cache

variable {δ : Type} [Dispatch δ]

/-- `MIN_SLABS`. -/
def minSlabs : Nat := 1

/-- `addCache`; `false` is `std::bad_alloc` from `getBlock`. The constructor of `Slab` is
`noexcept`. -/
def addCache (d : δ) (c : Cache) : Option (δ × Cache × Bool) :=
  match Dispatch.getIndicies d c.blockSize with
  | none => none
  | some availible =>
    let c := { c with slabs := c.slabs ++ [⟨c.blockSize,c.count,availible,[]⟩] }
    match Dispatch.getBlock d with
    | (none,d) => some (d,c,false)
    | (some mem,d) =>
      some (d,{ c with ptrs := c.ptrs ++ [mem], myCapacity := c.myCapacity+c.count },true)

/-- `Cache(count, blockSize)`; `freeThreshold` is a quarter. -/
def make (d : δ) (count blockSize : Nat) : Option (δ × Cache × Bool) :=
  addCache d ⟨0,0,count,blockSize,count/4,[],[],0,0⟩

/-- `spliceBoth(actBlock, actMem, sit, mit)`; `splice` moves towards the front only. Its `memmove`
is taken to relocate slabs: a slab has no pointer into itself in the library of Visual Studio, which
the code is for. -/
def spliceBoth (c : Cache) (it : Nat) : Option Cache :=
  if c.actBlock ≤ it ∧ it < c.slabs.length ∧ c.actMem ≤ it ∧ it < c.ptrs.length then
    some { c with
      slabs := moveBefore c.slabs c.actBlock it
      actBlock := c.actBlock+1
      ptrs := moveBefore c.ptrs c.actMem it
      actMem := c.actMem+1 }
  else none

/-- `memToDispatch(sit, mit)`. -/
def memToDispatch (c : Cache) (it : Nat) : Option Cache :=
  if it < c.slabs.length ∧ it < c.ptrs.length then
    let c := { c with myCapacity := c.myCapacity-c.count }
    if it ≠ c.actBlock then
      if c.actBlock < it then
        some { c with
          slabs := (swapBack c.slabs it).dropLast
          ptrs := (swapBack c.ptrs it).dropLast }
      else
        let idx := c.actBlock-1
        some { c with
          slabs := c.slabs.eraseIdx it
          ptrs := c.ptrs.eraseIdx it
          actBlock := idx
          actMem := idx }
    else
      let slabs := (swapBack c.slabs c.actBlock).dropLast
      let ptrs := (swapBack c.ptrs c.actMem).dropLast
      some { c with
        slabs := slabs
        ptrs := ptrs
        actBlock := slabs.length-1
        actMem := ptrs.length-1 }
  else none

/-- What `allocate` does when the active slab's `availible` ran empty. -/
def possiblyFull (d : δ) (c : Cache) : Option (δ × Cache × Bool) :=
  match c.slabs[c.actBlock]? with
  | none => none
  | some slab =>
    if !slab.full then
      some (d,{ c with slabs := c.slabs.set c.actBlock slab.mergeForeigns },true)
    else if c.actBlock ≠ 0 then
      some (d,{ c with actBlock := c.actBlock-1, actMem := c.actMem-1 },true)
    else
      let idx := c.actBlock
      match addCache d c with
      | none => none
      | some (d,c,false) => some (d,c,false)
      | some (d,c,true) =>
        some (d,{ c with
          slabs := swapBack c.slabs idx
          ptrs := swapBack c.ptrs idx
          actBlock := idx
          actMem := idx },true)

/-- `allocate`; a missing pointer is `std::bad_alloc`. -/
def allocate (d : δ) (c : Cache) : Option (δ × Cache × Option Nat) :=
  match c.slabs[c.actBlock]?,c.ptrs[c.actMem]? with
  | some slab,some mem =>
    match slab.allocate mem with
    | none => none
    | some (slab,ptr,full) =>
      let c := { c with slabs := c.slabs.set c.actBlock slab }
      match if full then possiblyFull d c else some (d,c,true) with
      | none => none
      | some (d,c,false) => some (d,c,none)
      | some (d,c,true) => some (d,{ c with mySize := c.mySize+1 },some ptr)
  | _,_ => none

/-- The search of `deallocate` from `mit` up to `last`, its `E`; `some none` is its `return false`. -/
def searchLoop (c : Cache) (ptr : Nat) : Nat → Nat → Nat → Option (Option Nat)
  | 0,_,_ => none
  | fuel+1,mit,last =>
    match c.ptrs[mit]? with
    | none => none
    | some mem =>
      if Slab.containsMem ptr mem c.blockSize c.count then some (some mit)
      else if mit+1=last then
        if last=c.actMem ∨ 0=c.actMem then some none
        else searchLoop c ptr fuel 0 c.actMem
      else searchLoop c ptr fuel (mit+1) last

def search (c : Cache) (ptr : Nat) : Option (Option Nat) :=
  searchLoop c ptr c.ptrs.length c.actMem c.ptrs.length

/-- The choice after `emptyAndSize`. -/
def decision (c : Cache) (it : Nat) (slab : Slab) : Decision :=
  if slab.size ≤ c.threshold ∧ c.actBlock < it then .splice it
  else if slab.empty ∧ minSlabs < c.slabs.length ∧ c.myCapacity-c.count < c.mySize then
    .toDispatch it
  else .nothing

/-- The part of `deallocate` under the shared lock; a missing decision is `return false`. -/
def locate (c : Cache) (ptr : Nat) (thisThread : Bool) : Option (Cache × Option Decision) :=
  match search c ptr with
  | none => none
  | some none => some (c,none)
  | some (some mit) =>
    match c.slabs[mit]?,c.ptrs[mit]? with
    | some slab,some mem =>
      let slab := slab.deallocate ptr mem thisThread
      let c := { c with slabs := c.slabs.set mit slab }
      some (c,some (c.decision mit slab))
    | _,_ => none

/-- The part of `deallocate` after the shared lock. -/
def rearrange (c : Cache) (decision : Decision) : Option Cache :=
  let next := match decision with
    | .nothing => some c
    | .splice it => spliceBoth c it
    | .toDispatch it => memToDispatch c it
  next.map fun c => { c with mySize := c.mySize-1 }

/-- `deallocate`; the flag is its result. -/
def deallocate (c : Cache) (ptr : Nat) (thisThread : Bool) : Option (Cache × Bool) :=
  match locate c ptr thisThread with
  | none => none
  | some (c,none) => some (c,false)
  | some (c,some decision) => (rearrange c decision).map fun c => (c,true)

end Cache

end Allocators.SlabMulti
