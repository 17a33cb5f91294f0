import Allocators.AllocHelpers
import Mathlib.Logic.Function.Basic

/-! `ListT`: lists of nodes in one memory. `none` is undefined behaviour. -/

namespace Allocators

/-- A list object; a node is its address. -/
structure ListT where
  myHead : Nat
  myEnd : Nat
  mySize : Nat
  deriving DecidableEq, Repr

namespace ListT

open Function

/-- A pointer is `none` if it is null. -/
structure Node (α : Type) where
  data : α
  next : Option Nat
  prev : Option Nat
  deriving DecidableEq, Repr

/-- The nodes that are allocated and the list objects, by their addresses. -/
structure Memory (α : Type) where
  nodes : Nat → Option (Node α)
  lists : Nat → Option ListT

namespace Memory

variable {α : Type}

/-- `p->next = q`. -/
def setNext (m : Memory α) (p : Nat) (q : Option Nat) : Option (Memory α) :=
  (m.nodes p).map fun n => { m with nodes := update m.nodes p (some { n with next := q }) }

/-- `p->prev = q`. -/
def setPrev (m : Memory α) (p : Nat) (q : Option Nat) : Option (Memory α) :=
  (m.nodes p).map fun n => { m with nodes := update m.nodes p (some { n with prev := q }) }

/-- An assignment to the `MySize` of a list. -/
def setSize (m : Memory α) (this : Nat) (f : Nat → Nat) : Option (Memory α) :=
  (m.lists this).map fun l =>
    { m with lists := update m.lists this (some { l with mySize := f l.mySize }) }

/-- `delete p`. -/
def delete (m : Memory α) (p : Nat) : Option (Memory α) :=
  (m.nodes p).map fun _ => { m with nodes := update m.nodes p none }

/-- `constructNode`, where `operator new` returns `n`. -/
def constructNode (m : Memory α) (n : Nat) (data : α) : Memory α :=
  { m with nodes := update m.nodes n (some ⟨data,none,none⟩) }

/-- The default constructor of the list at `this`. -/
def construct [Inhabited α] (m : Memory α) (this myHead myEnd : Nat) : Option (Memory α) := do
  let m := m.constructNode myHead default
  let m := m.constructNode myEnd default
  let m := { m with lists := update m.lists this (some ⟨myHead,myEnd,0⟩) }
  let m ← m.setNext myEnd none
  let m ← m.setPrev myHead none
  let m ← m.setNext myHead (some myEnd)
  m.setPrev myEnd (some myHead)

def insertAt (m : Memory α) (this n it : Nat) : Option (Memory α) := do
  let prev ← (← m.nodes it).prev
  let m ← m.setNext prev (some n)
  let m ← m.setNext n (some it)
  let m ← m.setPrev n (some prev)
  let m ← m.setPrev it (some n)
  m.setSize this fun k => toSizeT (k+1)

/-- The two lines that take a node out of its list, in `splice` and in `erase`. -/
def unlink (m : Memory α) (p : Nat) : Option (Memory α) := do
  let n ← m.nodes p
  let m ← m.setNext (← n.prev) n.next
  let n ← m.nodes p
  m.setPrev (← n.next) n.prev

def splice (m : Memory α) (this pos other it : Nat) : Option (Memory α) := do
  let m ← m.unlink it
  let m ← m.setSize other fun k => subSizeT k 1
  m.insertAt this it pos

def emplaceBack (m : Memory α) (this n : Nat) (data : α) : Option (Memory α) := do
  let m := m.constructNode n data
  m.insertAt this n (← m.lists this).myEnd

def emplace (m : Memory α) (this it n : Nat) (data : α) : Option (Memory α) :=
  (m.constructNode n data).insertAt this n it

/-- The statements of `erase`. -/
def eraseBody (m : Memory α) (this pos : Nat) : Option (Memory α) := do
  let m ← m.setSize this fun k => subSizeT k 1
  let m ← m.unlink pos
  m.delete pos

/-- `erase` is to return an `iterator`, and behind its statements there is no `return`. -/
def erase (m : Memory α) (this pos : Nat) : Option (Memory α) := do
  let _ ← m.eraseBody this pos
  none

/-- The loop of `clear` from `it`, for a number of steps; `++it` stays where there is no next. -/
def clearLoop (myEnd : Nat) : Nat → Memory α → Nat → Option (Memory α)
  | 0,_,_ => none
  | fuel+1,m,it =>
    if it=myEnd then some m
    else do
      let n ← m.nodes it
      let m ← m.delete it
      clearLoop myEnd fuel m (n.next.getD it)

def clear (m : Memory α) (this : Nat) : Option (Memory α) := do
  let l ← m.lists this
  let it ← (← m.nodes l.myHead).next
  let m ← clearLoop l.myEnd (l.mySize+1) m it
  let m ← m.setSize this fun _ => 0
  let m ← m.setNext l.myHead (some l.myEnd)
  m.setPrev l.myEnd (some l.myHead)

end Memory

end ListT

end Allocators
