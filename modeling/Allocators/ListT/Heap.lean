import Allocators.Lib.Lifetime
import Allocators.ListT.Refinement

/-! `ListT` objects that are moved and destroyed, with every `new` and `delete` in a log. -/

namespace Allocators.ListT

open Function Lib Sequence

variable {α : Type}

/-- The members of a list object. A list that was moved from has null pointers. -/
structure Object where
  myHead : Option Nat
  myEnd : Option Nat
  mySize : Nat
  deriving DecidableEq, Repr

namespace Object

/-- The list, where there are sentinels. -/
def list? : Object → Option ListT
  | ⟨some myHead,some myEnd,mySize⟩ => some ⟨myHead,myEnd,mySize⟩
  | _ => none

def ofList (l : ListT) : Object := ⟨some l.myHead,some l.myEnd,l.mySize⟩

end Object

/-- The nodes and the list objects, and what was constructed by `new` and destroyed by `delete` so
far. -/
structure Heap (α : Type) where
  nodes : Nat → Option (Node α)
  objects : Nat → Option Object
  log : List (LifeEvent Nat)

namespace Heap

/-- What a function that follows the pointers of a list sees. -/
def memory (h : Heap α) : Memory α := ⟨h.nodes,fun o => (h.objects o).bind Object.list?⟩

/-- The heap after such a function wrote to its memory. -/
def put (h : Heap α) (m : Memory α) : Heap α :=
  { h with
    nodes := m.nodes
    objects := fun o =>
      match m.lists o with
      | some l => some (.ofList l)
      | none => (h.objects o).filter fun x => x.list?.isNone }

def lift (h : Heap α) (f : Memory α → Option (Memory α)) : Option (Heap α) :=
  (f h.memory).map h.put

/-- `constructNode`, where `operator new` returns `n`. -/
def constructNode (h : Heap α) (n : Nat) (data : α) : Heap α :=
  { h with
    nodes := update h.nodes n (some ⟨data,none,none⟩)
    log := h.log ++ [.construct n] }

/-- `delete p`. -/
def delete (h : Heap α) (p : Nat) : Option (Heap α) :=
  (h.nodes p).map fun _ => { h with nodes := update h.nodes p none, log := h.log ++ [.destroy p] }

/-- `delete` of a pointer that may be null. -/
def deletePtr (h : Heap α) : Option Nat → Option (Heap α)
  | none => some h
  | some p => h.delete p

/-- The default constructor of the list at `this`. -/
def construct [Inhabited α] (h : Heap α) (this myHead myEnd : Nat) : Option (Heap α) :=
  let h := h.constructNode myHead default
  let h := h.constructNode myEnd default
  let h := { h with objects := update h.objects this (some ⟨some myHead,some myEnd,0⟩) }
  h.lift fun m => do
    let m ← m.setNext myEnd none
    let m ← m.setPrev myHead none
    let m ← m.setNext myHead (some myEnd)
    m.setPrev myEnd (some myHead)

def splice (h : Heap α) (this pos other it : Nat) : Option (Heap α) :=
  h.lift fun m => m.splice this pos other it

def emplaceBack (h : Heap α) (this n : Nat) (data : α) : Option (Heap α) :=
  (h.constructNode n data).lift fun m => do m.insertAt this n (← m.lists this).myEnd

def emplace (h : Heap α) (this it n : Nat) (data : α) : Option (Heap α) :=
  (h.constructNode n data).lift fun m => m.insertAt this n it

/-- There is no `return` behind the statements. -/
def erase (h : Heap α) (this pos : Nat) : Option (Heap α) := do
  let h ← h.lift fun m => do
    let m ← m.setSize this fun k => subSizeT k 1
    m.unlink pos
  let _ ← h.delete pos
  none

/-- The loop of `clear` and of the destructor from `it` to `last`, for a number of steps; `++it`
stays where there is no next. -/
def deleteLoop (last : Option Nat) : Nat → Heap α → Nat → Option (Heap α)
  | 0,_,_ => none
  | fuel+1,h,it =>
    if some it=last then some h
    else do
      let n ← h.nodes it
      let h ← h.delete it
      deleteLoop last fuel h (n.next.getD it)

def clear (h : Heap α) (this : Nat) : Option (Heap α) := do
  let l ← h.memory.lists this
  let it ← (← h.nodes l.myHead).next
  let h ← h.deleteLoop (some l.myEnd) (l.mySize+1) it
  h.lift fun m => do
    let m ← m.setSize this fun _ => 0
    let m ← m.setNext l.myHead (some l.myEnd)
    m.setPrev l.myEnd (some l.myHead)

/-- `otherMove`; the counter of `other` stays. -/
def otherMove (h : Heap α) (this other : Nat) : Option (Heap α) := do
  let o ← h.objects other
  let h := { h with objects := update h.objects this (some ⟨o.myHead,o.myEnd,o.mySize⟩) }
  some { h with objects := update h.objects other (some { o with myHead := none, myEnd := none }) }

/-- `ListT(ListT&& other)`. -/
def moveConstruct (h : Heap α) (this other : Nat) : Option (Heap α) := h.otherMove this other

/-- `operator=(ListT&& other)`. -/
def moveAssign (h : Heap α) (this other : Nat) : Option (Heap α) := do
  let _ ← h.objects this
  h.otherMove this other

/-- The loop of `~ListT`, which is there if `MyHead` is not null and `MySize` not zero. -/
def destroyElements (h : Heap α) (o : Object) : Option (Heap α) :=
  match o.myHead with
  | none => some h
  | some myHead =>
    if o.mySize=0 then some h
    else do
      let it ← (← h.nodes myHead).next
      h.deleteLoop o.myEnd (o.mySize+1) it

/-- `~ListT`. -/
def destroy (h : Heap α) (this : Nat) : Option (Heap α) := do
  let o ← h.objects this
  let h ← h.destroyElements o
  let h ← h.deletePtr o.myHead
  let h ← h.deletePtr o.myEnd
  some { h with objects := update h.objects this none }

end Heap

/-- A call of a list, or one that makes, moves or ends a list object. -/
inductive LifeOp (α : Type)
  | call (op : Op α)
  | moveConstruct (this other : Nat)
  | moveAssign (this other : Nat)
  | destroy (this : Nat)

namespace LifeOp

def run [Inhabited α] (h : Heap α) : LifeOp α → Option (Heap α)
  | .call (.construct this myHead myEnd) => h.construct this myHead myEnd
  | .call (.emplace this it n data) => h.emplace this it n data
  | .call (.emplaceBack this n data) => h.emplaceBack this n data
  | .call (.erase this pos) => h.erase this pos
  | .call (.clear this) => h.clear this
  | .call (.splice this pos other it) => h.splice this pos other it
  | .moveConstruct this other => h.moveConstruct this other
  | .moveAssign this other => h.moveAssign this other
  | .destroy this => h.destroy this

/-- The operation on sequences; that of a list without nodes is empty. -/
def apply (seqs : Nat → List (Nat × α)) : LifeOp α → Nat → List (Nat × α)
  | .call op => op.apply seqs
  | .moveConstruct this other | .moveAssign this other =>
    update (update seqs this (seqs other)) other []
  | .destroy this => update seqs this []

end LifeOp

/-- The heap, and the sequences the lists are meant to be. -/
structure Estate (α : Type) where
  heap : Heap α
  seqs : Nat → List (Nat × α)

namespace Estate

def world (w : Estate α) : World α := ⟨w.heap.memory,w.seqs⟩

/-- There is a list object at `this`, with or without nodes. -/
def Living (w : Estate α) (this : Nat) : Prop := (w.heap.objects this).isSome=true

/-- The list at `this` was moved from. -/
def Bare (w : Estate α) (this : Nat) : Prop := w.Living this ∧ ¬ w.world.Constructed this

/-- The calls of a list that was moved from; its only position is its end, which is null. -/
def ValidBare (w : Estate α) : Op α → Prop
  | .emplace this it n _ => w.Bare this ∧ it=0 ∧ w.world.Fresh n
  | .emplaceBack this n _ => w.Bare this ∧ w.world.Fresh n
  | .clear this => w.Bare this
  | .splice this pos other it => w.Bare this ∧ pos=0 ∧ w.world.Constructed other ∧
      it ∈ names (w.seqs other)
  | .construct _ _ _ | .erase _ _ => False

/-- Valid positions in lists; objects are made where there is none, and moved from and destroyed
where there is one. -/
def Valid (w : Estate α) : LifeOp α → Prop
  | .call (.construct this myHead myEnd) =>
    ¬ w.Living this ∧ w.world.Valid (.construct this myHead myEnd)
  | .call op => w.world.Valid op ∨ w.ValidBare op
  | .moveConstruct this other => ¬ w.Living this ∧ w.Living other
  | .moveAssign this other => this ≠ other ∧ w.Living this ∧ w.Living other
  | .destroy this => w.Living this

/-- The call is no `erase` and, if it writes to the links of the list, that list was not moved
from. -/
def Returns (w : Estate α) : LifeOp α → Prop
  | .call (.erase _ _) => False
  | .call (.emplace this _ _ _) | .call (.emplaceBack this _ _) | .call (.clear this)
  | .call (.splice this _ _ _) => w.world.Constructed this
  | _ => True

/-- A move assignment is made only to a list that was moved from. -/
def Spares (w : Estate α) : LifeOp α → Prop
  | .moveAssign this _ => (w.heap.objects this).bind Object.myHead=none
  | _ => True

instance (w : Estate α) (this : Nat) : Decidable (w.Living this) :=
  inferInstanceAs (Decidable (_=true))

instance (w : Estate α) (this : Nat) : Decidable (w.Bare this) :=
  inferInstanceAs (Decidable (_ ∧ _))

instance (w : Estate α) : (op : Op α) → Decidable (w.ValidBare op)
  | .emplace .. | .emplaceBack .. | .splice .. => inferInstanceAs (Decidable (_ ∧ _))
  | .clear this => inferInstanceAs (Decidable (w.Bare this))
  | .construct .. | .erase .. => inferInstanceAs (Decidable False)

instance (w : Estate α) : (op : LifeOp α) → Decidable (w.Valid op)
  | .call (.construct ..) => inferInstanceAs (Decidable (_ ∧ _))
  | .call (.emplace ..) | .call (.emplaceBack ..) | .call (.erase ..) | .call (.clear _)
  | .call (.splice ..) => inferInstanceAs (Decidable (_ ∨ _))
  | .moveConstruct .. => inferInstanceAs (Decidable (_ ∧ _))
  | .moveAssign .. => inferInstanceAs (Decidable (_ ∧ _))
  | .destroy this => inferInstanceAs (Decidable (w.Living this))

variable [Inhabited α]

def step (w : Estate α) (op : LifeOp α) : Option (Estate α) :=
  if w.Valid op then (op.run w.heap).map fun h => ⟨h,op.apply w.seqs⟩ else none

def machine (α : Type) [Inhabited α] : Machine (Estate α) (LifeOp α) where
  start w := w=⟨⟨fun _ => none,fun _ => none,[]⟩,fun _ => []⟩
  next := step

end Estate

end Allocators.ListT
