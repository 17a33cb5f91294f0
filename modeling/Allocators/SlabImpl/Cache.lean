import Allocators.IndexList
import Allocators.Lib.BlockPool
import Allocators.Lib.Vector

/-! `SlabMemImpl::Slab` and the `SlabImpl::Cache` of such slabs. `none` is undefined behaviour. -/

namespace Allocators.SlabImpl

open Lib

/-- The static `vecMap`. -/
abbrev VecMap := List (Nat × List Nat)

def addToMap (vecMap : VecMap) (count : Nat) : VecMap :=
  match vecMap.lookup count with
  | none => (count,indices count) :: vecMap
  | some _ => vecMap

/-- `mem` is 0 where the slab holds no memory. -/
structure Slab where
  mem : Nat
  blockSize : Nat
  count : Nat
  availible : List Nat
  deriving DecidableEq, Repr

namespace Slab

/-- The constructor, over memory from `operator new`; a missing key of `vecMap` is the empty list. -/
def make (vecMap : VecMap) (mem blockSize count : Nat) : Slab :=
  ⟨mem,blockSize,count,(vecMap.lookup count).getD []⟩

/-- What a move leaves behind. -/
def moved (s : Slab) : Slab := { s with mem := 0, availible := [] }

def empty (s : Slab) : Bool := s.availible.length=s.count

/-- The slab, the memory and whether the slab is now full; `back` of an empty list is undefined. -/
def allocate (s : Slab) : Option (Slab × Nat × Bool) :=
  match s.availible.getLast? with
  | none => none
  | some idx =>
    let availible := s.availible.dropLast
    some ({ s with availible := availible },s.mem+idx*s.blockSize,availible.isEmpty)

def deallocate (s : Slab) (ptr : Nat) : Slab :=
  let idx := (ptr-s.mem)/s.blockSize
  { s with availible := s.availible ++ [toIndexSizeT idx] }

def containsMem (s : Slab) (ptr : Nat) : Bool :=
  decide (s.mem ≤ ptr) && decide (ptr < s.mem+s.blockSize*s.count)

end Slab

/-- The three `SlabStore`s. -/
inductive Store
  | slabsFree
  | slabsPart
  | slabsFull
  deriving DecidableEq, Repr

/-- An iterator: the store and the position in it. -/
abbrev It := Store × Nat

structure Cache where
  count : Nat
  blockSize : Nat
  myCapacity : Nat
  mySize : Nat
  slabsFree : List Slab
  slabsPart : List Slab
  slabsFull : List Slab
  deriving DecidableEq, Repr

namespace Cache

def store (c : Cache) : Store → List Slab
  | .slabsFree => c.slabsFree
  | .slabsPart => c.slabsPart
  | .slabsFull => c.slabsFull

def setStore (c : Cache) (slabs : List Slab) : Store → Cache
  | .slabsFree => { c with slabsFree := slabs }
  | .slabsPart => { c with slabsPart := slabs }
  | .slabsFull => { c with slabsFull := slabs }

def info (c : Cache) : CacheInfo := ⟨c.mySize,c.myCapacity,c.blockSize,c.count⟩

/-- The slab an iterator refers to. -/
def deref (c : Cache) (it : It) : Option Slab := (c.store it.1)[it.2]?

/-- Writes the slab an iterator refers to. -/
def assign (c : Cache) (it : It) (slab : Slab) : Cache :=
  c.setStore ((c.store it.1).set it.2 slab) it.1

variable (vecMap : VecMap)

def newSlab (c : Cache) (mem : Nat) : Cache :=
  { c with
    slabsFree := c.slabsFree ++ [Slab.make vecMap mem c.blockSize c.count]
    myCapacity := toSizeT (c.myCapacity+c.count) }

/-- `Cache(blockSize, count)`. -/
def make (mem blockSize count : Nat) : Cache :=
  newSlab vecMap ⟨count,blockSize,0,0,[],[],[]⟩ mem

def findFreeSlab (c : Cache) (mem : Nat) : Cache × It :=
  if c.slabsPart ≠ [] then (c,(.slabsPart,0))
  else if c.slabsFree=[] then (newSlab vecMap c mem,(.slabsFree,0))
  else (c,(.slabsFree,0))

/-- `to.emplace_back(std::move(*it)); std::swap(*it, from.back()); from.pop_back();` and the
iterator to the last of `to`. -/
def splice (c : Cache) (dest source : Store) (it : It) : Option (Cache × It) :=
  match c.deref it with
  | none => none
  | some slab =>
    let c := (c.setStore (c.store dest ++ [slab]) dest).assign it slab.moved
    match (c.store source).getLast? with
    | none => none
    | some back =>
      let c := c.setStore ((c.store source).dropLast ++ [slab.moved]) source
      let c := c.assign it back
      let c := c.setStore (c.store source).dropLast source
      some (c,(dest,(c.store dest).length-1))

/-- `allocate`, where `operator new` would return `mem`. -/
def allocate (c : Cache) (mem : Nat) : Option (Cache × Nat) := do
  let (c,it) := findFreeSlab vecMap c mem
  let (slab,ptr,full) ← (← c.deref it).allocate
  let c := c.assign it slab
  let c ← if it.1=.slabsFree then (·.1) <$> c.splice .slabsPart it.1 it else some c
  let c ← if full then (·.1) <$> c.splice .slabsFull it.1 it else some c
  some ({ c with mySize := c.mySize+1 },ptr)

/-- The search from the back; `none` is `std::end`. -/
def searchStore (c : Cache) (s : Store) (ptr : Nat) : Option It :=
  ((List.range (c.store s).length).reverse.find? fun i =>
    (c.store s)[i]?.any (fun slab => slab.containsMem ptr)).map fun i => (s,i)

/-- `deallocate`. After the first splice `store` still names the full slabs. -/
def deallocate (c : Cache) (ptr : Nat) : Option Cache := do
  let (c,store,it) ←
    match c.searchStore .slabsFull ptr with
    | some it => (fun r => (r.1,Store.slabsFull,r.2)) <$> c.splice .slabsPart .slabsFull it
    | none => (fun it => (c,Store.slabsPart,it)) <$> c.searchStore .slabsPart ptr
  let slab := (← c.deref it).deallocate ptr
  let c := c.assign it slab
  let c ← if slab.empty then (·.1) <$> c.splice .slabsFree store it else some c
  some { c with mySize := c.mySize-1 }

def freeAll (c : Cache) : Cache :=
  { c with slabsFree := [], slabsPart := [], slabsFull := [], myCapacity := 0, mySize := 0 }

/-- `freeEmpty`; the product is the source's. -/
def freeEmpty (c : Cache) : Cache :=
  { c with
    myCapacity := subSizeT c.myCapacity (toSizeT (c.slabsFree.length*c.blockSize))
    slabsFree := [] }

end Cache

end Allocators.SlabImpl
