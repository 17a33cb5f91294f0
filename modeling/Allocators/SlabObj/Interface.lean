import Allocators.Lib.Lifetime
import Allocators.SlabImpl.Traced

/-! `SlabObjImpl::Interface`. Its `Slab` is the one of `SlabMem` with `sizeof(T)` for the block
size, and has an object of type `T` in each block from its constructor to its destructor. -/

namespace Allocators.SlabObj

open Lib SlabImpl

/-- The objects of a slab, by address, in the order of the loops over them. -/
def objects (s : Slab) : List Nat := (List.range s.count).map s.region.block

/-- `Slab`'s constructor constructs all objects; its destructor returns at once where `mem` is
null, and else destroys all of them. -/
def effect : SlabImpl.Event → List (LifeEvent Nat)
  | .construct s => (objects s).map .construct
  | .destroy s => if s.mem=0 then [] else (objects s).map .destroy

def effects (es : List SlabImpl.Event) : List (LifeEvent Nat) := es.flatMap effect

/-- The pool with its client, and all that has happened to objects so far. -/
structure State where
  pool : Pool
  history : List (LifeEvent Nat)

/-- The calls of the interface; `mem` is where `operator new` would put the next slab. -/
inductive Call
  | addCache (count mem : Nat)
  | allocate (mem : Nat)
  | deallocate (ptr : Nat)
  | freeEmpty
  | freeAll
  deriving DecidableEq

variable (pgSz sizeofT : Nat)

/-- Before the first `addCache`. -/
def initial (vecMap : VecMap) : State := ⟨⟨vecMap,⟨0,0,0,0,[],[],[]⟩,[]⟩,[]⟩

/-- Memory from `operator new`: not null, and apart from all slabs. -/
def Granted (c : Cache) (count mem : Nat) : Prop :=
  0 < mem ∧ ∀ s ∈ c.slabs, Extent.Apart (mem,sizeofT*count) s.region.extent

instance (c : Cache) (count mem : Nat) : Decidable (Granted sizeofT c count mem) :=
  inferInstanceAs (Decidable (_ ∧ ∀ s ∈ c.slabs, _))

/-- `addCache`: the new cache is complete before its three vectors take the place of those of
`storage`, whose slabs are destroyed. -/
def addCache (p : State) (count mem : Nat) : State :=
  let count := roundedCount pgSz sizeofT count
  let vecMap := addToMap p.pool.vecMap count
  let (c,es) := Traced.make vecMap mem sizeofT count
  let old := p.pool.cache
  let gone := Traced.clear old.slabsFree ++ Traced.clear old.slabsPart ++
    Traced.clear old.slabsFull
  ⟨⟨vecMap,c,[]⟩,p.history ++ effects (es ++ gone)⟩

/-- One call; a pointer given back is live. `xtors->destruct` gets the object given back. -/
def next (p : State) : Call → Option State
  | .addCache count mem =>
    let n := roundedCount pgSz sizeofT count
    if 2 ≤ n ∧ n ≤ maxSlabBlocks ∧ Granted sizeofT p.pool.cache n mem then
      some (addCache pgSz sizeofT p count mem)
    else none
  | .allocate mem =>
    if Pool.Grows p.pool.cache → Granted sizeofT p.pool.cache p.pool.cache.count mem then
      (Traced.allocate p.pool.vecMap p.pool.cache mem).map fun (c,ptr,es) =>
        ⟨⟨p.pool.vecMap,c,ptr :: p.pool.live⟩,p.history ++ effects es⟩
    else none
  | .deallocate ptr =>
    if ptr ∈ p.pool.live then
      (Traced.deallocate p.pool.cache ptr).map fun (c,es) =>
        ⟨⟨p.pool.vecMap,c,p.pool.live.erase ptr⟩,p.history ++ (effects es ++ [.use ptr])⟩
    else none
  | .freeEmpty =>
    let (c,es) := Traced.freeEmpty p.pool.cache
    some ⟨⟨p.pool.vecMap,c,p.pool.live⟩,p.history ++ effects es⟩
  | .freeAll =>
    let (c,es) := Traced.freeAll p.pool.cache
    some ⟨⟨p.pool.vecMap,c,[]⟩,p.history ++ effects es⟩

/-- The first call is `addCache`; other pools may have used `vecMap` before. -/
def machine : Machine State Call where
  start p := ∃ (counts : List Nat) (count mem : Nat),
    next pgSz sizeofT (initial (counts.foldl addToMap [])) (.addCache count mem)=some p
  next := next pgSz sizeofT

end Allocators.SlabObj
