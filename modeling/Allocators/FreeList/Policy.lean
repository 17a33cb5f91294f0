import Allocators.AllocHelpers
import Allocators.FreeList.Storage
import Allocators.Lib.Memory

namespace Allocators.FreeList

open Lib

variable (bytes : Nat)

/-- The width of `size_type`, the narrowest unsigned type that holds `bytes`. -/
def sizeBits : Nat := findSizeT bytes 0

/-- The value a `size_type` keeps of a number. -/
def toSizeType (n : Nat) : Nat := n%2^sizeBits bytes

/-- `sizeof(Header)`: the header is one `size_type`. -/
def headerSize : Nat := sizeBits bytes/8

namespace PolicyT

variable {S : Type} [Storage S]

/-- Joins the entry at `it` with the next one if they touch. -/
def coalesce (availible : S) (it : Nat) : S :=
  match (Storage.entries availible)[it]?,(Storage.entries availible)[it+1]? with
  | some e,some next =>
    if e.1+e.2=next.1 then
      Storage.erase (Storage.setSecond availible it (toSizeType bytes (e.2+next.2))) (it+1)
    else availible
  | _,_ => availible

/-- `PolicyT::add`. Only the second path adds the header to the size. -/
def add (availible : S) (start size : Nat) : S :=
  if (Storage.entries availible).isEmpty then
    (Storage.emplace availible (Storage.entries availible).length (start,size)).1
  else
    let it := Storage.lowerBound availible start
    let (availible,it) :=
      if (Storage.entries availible)[it]?.all (fun e => decide (start < e.1)) then
        Storage.emplace availible it (start,toSizeType bytes (size+headerSize bytes))
      else (availible,it)
    let availible := coalesce bytes availible it
    if it=0 then availible else coalesce bytes availible (it-1)

/-- `PolicyT::firstFit`. -/
def firstFit (availible : S) (reqBytes : Nat) : Option Nat :=
  (Storage.entries availible).findIdx? (fun e => decide (reqBytes ≤ e.2))

/-- `PolicyT::freeAll`; `MyBegin` is offset 0. -/
def freeAll : S := (Storage.emplace (Storage.clear : S) 0 (0,bytes)).1

end PolicyT

/-- `enum AlSearch`. -/
inductive AlSearch
  | bestFit
  | firstFit
  deriving DecidableEq, Repr

/-- The static members of `PolicyInterface`; `memory` is the arena at `MyBegin`. -/
structure PolicyInterface (S : Type) where
  availible : S
  memory : Memory
  bytesFree : Nat
  search : AlSearch

namespace PolicyInterface

variable {S : Type} [Storage S]

/-- The state after the first constructor call, over memory from `operator new`. -/
def make (memory : Memory) : PolicyInterface S where
  availible := PolicyT.add bytes Storage.clear 0 bytes
  memory := memory
  bytesFree := bytes
  search := .firstFit

/-- `Header::size` of the header at an address. -/
def headerAt (p : PolicyInterface S) (header : Nat) : Nat :=
  p.memory.readWord (headerSize bytes) header

/-- `writeHeader`: the state and the pointer to the user memory. -/
def writeHeader (p : PolicyInterface S) (start size : Nat) : PolicyInterface S × Nat :=
  ({ p with memory := p.memory.writeWord (headerSize bytes) start size },start+headerSize bytes)

/-- `bestFit` is not implemented and returns the null pointer. -/
def bestFit (_ : PolicyInterface S) (_ : Nat) : Option (PolicyInterface S × Nat) := none

/-- `PolicyInterface::firstFit`; `none` is the null pointer. -/
def firstFit (p : PolicyInterface S) (reqBytes : Nat) : Option (PolicyInterface S × Nat) :=
  match PolicyT.firstFit p.availible reqBytes with
  | none => none
  | some it =>
    match (Storage.entries p.availible)[it]? with
    | none => none
    | some (mem,chunkBytes) =>
      let availible := Storage.erase p.availible it
      let availible :=
        if reqBytes < chunkBytes then
          PolicyT.add bytes availible (mem+reqBytes) (chunkBytes-reqBytes)
        else availible
      some (writeHeader bytes { p with availible := availible } mem
        (toSizeType bytes (reqBytes+2^64-headerSize bytes)))

/-- The request of `allocate<T>(count)`, computed in `size_t` and kept in a `size_type`. -/
def reqBytes (sizeofT count : Nat) : Nat :=
  toSizeType bytes (toSizeT (sizeofT*toSizeType bytes count+headerSize bytes))

/-- `allocate`; `none` is the thrown `std::bad_alloc`. -/
def allocate (p : PolicyInterface S) (sizeofT count : Nat) : Option (PolicyInterface S × Nat) :=
  let req := reqBytes bytes sizeofT count
  let mem := match p.search with
    | .firstFit => firstFit bytes p req
    | .bestFit => bestFit p req
  mem.map fun (p,ptr) => ({ p with bytesFree := toSizeType bytes (p.bytesFree+2^64-req) },ptr)

/-- `deallocate`: the size comes from the header in front of the block. -/
def deallocate (p : PolicyInterface S) (ptr : Nat) : PolicyInterface S :=
  let header := ptr-headerSize bytes
  let size := headerAt bytes p header
  { p with
    bytesFree := toSizeType bytes (p.bytesFree+size+headerSize bytes)
    availible := PolicyT.add bytes p.availible header size }

/-- `freeAll`. -/
def freeAll (p : PolicyInterface S) : PolicyInterface S :=
  { p with availible := PolicyT.freeAll bytes, bytesFree := bytes }

end PolicyInterface

end Allocators.FreeList
