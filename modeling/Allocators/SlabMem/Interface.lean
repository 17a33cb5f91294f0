import Allocators.SlabImpl.Pool

/-! `SlabMemImpl::Interface`: the caches of `SlabMem`, and which of them a call goes to. -/

namespace Allocators.SlabMem

open SlabImpl

/-- The static data: the map of index lists and `buckets`. -/
structure Interface where
  vecMap : VecMap
  buckets : List Cache
  deriving DecidableEq, Repr

namespace Interface

/-- `addCache`, where `operator new` returns `mem`; division by zero is undefined. -/
def addCache (pgSz : Nat) (i : Interface) (blockSize count mem : Nat) : Option Interface :=
  if blockSize=0 then none
  else
    let count := roundedCount pgSz blockSize count
    let vecMap := addToMap i.vecMap count
    some ⟨vecMap,i.buckets ++ [Cache.make vecMap mem blockSize count]⟩

/-- The loop of `allocate`: the first cache with large enough blocks, else `operator new`. -/
def allocateIn (vecMap : VecMap) (bytes mem : Nat) : List Cache → Option (List Cache × Nat)
  | [] => some ([],mem)
  | it :: rest =>
    if bytes ≤ it.blockSize then
      (it.allocate vecMap mem).map fun (it,ptr) => (it :: rest,ptr)
    else (allocateIn vecMap bytes mem rest).map fun (rest,ptr) => (it :: rest,ptr)

def allocate (i : Interface) (sizeofT count mem : Nat) : Option (Interface × Nat) :=
  (allocateIn i.vecMap (toSizeT (count*sizeofT)) mem i.buckets).map fun (buckets,ptr) =>
    ({ i with buckets := buckets },ptr)

/-- The loop of `deallocate`; `operator delete` leaves the caches alone. -/
def deallocateIn (bytes ptr : Nat) : List Cache → Option (List Cache)
  | [] => some []
  | it :: rest =>
    if bytes ≤ it.blockSize then (it.deallocate ptr).map fun it => it :: rest
    else (deallocateIn bytes ptr rest).map fun rest => it :: rest

def deallocate (i : Interface) (sizeofT ptr count : Nat) : Option Interface :=
  (deallocateIn (toSizeT (count*sizeofT)) ptr i.buckets).map fun buckets =>
    { i with buckets := buckets }

/-- The loop of `freeFunc`; it returns at the first cache that matches. -/
def freeIn (all : Bool) (cacheSize : Nat) : List Cache → List Cache
  | [] => []
  | it :: rest =>
    if cacheSize=0 ∨ it.blockSize=cacheSize then
      (if all then it.freeAll else it.freeEmpty) :: rest
    else it :: freeIn all cacheSize rest

def freeFunc (all : Bool) (i : Interface) (cacheSize : Nat) : Interface :=
  { i with buckets := freeIn all cacheSize i.buckets }

def freeAll (i : Interface) (cacheSize : Nat) : Interface := freeFunc true i cacheSize

def freeEmpty (i : Interface) (cacheSize : Nat) : Interface := freeFunc false i cacheSize

end Interface

end Allocators.SlabMem
