import Allocators.SlabMulti.Stock
import Allocators.Lib.Run

/-! A cache, its owner and the threads that give blocks back to it, one call at a time. -/

namespace Allocators.SlabMulti

open Lib Vector Extent

/-- The cache and the blocks handed out and not given back. -/
structure Client where
  cache : Cache
  live : List Nat

/-- The owner's `allocate`, where `getBlock` would return `mem`, and a `deallocate` by the owner or
by another thread. -/
inductive Call
  | allocate (mem : Nat)
  | deallocate (ptr : Nat) (thisThread : Bool)
  deriving DecidableEq

namespace Client

/-- One call; a pointer given back is live, and `getBlock` returns memory apart from the rest. -/
def serve (count : Nat) (k : Client) : Call → Option Client
  | .allocate mem =>
    if k.cache.Fresh mem then
      match k.cache.allocate (⟨indices count,mem⟩ : Supply) with
      | some (_,c,some ptr) => some ⟨c,ptr :: k.live⟩
      | _ => none
    else none
  | .deallocate ptr thisThread =>
    if ptr ∈ k.live then
      match k.cache.deallocate ptr thisThread with
      | some (c,true) => some ⟨c,k.live.erase ptr⟩
      | _ => none
    else none

/-- The runs of calls that are allowed, from a cache just built. -/
def machine (count blockSize : Nat) (allowed : Call → Prop) [DecidablePred allowed] :
    Machine Client Call where
  start k := ∃ mem c, Cache.make (⟨indices count,mem⟩ : Supply) count blockSize=
    some (⟨indices count,mem⟩,c,true) ∧ k=⟨c,[]⟩
  next k c := if allowed c then serve count k c else none

variable {count blockSize : Nat} {s : Shelf} {live : List Nat} {k' : Client}

/-- The cache just built: one slab, all its blocks free. -/
def first (count blockSize mem : Nat) : Shelf :=
  ⟨[(mem,⟨blockSize,count,indices count,[]⟩)],0,0,count,blockSize⟩

theorem make_eq (count blockSize mem : Nat) :
    Cache.make (⟨indices count,mem⟩ : Supply) count blockSize=
      some (⟨indices count,mem⟩,(first count blockSize mem).cache,true) := by
  simp [Cache.make,Cache.addCache,Dispatch.getIndicies,Dispatch.getBlock,Shelf.cache,first]

theorem first_holds (h0 : 0 < blockSize) (mem : Nat) :
    Holds count blockSize (first count blockSize mem) [] := by
  have hempty : Sound count blockSize [] [] :=
    ⟨h0,by simp,by simp [Tiled],by simp,by simp,by simp⟩
  refine ⟨⟨rfl,rfl,hempty.grow ⟨rfl,rfl⟩ (by simp) ?_ ?_⟩,by simp [first],rfl⟩
  · intro i hi
    exact lt_of_mem_indices (by simpa [Row.free] using hi)
  · simp [Row.free]

theorem start_cases {allowed : Call → Prop} [DecidablePred allowed] {k : Client}
    (h : (machine count blockSize allowed).start k) :
    ∃ mem, k=⟨(first count blockSize mem).cache,[]⟩ := by
  obtain ⟨mem,c,hc,rfl⟩ := h
  rw [make_eq] at hc
  obtain ⟨_,hc⟩ := Prod.mk.inj (Option.some.inj hc)
  obtain ⟨rfl,_⟩ := Prod.mk.inj hc
  exact ⟨mem,rfl⟩

theorem next_allowed {allowed : Call → Prop} [DecidablePred allowed] {k : Client} {c : Call}
    (h : (machine count blockSize allowed).next k c=some k') :
    allowed c ∧ serve count k c=some k' := by
  change (if allowed c then serve count k c else none)=some k' at h
  split_ifs at h with ha
  exact ⟨ha,h⟩

theorem serve_allocate {mem : Nat}
    (hn : serve count ⟨s.cache,live⟩ (.allocate mem)=some k') :
    ∃ s' ptr, k'=⟨s'.cache,ptr :: live⟩ ∧ Served s ⟨indices count,mem⟩ s' ptr ∧
      s.cache.Fresh mem := by
  simp only [serve] at hn
  split_ifs at hn with hf
  have hd : s.cache.allocate (⟨indices count,mem⟩ : Supply) ≠ none := by
    intro he
    rw [he] at hn
    cases hn
  obtain ⟨s',ptr,he,hs⟩ := Shelf.supply_of_allocate hd
  rw [he] at hn
  exact ⟨s',ptr,(Option.some.inj hn).symm,hs,hf⟩

theorem serve_deallocate (h : Holds count blockSize s live) {ptr : Nat} {thisThread : Bool}
    (hn : serve count ⟨s.cache,live⟩ (.deallocate ptr thisThread)=some k') :
    ptr ∈ live ∧ ∃ s' lo r hi, k'=⟨s'.cache,live.erase ptr⟩ ∧
      Returned s ptr thisThread s' lo r hi := by
  simp only [serve] at hn
  split_ifs at hn with hm
  obtain ⟨s',lo,r,hi,he,hr⟩ := h.deallocate hm thisThread
  rw [he] at hn
  exact ⟨hm,s',lo,r,hi,(Option.some.inj hn).symm,hr⟩

end Client

end Allocators.SlabMulti
