import Allocators.Lib.Lifetime
import Allocators.Lib.Moves
import Allocators.SlabImpl.Steps

/-! `SlabImpl::Cache::splice` move by move, for the slabs of both allocators. What a
`std::vector` holds after it was moved from by an assignment is not specified: it is `rest`. -/

namespace Allocators.SlabImpl

open Lib Vector

namespace Slab

/-- `Slab(Slab&& other)`: the slab and `other`. -/
def moveConstruct (other : Slab) : Slab × Slab :=
  (⟨other.mem,other.blockSize,other.count,other.availible⟩,
    { other with mem := 0, availible := [] })

variable (rest : List Nat → List Nat)

/-- `operator=(Slab&& other)`: the slab and `other`. The memory it had is not freed. -/
def moveAssign (_ other : Slab) : Slab × Slab :=
  (⟨other.mem,other.blockSize,other.count,other.availible⟩,
    { other with mem := 0, availible := rest other.availible })

/-- `operator=` of a slab to itself. -/
def selfAssign (this : Slab) : Slab :=
  { this with mem := 0, availible := rest this.availible }

def moves : Moves Slab where
  construct := moveConstruct
  assign := moveAssign rest
  self := selfAssign rest
  construct_fst _ := rfl
  assign_fst _ _ := rfl

/-- `~Slab`: the memory it gives back. -/
def destroy (s : Slab) : List Nat := if s.mem=0 then [] else [s.mem]

end Slab

/-- `SlabObjImpl::Slab`. -/
structure ObjectSlab where
  mem : Nat
  count : Nat
  availible : List Nat
  deriving DecidableEq, Repr

namespace ObjectSlab

/-- `Slab(Slab&& other)`: the slab and `other`. -/
def moveConstruct (other : ObjectSlab) : ObjectSlab × ObjectSlab :=
  (⟨other.mem,other.count,other.availible⟩,{ other with mem := 0, availible := [] })

variable (rest : List Nat → List Nat)

/-- `operator=(Slab&& other)`: the slab and `other`. Neither objects nor memory are released. -/
def moveAssign (_ other : ObjectSlab) : ObjectSlab × ObjectSlab :=
  (⟨other.mem,other.count,other.availible⟩,
    { other with mem := 0, availible := rest other.availible })

/-- `operator=` of a slab to itself. -/
def selfAssign (this : ObjectSlab) : ObjectSlab :=
  { this with mem := 0, availible := rest this.availible }

def moves : Moves ObjectSlab where
  construct := moveConstruct
  assign := moveAssign rest
  self := selfAssign rest
  construct_fst _ := rfl
  assign_fst _ _ := rfl

/-- `~Slab`: the objects it destroys, and the memory it gives back. -/
def destroy (sizeofT : Nat) (s : ObjectSlab) : List Nat × List Nat :=
  if s.mem=0 then ([],[])
  else ((List.range s.count).map fun i => s.mem+sizeofT*i,[s.mem])

end ObjectSlab

namespace SlabStore

variable {σ : Type}

/-- What is there after `splice`: the two stores, the iterator, the element that `pop_back`
destroyed, and all objects that were destroyed. -/
structure Spliced (σ : Type) where
  dest : List σ
  source : List σ
  it : Nat
  popped : σ
  destroyed : List σ

/-- `splice`; `grows` tells if `dest` has to be moved to new storage. -/
def splice (M : Moves σ) (grows : Bool) (dest source : List σ) (it : Nat) :
    Option (Spliced σ) := do
  let (dest,x,old) := M.emplaceBack grows dest (← source[it]?)
  let source := source.set it x
  let (source,tmp) ← M.swap source it (source.length-1)
  let (source,popped) ← Moves.popBack source
  some ⟨dest,source,dest.length-1,popped,old ++ [tmp,popped]⟩

variable {M : Moves σ} {source : List σ} {it : Nat} {slab : σ}

/-- The slab is in `dest`; its place is filled by the last one; what is popped is the slab moved
from. -/
theorem splice_eq (grows : Bool) (dest : List σ) (h : source[it]?=some slab) :
    ∃ z, splice M grows dest source it=
      some ⟨dest ++ [slab],swapPop source it,dest.length,(M.construct slab).2,
        (if grows then dest.map fun s => (M.construct s).2 else []) ++
          [(M.assign z (M.construct slab).2).2,(M.construct slab).2]⟩ := by
  obtain ⟨lo,hi,rfl,rfl⟩ := eq_mid slab h
  have hset : (lo ++ slab :: hi).set lo.length (M.construct slab).2=
      lo ++ (M.construct slab).2 :: hi := set_mid ..
  obtain ⟨v',z,hswap,hpop⟩ := M.swap_popBack (getElem?_mid lo hi (M.construct slab).2)
  have hlen : (dest ++ [slab]).length-1=dest.length := by simp
  refine ⟨z,?_⟩
  rw [swapPop_congr slab (M.construct slab).2]
  simp only [splice,getElem?_mid,Moves.emplaceBack_eq,hset,hswap,hpop,hlen,Option.bind_eq_bind,
    Option.bind_some]

/-- One slab, the one at `it`, went from `source` to `dest`, and only slabs without memory were
destroyed. -/
structure Transferred (mem : σ → Nat) (dest source : List σ) (it : Nat) (slab : σ)
    (r : Spliced σ) : Prop where
  dest_eq : r.dest=dest ++ [slab]
  source_perm : r.source.Perm (source.eraseIdx it)
  found : r.dest[r.it]?=some slab
  popped_mem : mem r.popped=0
  popped_destroyed : r.popped ∈ r.destroyed
  destroyed_mem : ∀ s ∈ r.destroyed, mem s=0

/-- Where both moves null the memory of their source, `splice` transfers one slab. -/
theorem exists_transferred (M : Moves σ) (mem : σ → Nat) (hc : ∀ x, mem (M.construct x).2=0)
    (ha : ∀ y x, mem (M.assign y x).2=0) (grows : Bool) (dest : List σ)
    (h : source[it]?=some slab) :
    ∃ r, splice M grows dest source it=some r ∧ Transferred mem dest source it slab r := by
  obtain ⟨z,hz⟩ := splice_eq (M := M) grows dest h
  refine ⟨_,hz,rfl,swapPop_perm_eraseIdx h,by simp,hc slab,by simp,?_⟩
  intro s hs
  rcases List.mem_append.mp hs with hs | hs
  · split_ifs at hs
    · obtain ⟨x,_,rfl⟩ := List.mem_map.mp hs
      exact hc x
    · cases hs
  · have hs : s=(M.assign z (M.construct slab).2).2 ∨ s=(M.construct slab).2 := by
      simpa using hs
    rcases hs with rfl | rfl
    · exact ha z _
    · exact hc slab

end SlabStore

/-- `splice` of either allocator transfers the slab at a valid position, the last one included, and
no destructor on the way releases anything. -/
theorem splice_transfers_one (rest : List Nat → List Nat) (grows : Bool) :
    (∀ (dest source : List Slab) (it : Nat) (slab : Slab), source[it]?=some slab →
      ∃ r, SlabStore.splice (Slab.moves rest) grows dest source it=some r ∧
        SlabStore.Transferred Slab.mem dest source it slab r ∧
        ∀ s ∈ r.destroyed, s.destroy=[]) ∧
    ∀ (sizeofT : Nat) (dest source : List ObjectSlab) (it : Nat) (slab : ObjectSlab),
      source[it]?=some slab →
      ∃ r, SlabStore.splice (ObjectSlab.moves rest) grows dest source it=some r ∧
        SlabStore.Transferred ObjectSlab.mem dest source it slab r ∧
        ∀ s ∈ r.destroyed, s.destroy sizeofT=([],[]) := by
  constructor
  · intro dest source it slab h
    obtain ⟨r,hr,ht⟩ := SlabStore.exists_transferred (Slab.moves rest) Slab.mem
      (fun _ => rfl) (fun _ _ => rfl) grows dest h
    exact ⟨r,hr,ht,fun s hs => if_pos (ht.destroyed_mem s hs)⟩
  · intro sizeofT dest source it slab h
    obtain ⟨r,hr,ht⟩ := SlabStore.exists_transferred (ObjectSlab.moves rest) ObjectSlab.mem
      (fun _ => rfl) (fun _ _ => rfl) grows dest h
    exact ⟨r,hr,ht,fun s hs => if_pos (ht.destroyed_mem s hs)⟩

/-- The last of two slabs, into a store that grows. -/
theorem splice_transfers_last : ∃ r,
    SlabStore.splice (Slab.moves id) true [⟨96,8,2,[1]⟩] [⟨32,8,2,[]⟩,⟨64,8,2,[0]⟩] 1=some r ∧
      SlabStore.Transferred Slab.mem [⟨96,8,2,[1]⟩] [⟨32,8,2,[]⟩,⟨64,8,2,[0]⟩] 1 ⟨64,8,2,[0]⟩ r ∧
      ∀ s ∈ r.destroyed, s.destroy=[] :=
  (splice_transfers_one id true).1 [⟨96,8,2,[1]⟩] [⟨32,8,2,[]⟩,⟨64,8,2,[0]⟩] 1 ⟨64,8,2,[0]⟩ rfl

/-- The splice of the cache is the one of its stores. -/
theorem Cache.splice_eq_stores (rest : List Nat → List Nat) (grows : Bool) {c : Cache} {x y : Store}
    (hne : x ≠ y) {i : Nat} {s : Slab} (hs : (c.store x)[i]?=some s) :
    c.splice y x (x,i)=
      (SlabStore.splice (Slab.moves rest) grows (c.store y) (c.store x) i).map fun r =>
        ((c.setStore r.dest y).setStore r.source x,(y,r.it)) := by
  obtain ⟨z,hz⟩ := SlabStore.splice_eq (M := Slab.moves rest) grows (c.store y) hs
  rw [Cache.splice_eq hne hs,hz,Option.map_some]

/-- A slab of objects as one of blocks of `sizeof(T)` bytes. -/
def ObjectSlab.slab (sizeofT : Nat) (s : ObjectSlab) : Slab := ⟨s.mem,sizeofT,s.count,s.availible⟩

/-- The two kinds of slabs are spliced in the same way. -/
theorem SlabStore.splice_slab (rest : List Nat → List Nat) (grows : Bool) (sizeofT : Nat)
    {dest source : List ObjectSlab} {it : Nat} {slab : ObjectSlab} (h : source[it]?=some slab) :
    ∃ r r', splice (ObjectSlab.moves rest) grows dest source it=some r ∧
      splice (Slab.moves rest) grows (dest.map (ObjectSlab.slab sizeofT))
        (source.map (ObjectSlab.slab sizeofT)) it=some r' ∧
      r'.dest=r.dest.map (ObjectSlab.slab sizeofT) ∧
      r'.source=r.source.map (ObjectSlab.slab sizeofT) ∧ r'.it=r.it := by
  obtain ⟨z,hz⟩ := splice_eq (M := ObjectSlab.moves rest) grows dest h
  have h' : (source.map (ObjectSlab.slab sizeofT))[it]?=some (slab.slab sizeofT) := by
    rw [List.getElem?_map,h,Option.map_some]
  obtain ⟨z',hz'⟩ := splice_eq (M := Slab.moves rest) grows (dest.map (ObjectSlab.slab sizeofT)) h'
  refine ⟨_,_,hz,hz',?_,?_,List.length_map ..⟩
  · rw [List.map_append,List.map_singleton]
  · exact (map_swapPop (ObjectSlab.slab sizeofT) source it h).symm

end Allocators.SlabImpl
