import Allocators.SlabMulti.Cache
import Allocators.Lib.Ledger

/-! `GlobalDispatch`, the heap below it and the sizes of the caches. -/

namespace Allocators.SlabMulti

open Lib Extent

/-- `SUPERBLOCK_SIZE`. -/
def superblockSize : Nat := 1 <<< 20

/-- `SLAB_SIZE`. -/
def slabSize : Nat := 1 <<< 14

/-- `NUM_CACHES`. -/
def numCaches : Nat := 8

/-- `SMALLEST_CACHE`. -/
def smallestCache : Nat := 64

/-- `LARGEST_CACHE`. -/
def largestCache : Nat := smallestCache <<< (numCaches-1)

/-- `INIT_SUPERBLOCKS`. -/
def initSuperblocks : Nat := 4

/-- The loop of `buildCaches` from `i` on. -/
def buildCaches : Nat → Nat → List Nat
  | 0,_ => []
  | fuel+1,i => if i ≤ largestCache then i :: buildCaches fuel (i <<< 1) else []

def cacheSizes : List Nat := buildCaches largestCache smallestCache

/-- `blocksPerSlab`. -/
def blocksPer : List Nat := cacheSizes.map (slabSize/·)

/-- `operator new` and `operator delete`: the addresses the next calls of `new` return, the ranges
granted, and what was given to `delete`, the latest first. -/
structure Heap where
  answers : List Nat
  granted : List Extent
  deleted : List Extent

namespace Heap

/-- `operator new`; it returns no null pointer and no memory that is in use. Missing memory is
`std::bad_alloc`. -/
def new (h : Heap) (bytes : Nat) : Option (Nat × Heap) :=
  match h.answers with
  | [] => none
  | mem :: answers =>
    if 0 < mem ∧ ∀ g ∈ h.granted, Extent.Apart (mem,bytes) g then
      some (mem,{ h with answers := answers, granted := (mem,bytes) :: h.granted })
    else none

def delete (h : Heap) (ptr bytes : Nat) : Heap :=
  { h with granted := h.granted.erase (ptr,bytes), deleted := (ptr,bytes) :: h.deleted }

end Heap

/-- `GlobalDispatch`; `availible` is the constant `buildIndicies` makes. -/
structure GlobalDispatch where
  heap : Heap
  blocks : List Nat
  totalSBlocks : Nat

namespace GlobalDispatch

def buildIndicies : List (Nat × List Nat) := cacheSizes.map fun bs => (bs,indices (slabSize/bs))

def getIndicies (blockSz : Nat) : Option (List Nat) :=
  (buildIndicies.find? fun bs => decide (blockSz ≤ bs.1)).map Prod.snd

/-- The slabs a superblock is cut into. -/
def carve (mem : Nat) : List Nat := (List.range (superblockSize/slabSize)).map fun i => mem+i*slabSize

/-- The loop of `requestMem`; `false` is `std::bad_alloc`. -/
def requestLoop : Nat → GlobalDispatch → GlobalDispatch × Bool
  | 0,d => (d,true)
  | sblocks+1,d =>
    match d.heap.new superblockSize with
    | none => (d,false)
    | some (mem,heap) => requestLoop sblocks { d with heap := heap, blocks := d.blocks ++ carve mem }

def requestMem (sblocks : Nat) (d : GlobalDispatch) : GlobalDispatch × Bool :=
  match requestLoop sblocks d with
  | (d,false) => (d,false)
  | (d,true) => ({ d with totalSBlocks := d.totalSBlocks+sblocks },true)

def getBlock (d : GlobalDispatch) : Option Nat × GlobalDispatch :=
  match if d.blocks.isEmpty then requestMem initSuperblocks d else (d,true) with
  | (d,false) => (none,d)
  | (d,true) => (d.blocks.getLast?,{ d with blocks := d.blocks.dropLast })

/-- The constructor. -/
def make (heap : Heap) : GlobalDispatch × Bool := requestMem initSuperblocks ⟨heap,[],0⟩

end GlobalDispatch

instance : Dispatch GlobalDispatch where
  getIndicies _ := GlobalDispatch.getIndicies
  getBlock := GlobalDispatch.getBlock

theorem cacheSizes_eq : cacheSizes=[64,128,256,512,1024,2048,4096,8192] := by decide

theorem mem_cacheSizes {size : Nat} : size ∈ cacheSizes ↔ size=64 ∨ size=128 ∨ size=256 ∨
    size=512 ∨ size=1024 ∨ size=2048 ∨ size=4096 ∨ size=8192 := by
  simp [cacheSizes_eq]

/-- Every size class cuts a slab into equal blocks without a rest. -/
theorem class_bounds {size : Nat} (h : size ∈ cacheSizes) :
    0 < size ∧ size*(slabSize/size)=slabSize ∧ 2 ≤ slabSize/size ∧
      slabSize/size ≤ maxSlabBlocks := by
  rcases mem_cacheSizes.mp h with rfl | rfl | rfl | rfl | rfl | rfl | rfl | rfl <;> decide

theorem getIndicies_eq {size : Nat} (h : size ∈ cacheSizes) :
    GlobalDispatch.getIndicies size=some (indices (slabSize/size)) := by
  have hb : GlobalDispatch.buildIndicies=cacheSizes.map fun bs => (bs,indices (slabSize/bs)) := rfl
  rw [GlobalDispatch.getIndicies,hb,cacheSizes_eq]
  rcases mem_cacheSizes.mp h with rfl | rfl | rfl | rfl | rfl | rfl | rfl | rfl <;>
    simp [List.find?]

/-- The memory of slabs, as ranges. -/
def slabExtents (mems : List Nat) : List Extent := mems.map fun mem => (mem,slabSize)

theorem slabExtents_append (l k : List Nat) :
    slabExtents (l ++ k)=slabExtents l ++ slabExtents k := List.map_append

namespace GlobalDispatch

variable {d d' : GlobalDispatch} {rest : List Extent} {mem : Nat}

theorem slabSize_pos : 0 < slabSize := by decide

/-- The slabs cut from a superblock lie side by side in it. -/
theorem carve_tiled (mem : Nat) : Tiled (slabExtents (carve mem)) := by
  rw [Tiled,slabExtents,carve,List.pairwise_map,List.pairwise_map]
  refine List.pairwise_lt_range.imp fun {i j} hij => ?_
  have hm : (i+1)*slabSize ≤ j*slabSize := Nat.mul_le_mul_right _ hij
  rw [Nat.add_mul,Nat.one_mul] at hm
  exact apart_iff.mpr (by simp only; omega)

theorem carve_within (mem : Nat) {e : Extent} (h : e ∈ slabExtents (carve mem)) :
    0 < e.2 ∧ e.bytes ⊆ bytes (mem,superblockSize) := by
  obtain ⟨b,hb,rfl⟩ := List.mem_map.mp h
  obtain ⟨i,hi,rfl⟩ := List.mem_map.mp hb
  have hi : i < superblockSize/slabSize := List.mem_range.mp hi
  have hm : (i+1)*slabSize ≤ superblockSize/slabSize*slabSize := Nat.mul_le_mul_right _ hi
  have hs : superblockSize/slabSize*slabSize=superblockSize := by decide
  rw [hs,Nat.add_mul,Nat.one_mul] at hm
  refine ⟨slabSize_pos,?_⟩
  intro x hx
  obtain ⟨h1,h2⟩ := mem_bytes.mp hx
  simp only at h1 h2
  exact mem_bytes.mpr ⟨by simp only; omega,by simp only; omega⟩

/-- What a call may change in the dispatcher: it grants and hands out, and deletes nothing. -/
structure Extends (d d' : GlobalDispatch) : Prop where
  granted : d.heap.granted ⊆ d'.heap.granted
  deleted : d'.heap.deleted=d.heap.deleted

theorem Extends.refl (d : GlobalDispatch) : Extends d d := ⟨List.Subset.refl _,rfl⟩

theorem Extends.trans {d'' : GlobalDispatch} (h : Extends d d') (h' : Extends d' d'') :
    Extends d d'' := ⟨fun _ hg => h'.granted (h.granted hg),h'.deleted.trans h.deleted⟩

theorem new_cases {heap heap' : Heap} {bytes : Nat} (h : heap.new bytes=some (mem,heap')) :
    0 < mem ∧ (∀ g ∈ heap.granted, Extent.Apart (mem,bytes) g) ∧
      heap'.granted=(mem,bytes) :: heap.granted ∧ heap'.deleted=heap.deleted := by
  rw [Heap.new] at h
  cases ha : heap.answers with
  | nil => simp [ha] at h
  | cons a answers =>
    simp only [ha] at h
    split_ifs at h with hc
    cases h
    exact ⟨hc.1,hc.2,rfl,rfl⟩

theorem requestLoop_ledger (sblocks : Nat) {b : Bool}
    (h : Ledger d.heap.granted (slabExtents d.blocks ++ rest))
    (hr : requestLoop sblocks d=(d',b)) :
    Ledger d'.heap.granted (slabExtents d'.blocks ++ rest) ∧ Extends d d' := by
  induction sblocks generalizing d with
  | zero =>
    obtain ⟨rfl,_⟩ := Prod.mk.inj hr
    exact ⟨h,.refl d⟩
  | succ sblocks ih =>
    rw [requestLoop] at hr
    cases hn : d.heap.new superblockSize with
    | none =>
      rw [hn] at hr
      obtain ⟨rfl,_⟩ := Prod.mk.inj hr
      exact ⟨h,.refl d⟩
    | some x =>
      obtain ⟨mem,heap⟩ := x
      rw [hn] at hr
      obtain ⟨hpos,hap,hg,hd⟩ := new_cases hn
      have hled := h.grant hpos hap (carve_tiled mem) fun e he => carve_within mem he
      rw [← hg] at hled
      have hperm : (slabExtents (carve mem) ++ (slabExtents d.blocks ++ rest)).Perm
          (slabExtents (d.blocks ++ carve mem) ++ rest) := by
        rw [slabExtents_append,← List.append_assoc]
        exact List.perm_append_comm.append_right rest
      obtain ⟨hl,he⟩ := ih (hled.perm hperm) hr
      have hstep : Extends d { d with heap := heap, blocks := d.blocks ++ carve mem } :=
        ⟨fun g hm => hg ▸ List.mem_cons_of_mem _ hm,hd⟩
      exact ⟨hl,hstep.trans he⟩

theorem requestMem_ledger (sblocks : Nat) {b : Bool}
    (h : Ledger d.heap.granted (slabExtents d.blocks ++ rest))
    (hr : requestMem sblocks d=(d',b)) :
    Ledger d'.heap.granted (slabExtents d'.blocks ++ rest) ∧ Extends d d' := by
  rw [requestMem] at hr
  cases hl : requestLoop sblocks d with
  | mk x b' =>
    obtain ⟨hled,hext⟩ := requestLoop_ledger sblocks h hl
    rw [hl] at hr
    cases b' with
    | false =>
      obtain ⟨rfl,_⟩ := Prod.mk.inj hr
      exact ⟨hled,hext⟩
    | true =>
      obtain ⟨rfl,_⟩ := Prod.mk.inj hr
      exact ⟨hled,hext.granted,hext.deleted⟩

/-- The block that is handed out is the last one, of those that were there or of new ones. -/
theorem getBlock_cases (hb : d.getBlock=(some mem,d')) :
    ∃ x, (x=d ∨ requestMem initSuperblocks d=(x,true)) ∧ x.blocks=x.blocks.dropLast ++ [mem] ∧
      d'={ x with blocks := x.blocks.dropLast } := by
  have hpop : ∀ x : GlobalDispatch,
      (x.blocks.getLast?,{ x with blocks := x.blocks.dropLast })=(some mem,d') →
      x.blocks=x.blocks.dropLast ++ [mem] ∧ d'={ x with blocks := x.blocks.dropLast } := by
    intro x he
    obtain ⟨hl,hd⟩ := Prod.mk.inj he
    exact ⟨(List.dropLast_append_getLast? mem hl).symm,hd.symm⟩
  rw [getBlock] at hb
  by_cases he : d.blocks.isEmpty
  · rw [if_pos he] at hb
    cases hr : requestMem initSuperblocks d with
    | mk x b =>
      rw [hr] at hb
      cases b with
      | false => cases hb
      | true => exact ⟨x,.inr rfl,hpop x hb⟩
  · rw [if_neg he] at hb
    exact ⟨d,.inl rfl,hpop d hb⟩

/-- The block that is handed out leaves `blocks`. -/
theorem getBlock_ledger (h : Ledger d.heap.granted (slabExtents d.blocks ++ rest))
    (hb : d.getBlock=(some mem,d')) :
    Ledger d'.heap.granted ((mem,slabSize) :: (slabExtents d'.blocks ++ rest)) ∧ Extends d d' := by
  obtain ⟨x,hx,hblocks,rfl⟩ := getBlock_cases hb
  have hled : Ledger x.heap.granted (slabExtents x.blocks ++ rest) ∧ Extends d x := by
    rcases hx with rfl | hr
    · exact ⟨h,List.Subset.refl _,rfl⟩
    · exact requestMem_ledger initSuperblocks h hr
  obtain ⟨hl,hext⟩ := hled
  rw [hblocks,slabExtents_append,List.append_assoc] at hl
  exact ⟨hl.perm List.perm_middle,hext.granted,hext.deleted⟩

end GlobalDispatch

end Allocators.SlabMulti
