import Allocators.Lib.Extent
import Allocators.Lib.Scan
import Allocators.SlabMulti.Cache

/-! The search of `Cache::deallocate`: what it tests, and what it finds. -/

namespace Allocators.SlabMulti

open Lib Scan

namespace Cache

/-- `searchLoop` with the positions `containsMem` was called for. -/
def searchTests (c : Cache) (ptr : Nat) : Nat → Nat → Nat → Option (List Nat × Option Nat)
  | 0,_,_ => none
  | fuel+1,mit,last =>
    match c.ptrs[mit]? with
    | none => none
    | some mem =>
      if Slab.containsMem ptr mem c.blockSize c.count then some ([mit],some mit)
      else if mit+1=last then
        if last=c.actMem ∨ 0=c.actMem then some ([mit],none)
        else (searchTests c ptr fuel 0 c.actMem).map fun r => (mit :: r.1,r.2)
      else (searchTests c ptr fuel (mit+1) last).map fun r => (mit :: r.1,r.2)

/-- The memory at a position has the pointer. -/
def hit (c : Cache) (ptr i : Nat) : Bool :=
  c.ptrs[i]?.any fun mem => Slab.containsMem ptr mem c.blockSize c.count

/-- The memory of the slabs. -/
def ranges (c : Cache) : List Extent := c.ptrs.map fun mem => (mem,c.blockSize*c.count)

/-- What is left of the search at `mit`, where `last` is its end marker. -/
def ahead (c : Cache) (mit last : Nat) : List Nat :=
  List.range' mit (last-mit) ++ if last=c.actMem then [] else List.range c.actMem

variable {c : Cache} {ptr : Nat}

theorem searchTests_map (fuel mit last : Nat) :
    (c.searchTests ptr fuel mit last).map Prod.snd=c.searchLoop ptr fuel mit last := by
  induction fuel generalizing mit last with
  | zero => rfl
  | succ fuel ih =>
    rw [searchTests,searchLoop]
    cases c.ptrs[mit]? with
    | none => rfl
    | some mem =>
      dsimp only
      split_ifs
      · rfl
      · rfl
      · rw [Option.map_map]
        exact ih 0 c.actMem
      · rw [Option.map_map]
        exact ih (mit+1) last

theorem ahead_eq_cons {mit last : Nat} (h : mit < last) : ∃ rest, c.ahead mit last=mit :: rest ∧
    (mit+1 < last → rest=c.ahead (mit+1) last) ∧
    (mit+1=last → last=c.actMem ∨ 0=c.actMem → rest=[]) ∧
    (mit+1=last → ¬(last=c.actMem ∨ 0=c.actMem) → rest=c.ahead 0 c.actMem) := by
  obtain ⟨k,hk⟩ : ∃ k, last-mit=k+1 := ⟨last-mit-1,by omega⟩
  refine ⟨List.range' (mit+1) k ++ if last=c.actMem then [] else List.range c.actMem,?_,?_,?_,?_⟩
  · rw [ahead,hk,List.range'_succ,List.cons_append]
  · intro hlt
    rw [ahead,show last-(mit+1)=k by omega]
  · intro hl ha
    obtain rfl : k=0 := by omega
    rcases ha with ha | ha
    · simp [ha]
    · simp [← ha]
  · intro hl ha
    obtain rfl : k=0 := by omega
    rw [if_neg fun h => ha (.inl h),ahead,if_pos rfl,Nat.sub_zero,← List.range_eq_range']
    simp

/-- The loop tests what is ahead, up to the first hit. -/
theorem searchTests_eq (hact : c.actMem < c.ptrs.length) (fuel mit last : Nat) (hm : mit < last)
    (hl : last ≤ c.ptrs.length) (hf : (c.ahead mit last).length ≤ fuel) :
    c.searchTests ptr fuel mit last=
      some (tested (c.hit ptr) (c.ahead mit last),(c.ahead mit last).find? (c.hit ptr)) := by
  induction fuel generalizing mit last with
  | zero =>
    obtain ⟨rest,he,_⟩ := c.ahead_eq_cons hm
    simp [he] at hf
  | succ fuel ih =>
    obtain ⟨rest,he,hnext,hstop,hwrap⟩ := c.ahead_eq_cons hm
    rw [he] at hf ⊢
    rw [List.length_cons,Nat.add_le_add_iff_right] at hf
    have hp : c.ptrs[mit]?=some c.ptrs[mit] := List.getElem?_eq_getElem (by omega)
    have hhit : c.hit ptr mit=Slab.containsMem ptr c.ptrs[mit] c.blockSize c.count := by
      rw [hit,hp,Option.any_some]
    rw [searchTests,hp]
    dsimp only
    rw [← hhit]
    cases hc : c.hit ptr mit with
    | true => rw [if_pos rfl,tested,if_pos hc,List.find?_cons_of_pos hc]
    | false =>
      have hn : ¬ c.hit ptr mit=true := ne_true_of_eq_false hc
      rw [if_neg Bool.false_ne_true,tested,if_neg hn,List.find?_cons_of_neg hn]
      by_cases hml : mit+1=last
      · rw [if_pos hml]
        by_cases ha : last=c.actMem ∨ 0=c.actMem
        · rw [if_pos ha,hstop hml ha]
          rfl
        · obtain rfl := hwrap hml ha
          rw [if_neg ha,ih 0 c.actMem (by omega) (by omega) hf,Option.map_some]
      · obtain rfl := hnext (by omega)
        rw [if_neg hml,ih (mit+1) last (by omega) hl hf,Option.map_some]

theorem ahead_start (hact : c.actMem < c.ptrs.length) :
    c.ahead c.actMem c.ptrs.length=circular c.actMem c.ptrs.length := by
  rw [ahead,circular,if_neg (Nat.ne_of_gt hact)]

theorem length_circular (hact : c.actMem < c.ptrs.length) :
    (circular c.actMem c.ptrs.length).length=c.ptrs.length := by
  rw [(circular_perm hact.le).length_eq,List.length_range]

/-- The search goes once round, from the active slab. -/
theorem search_eq (hact : c.actMem < c.ptrs.length) :
    c.search ptr=some ((circular c.actMem c.ptrs.length).find? (c.hit ptr)) := by
  rw [search,← searchTests_map,searchTests_eq hact _ _ _ hact le_rfl
    (by rw [ahead_start hact,length_circular hact]),ahead_start hact]
  rfl

theorem hit_eq_true {i : Nat} : c.hit ptr i=true ↔
    ∃ mem, c.ptrs[i]?=some mem ∧ Slab.containsMem ptr mem c.blockSize c.count=true :=
  Option.any_eq_true _ _

/-- Disjoint slabs cannot both have the pointer. -/
theorem hit_unique (hd : Extent.Tiled c.ranges) {i j : Nat} (hi : c.hit ptr i=true)
    (hj : c.hit ptr j=true) : i=j := by
  obtain ⟨m,hm,hcm⟩ := hit_eq_true.mp hi
  obtain ⟨m',hm',hcm'⟩ := hit_eq_true.mp hj
  by_contra hne
  have hpair := List.pairwise_iff_getElem.mp (List.pairwise_map.mp hd)
  obtain ⟨hlt,rfl⟩ := List.getElem?_eq_some_iff.mp hm
  obtain ⟨hlt',rfl⟩ := List.getElem?_eq_some_iff.mp hm'
  simp only [Slab.containsMem,Bool.and_eq_true,decide_eq_true_eq] at hcm hcm'
  rcases Nat.lt_or_gt_of_ne hne with h | h
  · have := Extent.apart_iff.mp (hpair i j hlt hlt' h)
    dsimp only at this
    omega
  · have := Extent.apart_iff.mp (hpair j i hlt' hlt h)
    dsimp only at this
    omega

/-- What is decided about a slab of the cache can be done. -/
theorem exists_rearrange (hs : c.slabs.length=c.ptrs.length) (ha : c.actMem=c.actBlock) {i : Nat}
    (hi : i < c.ptrs.length) (slab : Slab) : ∃ c', c.rearrange (c.decision i slab)=some c' := by
  rw [decision]
  split_ifs with h1 h2
  · have hsp : c.actBlock ≤ i ∧ i < c.slabs.length ∧ c.actMem ≤ i ∧ i < c.ptrs.length := by
      obtain ⟨_,hlt⟩ := h1
      omega
    exact ⟨_,by rw [rearrange,spliceBoth,if_pos hsp,Option.map_some]⟩
  · have hlt : i < c.slabs.length ∧ i < c.ptrs.length := by omega
    simp only [rearrange,memToDispatch,if_pos hlt]
    split_ifs
    · exact ⟨_,rfl⟩
    · exact ⟨_,rfl⟩
    · exact ⟨_,rfl⟩
  · exact ⟨_,rfl⟩

/-- The slab that is found gets the pointer back, and the result is true. -/
theorem deallocate_of_found (hs : c.slabs.length=c.ptrs.length) (ha : c.actMem=c.actBlock)
    (thisThread : Bool) {i : Nat} (hi : i < c.ptrs.length) (hf : c.search ptr=some (some i)) :
    ∃ slab mem, c.slabs[i]?=some slab ∧ c.ptrs[i]?=some mem ∧
      (c.locate ptr thisThread).map Prod.fst=
        some { c with slabs := c.slabs.set i (slab.deallocate ptr mem thisThread) } ∧
      ∃ c', c.deallocate ptr thisThread=some (c',true) := by
  have hi' : i < c.slabs.length := hs ▸ hi
  have hslab : c.slabs[i]?=some c.slabs[i] := List.getElem?_eq_getElem hi'
  have hmem : c.ptrs[i]?=some c.ptrs[i] := List.getElem?_eq_getElem hi
  refine ⟨_,_,hslab,hmem,?_,?_⟩
  · simp only [locate,hf,hslab,hmem,Option.map_some]
  · set slab := c.slabs[i].deallocate ptr c.ptrs[i] thisThread
    obtain ⟨c',hc'⟩ := exists_rearrange (c := { c with slabs := c.slabs.set i slab })
      ((List.length_set ..).trans hs) ha hi slab
    refine ⟨c',?_⟩
    simp only [deallocate,locate,hf,hslab,hmem]
    rw [hc',Option.map_some]

theorem containsMem_iff {mem : Nat} : Slab.containsMem ptr mem c.blockSize c.count=true ↔
    mem ≤ ptr ∧ ptr < mem+c.blockSize*c.count := by
  rw [Slab.containsMem,Bool.and_eq_true,decide_eq_true_eq,decide_eq_true_eq]

/-- Of disjoint slabs the search finds the one whose memory has the pointer. -/
theorem find_hit_iff (hact : c.actMem < c.ptrs.length) (hd : Extent.Tiled c.ranges) {i : Nat} :
    (circular c.actMem c.ptrs.length).find? (c.hit ptr)=some i ↔
      ∃ mem, c.ptrs[i]?=some mem ∧ mem ≤ ptr ∧ ptr < mem+c.blockSize*c.count := by
  rw [find?_eq_some_iff_of_unique _ fun i _ j _ hi hj => hit_unique hd hi hj,
    mem_circular hact.le,hit_eq_true]
  simp only [containsMem_iff,and_iff_right_iff_imp]
  rintro ⟨mem,hi,_⟩
  exact (List.getElem?_eq_some_iff.mp hi).1

theorem search_none_iff (hact : c.actMem < c.ptrs.length) : c.search ptr=some none ↔
    ∀ mem ∈ c.ptrs, ¬(mem ≤ ptr ∧ ptr < mem+c.blockSize*c.count) := by
  rw [search_eq hact,Option.some.injEq,List.find?_eq_none]
  constructor
  · intro h mem hmem hin
    obtain ⟨i,hi⟩ := List.mem_iff_getElem?.mp hmem
    have hlt := (List.getElem?_eq_some_iff.mp hi).1
    exact h i ((mem_circular hact.le).mpr hlt) (hit_eq_true.mpr ⟨mem,hi,containsMem_iff.mpr hin⟩)
  · intro h i _ hhit
    obtain ⟨mem,hi,hc⟩ := hit_eq_true.mp hhit
    exact h mem (List.mem_of_getElem? hi) (containsMem_iff.mp hc)

/-- The result is false just where no slab was found, and then nothing has changed. -/
theorem deallocate_false_iff (hs : c.slabs.length=c.ptrs.length) (ha : c.actMem=c.actBlock)
    (hact : c.actMem < c.ptrs.length) {thisThread : Bool} {c' : Cache} :
    c.deallocate ptr thisThread=some (c',false) ↔ c'=c ∧ c.search ptr=some none := by
  cases hf : (circular c.actMem c.ptrs.length).find? (c.hit ptr) with
  | some i =>
    have hl : c.search ptr=some (some i) := (search_eq hact).trans (congrArg some hf)
    have hlt := (mem_circular hact.le).mp (List.mem_of_find?_eq_some hf)
    obtain ⟨_,_,_,_,_,c₁,hc₁⟩ := deallocate_of_found hs ha thisThread hlt hl
    simp [hc₁,hl]
  | none =>
    have hl : c.search ptr=some none := (search_eq hact).trans (congrArg some hf)
    simp [deallocate,locate,hl,eq_comm]

/-- The search ends after one test of each slab at most, whatever it is asked for, and finds the
slab whose memory has the pointer; `deallocate` returns false, and leaves the cache as it is, if
there is none. -/
theorem search_complete {n : Nat} (hs : c.slabs.length=n) (hp : c.ptrs.length=n)
    (ha : c.actBlock < n) (hm : c.actMem=c.actBlock) (hd : Extent.Tiled c.ranges)
    (ptr : Nat) (thisThread : Bool) :
    ∃ tests found,
      (∀ fuel, n ≤ fuel → c.searchTests ptr fuel c.actMem n=some (tests,found)) ∧
      tests.Nodup ∧ tests.length ≤ n ∧ c.search ptr=some found ∧
      (∀ i, found=some i ↔
        ∃ mem, c.ptrs[i]?=some mem ∧ mem ≤ ptr ∧ ptr < mem+c.blockSize*c.count) ∧
      (∀ i, found=some i → ∃ slab mem, c.slabs[i]?=some slab ∧ c.ptrs[i]?=some mem ∧
        (c.locate ptr thisThread).map Prod.fst=
          some { c with slabs := c.slabs.set i (slab.deallocate ptr mem thisThread) } ∧
        ∃ c', c.deallocate ptr thisThread=some (c',true)) ∧
      ∀ c', c.deallocate ptr thisThread=some (c',false) ↔
        c'=c ∧ ∀ mem ∈ c.ptrs, ¬(mem ≤ ptr ∧ ptr < mem+c.blockSize*c.count) := by
  subst hp
  have hact : c.actMem < c.ptrs.length := hm ▸ ha
  have hpre := tested_prefix (c.hit ptr) (circular c.actMem c.ptrs.length)
  refine ⟨tested (c.hit ptr) (circular c.actMem c.ptrs.length),_,?_,?_,?_,search_eq hact,
    fun i => find_hit_iff hact hd,?_,?_⟩
  · intro fuel hf
    rw [← ahead_start hact]
    exact searchTests_eq hact _ _ _ hact le_rfl (by rwa [ahead_start hact,length_circular hact])
  · exact ((circular_perm hact.le).nodup_iff.mpr List.nodup_range).sublist hpre.sublist
  · exact hpre.length_le.trans (length_circular hact).le
  · intro i hi
    have hlt := (mem_circular hact.le).mp (List.mem_of_find?_eq_some hi)
    exact deallocate_of_found hs hm thisThread hlt ((search_eq hact).trans (congrArg some hi))
  · intro c'
    rw [deallocate_false_iff hs hm hact,search_none_iff hact]

/-- Three slabs: the search begins at the last one, goes round, and finds the pointer in the
second. -/
theorem search_complete_three : ∃ tests found,
    (Cache.mk 0 12 4 8 1 [⟨8,4,[],[]⟩,⟨8,4,[],[]⟩,⟨8,4,[],[]⟩] [300,100,200] 2 2).searchTests
      117 3 2 3=some (tests,found) ∧ tests.Nodup ∧ found=some 1 := by
  obtain ⟨tests,found,hrun,hnd,_,_,hfound,_⟩ := search_complete
    (c := Cache.mk 0 12 4 8 1 [⟨8,4,[],[]⟩,⟨8,4,[],[]⟩,⟨8,4,[],[]⟩] [300,100,200] 2 2)
    (n := 3) rfl rfl (by decide) rfl (by decide) 117 true
  exact ⟨tests,found,hrun 3 le_rfl,hnd,(hfound 1).mpr ⟨100,rfl,by decide,by decide⟩⟩

end Cache

end Allocators.SlabMulti
