import Allocators.SlabMem.LargeBlocks

/-! Several caches side by side: where `allocate` takes a block from and where `deallocate` sends
it. -/

namespace Allocators.SlabMem

open Lib Extent SlabImpl

/-- Where a call ends: at a cache, or at the heap with a number of bytes. -/
inductive Target
  | bucket (idx : Nat)
  | heap (bytes : Nat)
  deriving DecidableEq, Repr

namespace Interface

/-- The first cache with large enough blocks, as both loops look for it. -/
def bucketFor (i : Interface) (bytes : Nat) : Option Nat :=
  i.buckets.findIdx? fun it => decide (bytes ≤ it.blockSize)

/-- Where `allocate` goes; at the heap it calls `operator new(bytes)`. -/
def allocateTarget (i : Interface) (sizeofT count : Nat) : Target :=
  let bytes := toSizeT (count*sizeofT)
  match i.bucketFor bytes with
  | some idx => .bucket idx
  | none => .heap bytes

/-- Where `deallocate` goes; at the heap it calls `operator delete(ptr, count)`. -/
def deallocateTarget (i : Interface) (sizeofT count : Nat) : Target :=
  let bytes := toSizeT (count*sizeofT)
  match i.bucketFor bytes with
  | some idx => .bucket idx
  | none => .heap count

theorem deallocateTarget_eq_bucket (i : Interface) (sizeofT count idx : Nat) :
    i.deallocateTarget sizeofT count=.bucket idx ↔ i.allocateTarget sizeofT count=.bucket idx := by
  rw [deallocateTarget,allocateTarget]
  cases i.bucketFor (toSizeT (count*sizeofT)) with
  | some _ => exact Iff.rfl
  | none => exact iff_of_false nofun nofun

/-- What `allocate` asks `operator new` for, if it does. -/
def newSize (i : Interface) (sizeofT count : Nat) : Option Nat :=
  match i.allocateTarget sizeofT count with
  | .bucket idx =>
    (i.buckets[idx]?.filter fun c => decide (Pool.Grows c)).map fun c => c.blockSize*c.count
  | .heap bytes => some bytes

section Loops

variable {lo hi : List Cache} {it : Cache} {bytes : Nat}

theorem allocateIn_mid (vecMap : VecMap) (mem : Nat) (hlo : ∀ c ∈ lo, c.blockSize < bytes)
    (hit : bytes ≤ it.blockSize) : allocateIn vecMap bytes mem (lo ++ it :: hi)=
      (it.allocate vecMap mem).map fun r => (lo ++ r.1 :: hi,r.2) := by
  induction lo with
  | nil => simp [allocateIn,hit]
  | cons c lo ih =>
    obtain ⟨hc,hlo⟩ := List.forall_mem_cons.mp hlo
    rw [List.cons_append,allocateIn,if_neg (by omega),ih hlo,Option.map_map]
    rfl

theorem allocateIn_none (vecMap : VecMap) (mem : Nat) {l : List Cache}
    (h : ∀ c ∈ l, c.blockSize < bytes) : allocateIn vecMap bytes mem l=some (l,mem) := by
  induction l with
  | nil => rfl
  | cons c l ih =>
    obtain ⟨hc,hl⟩ := List.forall_mem_cons.mp h
    rw [allocateIn,if_neg (by omega),ih hl,Option.map_some]

theorem deallocateIn_mid (ptr : Nat) (hlo : ∀ c ∈ lo, c.blockSize < bytes)
    (hit : bytes ≤ it.blockSize) : deallocateIn bytes ptr (lo ++ it :: hi)=
      (it.deallocate ptr).map fun it => lo ++ it :: hi := by
  induction lo with
  | nil => simp [deallocateIn,hit]
  | cons c lo ih =>
    obtain ⟨hc,hlo⟩ := List.forall_mem_cons.mp hlo
    rw [List.cons_append,deallocateIn,if_neg (by omega),ih hlo,Option.map_map]
    rfl

theorem deallocateIn_none (ptr : Nat) {l : List Cache} (h : ∀ c ∈ l, c.blockSize < bytes) :
    deallocateIn bytes ptr l=some l := by
  induction l with
  | nil => rfl
  | cons c l ih =>
    obtain ⟨hc,hl⟩ := List.forall_mem_cons.mp h
    rw [deallocateIn,if_neg (by omega),ih hl,Option.map_some]

theorem bucketFor_cases (i : Interface) (bytes : Nat) :
    (i.bucketFor bytes=none ∧ ∀ c ∈ i.buckets, c.blockSize < bytes) ∨
    ∃ lo it hi, i.buckets=lo ++ it :: hi ∧ (∀ c ∈ lo, c.blockSize < bytes) ∧
      bytes ≤ it.blockSize ∧ i.bucketFor bytes=some lo.length := by
  rcases Vector.findIdx?_cases (fun it : Cache => decide (bytes ≤ it.blockSize)) i.buckets with
    ⟨hf,hn⟩ | ⟨lo,it,hi,he,hlo,hp,hf⟩
  · exact .inl ⟨hf,fun c hc => by simpa using hn c hc⟩
  · exact .inr ⟨lo,it,hi,he,fun c hc => by simpa using hlo c hc,by simpa using hp,hf⟩

/-- The two loops stop at the same cache as long as the block sizes stay. -/
theorem bucketFor_congr {i j : Interface}
    (h : i.buckets.map Cache.blockSize=j.buckets.map Cache.blockSize) (bytes : Nat) :
    i.bucketFor bytes=j.bucketFor bytes := by
  have hm : ∀ i : Interface, i.bucketFor bytes=
      (i.buckets.map Cache.blockSize).findIdx? fun n => decide (bytes ≤ n) := by
    intro i
    rw [List.findIdx?_map]
    rfl
  rw [hm,hm,h]

theorem allocateTarget_congr {i j : Interface}
    (h : i.buckets.map Cache.blockSize=j.buckets.map Cache.blockSize) (sizeofT count : Nat) :
    i.allocateTarget sizeofT count=j.allocateTarget sizeofT count := by
  simp only [allocateTarget,bucketFor_congr h]

end Loops

end Interface

/-- A block handed out: the type and number it was asked for, and where it came from. -/
structure Loan where
  ptr : Nat
  sizeofT : Nat
  count : Nat
  target : Target
  deriving DecidableEq, Repr

/-- A block of the heap; `operator new` grants at least one byte. -/
def Loan.heapRange (e : Loan) : Option Extent :=
  match e.target with
  | .bucket _ => none
  | .heap bytes => some (e.ptr,max bytes 1)

/-- The caches and the blocks handed out and not given back. -/
structure Traffic where
  interface : Interface
  loans : List Loan

inductive Request
  | allocate (sizeofT count mem : Nat)
  | deallocate (e : Loan)
  deriving DecidableEq

def slabRanges (buckets : List Cache) : List Extent :=
  buckets.flatMap fun c => c.slabs.map fun s => s.region.extent

namespace Traffic

/-- The memory in use: that of all slabs, and the blocks of the heap. -/
def ranges (w : Traffic) : List Extent :=
  slabRanges w.interface.buckets ++ w.loans.filterMap Loan.heapRange

/-- If `operator new` is called, it returns memory that is not in use. -/
def Fresh (w : Traffic) (sizeofT count mem : Nat) : Prop :=
  ∀ n ∈ w.interface.newSize sizeofT count, ∀ e ∈ w.ranges, Extent.Apart (mem,max n 1) e

instance (w : Traffic) (sizeofT count mem : Nat) : Decidable (w.Fresh sizeofT count mem) :=
  match h : w.interface.newSize sizeofT count with
  | none => .isTrue (by simp [Fresh,h])
  | some n => decidable_of_iff (∀ e ∈ w.ranges, Extent.Apart (mem,max n 1) e) (by simp [Fresh,h])

/-- One call; a block is given back with the type and number it was asked for. -/
def serve (w : Traffic) : Request → Option Traffic
  | .allocate sizeofT count mem =>
    if sizeofT*count < 2^64 ∧ w.Fresh sizeofT count mem then
      (w.interface.allocate sizeofT count mem).map fun (i,ptr) =>
        ⟨i,⟨ptr,sizeofT,count,w.interface.allocateTarget sizeofT count⟩ :: w.loans⟩
    else none
  | .deallocate e =>
    if e ∈ w.loans then
      (w.interface.deallocate e.sizeofT e.ptr e.count).map fun i => ⟨i,w.loans.erase e⟩
    else none

/-- The caches of any calls of `addCache`, none with fewer than two blocks in a slab. -/
def machine (pgSz : Nat) : Machine Traffic Request where
  start w := ∃ caches : List (Nat × Nat × Nat),
    caches.foldlM (fun i q => Interface.addCache pgSz i q.1 q.2.1 q.2.2) ⟨[],[]⟩=
      some w.interface ∧
    (∀ c ∈ w.interface.buckets, 2 ≤ c.count) ∧ Tiled (slabRanges w.interface.buckets) ∧ w.loans=[]
  next := serve

/-- A block goes back to where it came from: the cache that is called is the one with a slab that
has it, and the heap gets the number of bytes it granted. -/
structure Routed (w : Traffic) (e : Loan) : Prop where
  owner : ∀ idx, (∃ c, w.interface.buckets[idx]?=some c ∧ ∃ s ∈ c.slabs, s.region.Contains e.ptr) ↔
    w.interface.deallocateTarget e.sizeofT e.count=.bucket idx
  size : ∀ bytes, e.target=.heap bytes →
    w.interface.deallocateTarget e.sizeofT e.count=.heap bytes

/-- The blocks a cache has handed out. -/
def liveIn (idx : Nat) (loans : List Loan) : List Nat :=
  (loans.filter fun e => decide (e.target=.bucket idx)).map Loan.ptr

/-- Each cache accounts for the blocks that came from it, no memory is used twice, and the blocks
came from where `allocate` would take them now. -/
structure Kept (w : Traffic) : Prop where
  counted : ∀ (idx : Nat) (c : Cache), w.interface.buckets[idx]?=some c →
    0 < c.blockSize ∧ 2 ≤ c.count ∧
      Counted c.blockSize c.count ⟨w.interface.vecMap,c,liveIn idx w.loans⟩
  tiled : Tiled w.ranges
  bounded : ∀ e ∈ w.loans, e.sizeofT*e.count < 2^64
  target : ∀ e ∈ w.loans, e.target=w.interface.allocateTarget e.sizeofT e.count

theorem slabRanges_mid (lo hi : List Cache) (it : Cache) : (slabRanges (lo ++ it :: hi)).Perm
    ((it.slabs.map fun s => s.region.extent) ++ (slabRanges lo ++ slabRanges hi)) :=
  Vector.flatMap_mid_perm lo hi it _

namespace Kept

variable {w : Traffic} {lo hi : List Cache} {it it' : Cache} {e : Loan} {loans : List Loan}

theorem mid (h : w.Kept) (hs : w.interface.buckets=lo ++ it :: hi) :
    0 < it.blockSize ∧ 2 ≤ it.count ∧
      Counted it.blockSize it.count ⟨w.interface.vecMap,it,liveIn lo.length w.loans⟩ :=
  h.counted lo.length it (by rw [hs,Vector.getElem?_mid])

/-- One cache and its blocks change; the other caches keep theirs. -/
theorem replace (h : w.Kept) (hs : w.interface.buckets=lo ++ it :: hi)
    (hc : Counted it.blockSize it.count ⟨w.interface.vecMap,it',liveIn lo.length loans⟩)
    (hother : ∀ idx, idx ≠ lo.length → (liveIn idx w.loans).Perm (liveIn idx loans))
    (ht : Tiled (ranges ⟨{ w.interface with buckets := lo ++ it' :: hi },loans⟩))
    (hloans : ∀ e ∈ loans, e.sizeofT*e.count < 2^64 ∧
      e.target=w.interface.allocateTarget e.sizeofT e.count) :
    Kept ⟨{ w.interface with buckets := lo ++ it' :: hi },loans⟩ := by
  obtain ⟨h0,hmin,_⟩ := h.mid hs
  have hsize : it'.blockSize=it.blockSize := hc.blockSize_eq
  have hcount : it'.count=it.count := hc.count_eq
  have hmap : w.interface.buckets.map Cache.blockSize=
      (lo ++ it' :: hi).map Cache.blockSize := by
    simp [hs,hsize]
  refine ⟨?_,ht,fun e he => (hloans e he).1,?_⟩
  · intro idx c hg
    rcases Vector.getElem?_mid_cases lo hi it' it hg with ⟨rfl,rfl⟩ | ⟨hne,hg⟩
    · rw [hsize,hcount]
      exact ⟨h0,hmin,hc⟩
    · obtain ⟨h1,h2,h3⟩ := h.counted idx c (hs ▸ hg)
      exact ⟨h1,h2,h3.live_perm (hother idx hne)⟩
  · intro e he
    rw [(hloans e he).2]
    exact Interface.allocateTarget_congr hmap _ _

/-- Blocks of other origin do not count. -/
theorem liveIn_cons_ne {idx : Nat} (h : e.target ≠ .bucket idx) (loans : List Loan) :
    liveIn idx (e :: loans)=liveIn idx loans := by
  simp [liveIn,h]

theorem liveIn_cons_eq {idx : Nat} (h : e.target=.bucket idx) (loans : List Loan) :
    liveIn idx (e :: loans)=e.ptr :: liveIn idx loans := by
  simp [liveIn,h]

theorem liveIn_perm {loans' : List Loan} (h : loans.Perm loans') (idx : Nat) :
    (liveIn idx loans).Perm (liveIn idx loans') := (h.filter _).map _

theorem mem_liveIn {idx : Nat} (hm : e ∈ loans) (h : e.target=.bucket idx) :
    e.ptr ∈ liveIn idx loans := by
  refine List.mem_map_of_mem (List.mem_filter.mpr ⟨hm,?_⟩)
  simpa using h

/-- The order of the blocks does not matter. -/
theorem loans_perm (h : w.Kept) (hp : w.loans.Perm loans) : Kept ⟨w.interface,loans⟩ := by
  refine ⟨?_,(tiled_perm ((hp.filterMap _).append_left _)).mp h.tiled,
    fun e he => h.bounded e (hp.mem_iff.mpr he),fun e he => h.target e (hp.mem_iff.mpr he)⟩
  intro idx c hc
  obtain ⟨h1,h2,h3⟩ := h.counted idx c hc
  exact ⟨h1,h2,h3.live_perm (liveIn_perm hp idx)⟩

/-- A block of the heap is memory like any other. -/
theorem grant (h : w.Kept) {sizeofT count mem : Nat} (hb : sizeofT*count < 2^64)
    (hf : w.Fresh sizeofT count mem)
    (hn : w.interface.bucketFor (toSizeT (count*sizeofT))=none) :
    Kept ⟨w.interface,⟨mem,sizeofT,count,w.interface.allocateTarget sizeofT count⟩ :: w.loans⟩ := by
  have ht : w.interface.allocateTarget sizeofT count=.heap (toSizeT (count*sizeofT)) := by
    simp [Interface.allocateTarget,hn]
  have hap := hf (toSizeT (count*sizeofT)) (by simp [Interface.newSize,ht])
  refine ⟨?_,?_,List.forall_mem_cons.mpr ⟨hb,h.bounded⟩,
    List.forall_mem_cons.mpr ⟨rfl,h.target⟩⟩
  · intro idx c hc
    rw [liveIn_cons_ne (by simp [ht])]
    exact h.counted idx c hc
  · have hr : (⟨mem,sizeofT,count,w.interface.allocateTarget sizeofT count⟩ : Loan).heapRange=
        some (mem,max (toSizeT (count*sizeofT)) 1) := by
      simp [Loan.heapRange,ht]
    unfold ranges
    simp only [List.filterMap_cons,hr]
    exact (tiled_perm List.perm_middle).mpr (tiled_cons.mpr ⟨hap,h.tiled⟩)

/-- A call of `allocate` that the heap can serve is defined. -/
theorem allocate (h : w.Kept) {sizeofT count mem : Nat} (hb : sizeofT*count < 2^64)
    (hf : w.Fresh sizeofT count mem) :
    ∃ i ptr, w.interface.allocate sizeofT count mem=some (i,ptr) ∧
      Kept ⟨i,⟨ptr,sizeofT,count,w.interface.allocateTarget sizeofT count⟩ :: w.loans⟩ := by
  rcases Interface.bucketFor_cases w.interface (toSizeT (count*sizeofT)) with
    ⟨hn,hall⟩ | ⟨lo,it,hi,hs,hlo,hle,hfor⟩
  · refine ⟨w.interface,mem,?_,h.grant hb hf hn⟩
    simp [Interface.allocate,Interface.allocateIn_none _ _ hall]
  · have ht : w.interface.allocateTarget sizeofT count=.bucket lo.length := by
      simp [Interface.allocateTarget,hfor]
    obtain ⟨h0,hmin,hc⟩ := h.mid hs
    have hranges : w.ranges.Perm ((it.slabs.map fun s => s.region.extent) ++
        ((slabRanges lo ++ slabRanges hi) ++ w.loans.filterMap Loan.heapRange)) := by
      rw [ranges,hs,← List.append_assoc]
      exact (slabRanges_mid lo hi it).append_right _
    have hpos : 1 ≤ it.blockSize*it.count := Nat.mul_pos h0 (by omega)
    have hnew : Pool.Grows it → ∀ e ∈ w.ranges, Extent.Apart (mem,it.blockSize*it.count) e := by
      intro hg e he
      have hap := hf (it.blockSize*it.count) (by simp [Interface.newSize,ht,hs,hg]) e he
      rwa [max_eq_left hpos] at hap
    obtain ⟨c',ptr,es,ha,_,hcounted,hext⟩ := hc.allocate h0 hmin
      (fun hg s hsl => hnew hg _ (hranges.mem_iff.mpr
        (List.mem_append_left _ (List.mem_map_of_mem hsl))))
    refine ⟨{ w.interface with buckets := lo ++ c' :: hi },ptr,?_,
      h.replace hs ?_ ?_ ?_ ?_⟩
    · simp [Interface.allocate,hs,Interface.allocateIn_mid _ _ hlo hle,ha]
    · rw [liveIn_cons_eq ht]
      exact hcounted
    · intro idx hne
      rw [liveIn_cons_ne (by simp [ht]; omega)]
    · have hr : (⟨ptr,sizeofT,count,w.interface.allocateTarget sizeofT count⟩ : Loan).heapRange=
          none := by
        simp [Loan.heapRange,ht]
      have hp : (ranges ⟨{ w.interface with buckets := lo ++ c' :: hi },
          ⟨ptr,sizeofT,count,w.interface.allocateTarget sizeofT count⟩ :: w.loans⟩).Perm
          ((if Pool.Grows it then [(mem,it.blockSize*it.count)] else []) ++ w.ranges) := by
        simp only [ranges,List.filterMap_cons,hr]
        refine ((slabRanges_mid lo hi c').append_right _).trans ?_
        rw [List.append_assoc]
        refine (hext.append_right _).trans ?_
        rw [List.append_assoc]
        exact hranges.symm.append_left _
      refine (tiled_perm hp).mpr ?_
      split_ifs with hg
      · exact tiled_cons.mpr ⟨hnew hg,h.tiled⟩
      · exact h.tiled
    · exact List.forall_mem_cons.mpr ⟨⟨hb,rfl⟩,fun e he => ⟨h.bounded e he,h.target e he⟩⟩

/-- A live block can be given back. -/
theorem deallocate (h : w.Kept) (hm : e ∈ w.loans) :
    ∃ i, w.interface.deallocate e.sizeofT e.ptr e.count=some i ∧ Kept ⟨i,w.loans.erase e⟩ := by
  have hp := List.perm_cons_erase hm
  have hk := h.loans_perm hp
  have ht := h.target e hm
  have hrest : ∀ x ∈ w.loans.erase e, x ∈ w.loans := fun x hx => List.mem_of_mem_erase hx
  rcases Interface.bucketFor_cases w.interface (toSizeT (e.count*e.sizeofT)) with
    ⟨hn,hall⟩ | ⟨lo,it,hi,hs,hlo,hle,hfor⟩
  · have ht' : e.target=.heap (toSizeT (e.count*e.sizeofT)) := by
      simp [ht,Interface.allocateTarget,hn]
    refine ⟨w.interface,?_,?_,?_,fun x hx => h.bounded x (hrest x hx),
      fun x hx => h.target x (hrest x hx)⟩
    · simp [Interface.deallocate,Interface.deallocateIn_none _ hall]
    · intro idx c hc
      have := hk.counted idx c hc
      rwa [liveIn_cons_ne (by simp [ht'])] at this
    · exact List.Pairwise.sublist ((List.erase_sublist.filterMap _).append_left _) h.tiled
  · have ht' : e.target=.bucket lo.length := by
      simp [ht,Interface.allocateTarget,hfor]
    obtain ⟨h0,hmin,hc⟩ := hk.mid hs
    rw [liveIn_cons_eq ht'] at hc
    obtain ⟨c',es,hd,_,hcounted,hext⟩ := hc.deallocate hmin (List.mem_cons_self)
    rw [List.erase_cons_head] at hcounted
    refine ⟨{ w.interface with buckets := lo ++ c' :: hi },?_,
      hk.replace hs hcounted ?_ ?_ fun x hx =>
        ⟨h.bounded x (hrest x hx),h.target x (hrest x hx)⟩⟩
    · simp [Interface.deallocate,hs,Interface.deallocateIn_mid _ hlo hle,hd]
    · intro idx hne
      rw [liveIn_cons_ne (by simp [ht']; omega)]
    · have hold := hk.tiled
      have hr : e.heapRange=none := by simp [Loan.heapRange,ht']
      simp only [ranges,List.filterMap_cons,hr,hs] at hold ⊢
      refine (tiled_perm (List.Perm.append_right _ ?_)).mp hold
      exact (slabRanges_mid lo hi it).trans
        ((hext.symm.append_right _).trans (slabRanges_mid lo hi c').symm)

theorem exists_bucket (h : w.Kept) (hm : e ∈ w.loans) {idx : Nat} (ht : e.target=.bucket idx) :
    ∃ c, w.interface.buckets[idx]?=some c := by
  have ha := (h.target e hm).symm.trans ht
  rcases Interface.bucketFor_cases w.interface (toSizeT (e.count*e.sizeofT)) with
    ⟨hn,_⟩ | ⟨lo,it,hi,hs,_,_,hfor⟩
  · simp [Interface.allocateTarget,hn] at ha
  · simp only [Interface.allocateTarget,hfor] at ha
    obtain rfl := Target.bucket.inj ha
    exact ⟨it,by rw [hs,Vector.getElem?_mid]⟩

/-- The cache that has a live block, if one has it, is where the block came from. -/
theorem owner_iff (h : w.Kept) (hm : e ∈ w.loans) (idx : Nat) :
    (∃ c, w.interface.buckets[idx]?=some c ∧ ∃ s ∈ c.slabs, s.region.Contains e.ptr) ↔
      e.target=.bucket idx := by
  constructor
  · rintro ⟨c,hc,s,hs,hin⟩
    obtain ⟨lo,hi,hb,rfl⟩ := Vector.eq_mid c hc
    have hslab : s.region.extent ∈ slabRanges w.interface.buckets :=
      List.mem_flatMap.mpr ⟨c,by simp [hb],List.mem_map_of_mem hs⟩
    cases ht : e.target with
    | heap bytes =>
      have hr : (e.ptr,max bytes 1) ∈ w.loans.filterMap Loan.heapRange :=
        List.mem_filterMap.mpr ⟨e,hm,by simp [Loan.heapRange,ht]⟩
      have hap := (tiled_append.mp h.tiled).2.2 _ hslab _ hr
      exact absurd (show e.ptr ∈ Extent.bytes (e.ptr,max bytes 1) by simp)
        (Set.disjoint_left.mp hap hin)
    | bucket j =>
      by_contra hne
      obtain ⟨d,hd⟩ := h.exists_bucket hm ht
      obtain ⟨_,_,hcounted⟩ := h.counted j d hd
      obtain ⟨t,htm,htc⟩ := hcounted.located e.ptr (mem_liveIn hm ht)
      have hj : j ≠ lo.length := fun he => hne (by rw [he])
      have hd' : d ∈ lo ++ hi := Vector.mem_append_of_getElem? lo hi c (hb ▸ hd) hj
      have ht := (tiled_append.mp h.tiled).1
      rw [hb,tiled_perm (slabRanges_mid lo hi c)] at ht
      have hap := (tiled_append.mp ht).2.2 _ (List.mem_map_of_mem hs) t.region.extent (by
        rw [slabRanges,slabRanges,← List.flatMap_append]
        exact List.mem_flatMap.mpr ⟨d,hd',List.mem_map_of_mem htm⟩)
      exact Region.not_contains_of_apart hap hin htc
  · intro ht
    obtain ⟨c,hc⟩ := h.exists_bucket hm ht
    obtain ⟨_,_,hcounted⟩ := h.counted idx c hc
    exact ⟨c,hc,hcounted.located e.ptr (mem_liveIn hm ht)⟩

/-- A block goes back to where it came from exactly if that is a cache, or the number of elements
is the number of bytes. -/
theorem routed_iff (h : w.Kept) (hm : e ∈ w.loans) :
    w.Routed e ↔ (∃ c ∈ w.interface.buckets, e.sizeofT*e.count ≤ c.blockSize) ∨
      e.sizeofT*e.count=e.count := by
  have ht := h.target e hm
  have hbytes : toSizeT (e.count*e.sizeofT)=e.sizeofT*e.count := by
    rw [Nat.mul_comm]
    exact Nat.mod_eq_of_lt (h.bounded e hm)
  rcases Interface.bucketFor_cases w.interface (toSizeT (e.count*e.sizeofT)) with
    ⟨hn,hall⟩ | ⟨lo,it,hi,hs,hlo,hle,hfor⟩
  · have ha : e.target=.heap (e.sizeofT*e.count) := by
      rw [← hbytes]
      simp [ht,Interface.allocateTarget,hn]
    have hd : w.interface.deallocateTarget e.sizeofT e.count=.heap e.count := by
      simp [Interface.deallocateTarget,hn]
    have hnone : ¬ ∃ c ∈ w.interface.buckets, e.sizeofT*e.count ≤ c.blockSize := by
      rintro ⟨c,hc,hle⟩
      have := hall c hc
      omega
    constructor
    · intro hr
      have := hr.size _ ha
      rw [hd] at this
      exact .inr (Target.heap.inj this).symm
    · intro hor
      have heq := hor.resolve_left hnone
      refine ⟨fun idx => ?_,fun bytes hb => ?_⟩
      · rw [h.owner_iff hm,ha,hd]
        simp
      · rw [hd,← hb,ha,heq]
  · have ha : e.target=.bucket lo.length := by
      simp [ht,Interface.allocateTarget,hfor]
    have hd : w.interface.deallocateTarget e.sizeofT e.count=.bucket lo.length := by
      simp [Interface.deallocateTarget,hfor]
    refine iff_of_true ⟨fun idx => ?_,fun bytes hb => ?_⟩ (.inl ⟨it,by simp [hs],hbytes ▸ hle⟩)
    · rw [h.owner_iff hm,ha,hd]
    · cases ha.symm.trans hb

end Kept

section Runs

variable {w w' : Traffic}

theorem lookup_addToMap {vecMap : VecMap} {k : Nat} {l : List Nat} (count : Nat)
    (h : vecMap.lookup k=some l) : (addToMap vecMap count).lookup k=some l := by
  unfold addToMap
  cases hc : vecMap.lookup count with
  | none =>
    have hne : (k==count)=false := by
      refine beq_eq_false_iff_ne.mpr ?_
      intro he
      rw [he,hc] at h
      cases h
    simpa [List.lookup_cons,hne] using h
  | some _ => exact h

/-- Every cache that was added accounts for its blocks, none of which is live. -/
def Prepared (i : Interface) : Prop :=
  i.vecMap.Built ∧ ∀ c ∈ i.buckets, 0 < c.blockSize ∧
    Counted c.blockSize c.count ⟨i.vecMap,c,[]⟩

theorem Prepared.addCache {i j : Interface} (h : Prepared i) {pgSz blockSize count mem : Nat}
    (hj : i.addCache pgSz blockSize count mem=some j) : Prepared j := by
  rw [Interface.addCache] at hj
  split_ifs at hj with h0
  obtain rfl := Option.some.inj hj
  refine ⟨(h.1.addToMap _).1,?_⟩
  intro c hc
  rcases List.mem_append.mp hc with hc | hc
  · obtain ⟨h1,h2⟩ := h.2 c hc
    exact ⟨h1,{ h2 with indices := lookup_addToMap _ h2.indices }⟩
  · obtain rfl := List.mem_singleton.mp hc
    exact ⟨Nat.pos_of_ne_zero h0,counted_make h.1 mem⟩

theorem Prepared.foldlM {pgSz : Nat} {caches : List (Nat × Nat × Nat)} {i j : Interface}
    (h : Prepared i)
    (hj : caches.foldlM (fun i q => Interface.addCache pgSz i q.1 q.2.1 q.2.2) i=some j) :
    Prepared j := by
  induction caches generalizing i with
  | nil =>
    obtain rfl := Option.some.inj hj
    exact h
  | cons q caches ih =>
    rw [List.foldlM_cons] at hj
    obtain ⟨k,hk,hj⟩ := Option.bind_eq_some_iff.mp hj
    exact ih (h.addCache hk) hj

theorem kept_start {pgSz : Nat} (h : (machine pgSz).start w) : Kept w := by
  obtain ⟨caches,hc,hmin,ht,hl⟩ := h
  have hp : Prepared w.interface :=
    Prepared.foldlM (i := ⟨[],[]⟩) ⟨by simp [VecMap.Built],by simp⟩ hc
  refine ⟨?_,?_,by simp [hl],by simp [hl]⟩
  · intro idx c hi
    have hm := List.mem_of_getElem? hi
    obtain ⟨h1,h2⟩ := hp.2 c hm
    exact ⟨h1,hmin c hm,by simpa [liveIn,hl] using h2⟩
  · simpa [ranges,hl] using ht

theorem kept_next {q : Request} (h : w.Kept) (hn : w.serve q=some w') : Kept w' := by
  cases q with
  | allocate sizeofT count mem =>
    simp only [serve] at hn
    split_ifs at hn with hg
    obtain ⟨i,ptr,ha,hk⟩ := h.allocate hg.1 hg.2
    rw [ha] at hn
    obtain rfl := Option.some.inj hn
    exact hk
  | deallocate e =>
    simp only [serve] at hn
    split_ifs at hn with hm
    obtain ⟨i,hd,hk⟩ := h.deallocate hm
    rw [hd] at hn
    obtain rfl := Option.some.inj hn
    exact hk

/-- In every run over any caches a live block goes back to where it came from exactly if a cache
is large enough for it, or it has as many elements as bytes. -/
theorem routed_iff_sizesAgree (pgSz : Nat) (hr : (machine pgSz).Reachable w) {e : Loan}
    (hm : e ∈ w.loans) :
    w.Routed e ↔ (∃ c ∈ w.interface.buckets, e.sizeofT*e.count ≤ c.blockSize) ∨
      e.sizeofT*e.count=e.count := by
  have h : w.Kept := hr.invariant (fun _ hs => kept_start hs) (fun _ _ _ hk hn => kept_next hk hn)
  exact h.routed_iff hm

/-- Caches with blocks of 2048 and of 1024 bytes, added in that order: 100 values of 8 bytes go to
the first and come back to it. -/
theorem routed_iff_sizesAgree_two_caches :
    ∃ (w : Traffic) (e : Loan), (machine 4096).Reachable w ∧
      (e ∈ w.loans ∧ e.target=.bucket 0 ∧ e.sizeofT*e.count=800) ∧
      (w.Routed e ↔ (∃ c ∈ w.interface.buckets, e.sizeofT*e.count ≤ c.blockSize) ∨
        e.sizeofT*e.count=e.count) := by
  obtain ⟨i,hi⟩ : ∃ i, [(2048,2,65536),(1024,4,131072)].foldlM
      (fun i q => Interface.addCache 4096 i q.1 q.2.1 q.2.2) ⟨[],[]⟩=some i := ⟨_,rfl⟩
  obtain ⟨w,hr,hm⟩ := Machine.reachable_of_runFrom (machine 4096) ⟨i,[]⟩ [.allocate 8 100 0]
    (fun w => ⟨65536,8,100,.bucket 0⟩ ∈ w.loans) ⟨_,hi,by cases hi; decide,by cases hi; decide,rfl⟩
    (by cases hi; decide)
  exact ⟨w,_,hr,⟨hm,rfl,rfl⟩,routed_iff_sizesAgree 4096 hr hm⟩

/-- One cache with blocks of 2048 bytes and 1024 values of 4 bytes: 4096 bytes are asked of
`operator new`, and 1024 are named to `operator delete`. -/
theorem large_block_is_missized :
    ∃ (w : Traffic) (e : Loan), (machine 4096).Reachable w ∧ e ∈ w.loans ∧ ¬ w.Routed e := by
  obtain ⟨i,hi⟩ : ∃ i, [(2048,2,65536)].foldlM
      (fun i q => Interface.addCache 4096 i q.1 q.2.1 q.2.2) ⟨[],[]⟩=some i := ⟨_,rfl⟩
  obtain ⟨w,hr,hm,hd⟩ := Machine.reachable_of_runFrom (machine 4096) ⟨i,[]⟩
    [.allocate 4 1024 131072]
    (fun w => ⟨131072,4,1024,.heap 4096⟩ ∈ w.loans ∧
      w.interface.deallocateTarget 4 1024=.heap 1024)
    ⟨_,hi,by cases hi; decide,by cases hi; decide,rfl⟩ (by cases hi; decide)
  refine ⟨w,_,hr,hm,?_⟩
  intro hrouted
  have hs := hrouted.size 4096 rfl
  rw [hd] at hs
  exact absurd hs (by decide)

end Runs

end Traffic

end Allocators.SlabMem
