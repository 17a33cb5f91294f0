import Allocators.SlabMem.Release
import Allocators.SlabMem.Routing

/-! All calls of `SlabMem` in any order, also `addCache` while blocks are out. -/

namespace Allocators.SlabMem

open Lib Extent SlabImpl

namespace Interface

/-- The cache at which the loop of `freeFunc` stops. -/
def freedBucket (i : Interface) (cacheSize : Nat) : Option Nat :=
  i.buckets.findIdx? fun it => decide (cacheSize=0 ∨ it.blockSize=cacheSize)

def info (i : Interface) : List CacheInfo := i.buckets.map Cache.info

end Interface

/-- A call of `SlabMem`; `mem` is where `operator new` puts a new slab or a large block. -/
inductive Order
  | addCache (blockSize count mem : Nat)
  | allocate (sizeofT count mem : Nat)
  | deallocate (e : Loan)
  | freeAll (cacheSize : Nat)
  | freeEmpty (cacheSize : Nat)
  deriving DecidableEq

namespace Traffic

/-- One call. A cache has slabs of two blocks or more and no more than `MAX_SLAB_BLOCKS`; the blocks
of a cache that `freeAll` released are gone. -/
def obey (pgSz : Nat) (w : Traffic) : Order → Option Traffic
  | .addCache blockSize count mem =>
    let n := roundedCount pgSz blockSize count
    if (2 ≤ n ∧ n ≤ maxSlabBlocks) ∧ ∀ e ∈ w.ranges, Extent.Apart (mem,blockSize*n) e then
      (w.interface.addCache pgSz blockSize count mem).map fun i => ⟨i,w.loans⟩
    else none
  | .allocate sizeofT count mem => w.serve (.allocate sizeofT count mem)
  | .deallocate e => w.serve (.deallocate e)
  | .freeAll cacheSize =>
    some ⟨w.interface.freeAll cacheSize,w.loans.filter fun e =>
      decide ((w.interface.freedBucket cacheSize).map Target.bucket ≠ some e.target)⟩
  | .freeEmpty cacheSize => some ⟨w.interface.freeEmpty cacheSize,w.loans⟩

/-- `SlabMem` from its first call on. -/
def lateMachine (pgSz : Nat) : Machine Traffic Order where
  start w := w=⟨⟨[],[]⟩,[]⟩
  next := obey pgSz

/-- No large block that is out would have fitted into the new cache. -/
def Spares (w : Traffic) : Order → Prop
  | .addCache blockSize _ _ => ∀ e ∈ w.loans, ∀ bytes, e.target=.heap bytes → blockSize < bytes
  | _ => True

/-- The bytes of a block: a whole block of its cache, or what `operator new` was asked for. -/
def range (w : Traffic) (e : Loan) : Extent :=
  match e.target with
  | .bucket idx => (e.ptr,((w.interface.buckets[idx]?).map Cache.blockSize).getD 0)
  | .heap bytes => (e.ptr,bytes)

/-- No block shares a byte with another one or is too small, each can be given back and
`deallocate` sends it to the cache it came from, or on to `operator delete` if it came from none, and
`info` tells how many are out. The size that `operator delete` gets is not part of it. -/
structure Intact (w : Traffic) : Prop where
  tiled : Tiled (w.loans.map w.range)
  room : ∀ e ∈ w.loans, e.sizeofT*e.count ≤ (w.range e).2
  target : ∀ e ∈ w.loans, ∀ idx,
    w.interface.deallocateTarget e.sizeofT e.count=.bucket idx ↔ e.target=.bucket idx
  deallocate : ∀ e ∈ w.loans, (w.interface.deallocate e.sizeofT e.ptr e.count).isSome
  info : w.interface.info.map CacheInfo.size=
    (List.range w.interface.buckets.length).map fun idx => (liveIn idx w.loans).length

end Traffic

section Release

variable {blockSize count : Nat} {p : Pool}

theorem Counted.freeAll (h : Counted blockSize count p) :
    Counted blockSize count ⟨p.vecMap,p.cache.freeAll,[]⟩ := by
  refine ⟨.empty _ _,h.indices,h.count_eq,h.blockSize_eq,?_,?_,?_,?_⟩
  all_goals simp [Cache.slabs,Cache.freeAll,Tiled]

theorem Counted.freeEmpty (h : Counted blockSize count p) :
    Counted blockSize count ⟨p.vecMap,p.cache.freeEmpty,p.live⟩ := by
  have hsub := p.cache.slabs_freeEmpty_sublist
  refine ⟨⟨?_,?_,?_⟩,h.indices,by simpa using h.count_eq,by simpa using h.blockSize_eq,
    fun s hs => h.shape s (hsub.mem hs),fun s hs => h.tally s (hsub.mem hs),?_,
    List.Pairwise.sublist (hsub.map _) h.apart⟩
  · intro x s hs
    have hx : s ∈ p.cache.store x := by
      cases x with
      | slabsFree => simp [Cache.store] at hs
      | slabsPart => simpa [Cache.store] using hs
      | slabsFull => simpa [Cache.store] using hs
    simpa using h.filled.levels x s hx
  · intro s hs
    simpa using h.filled.shape s (hsub.mem hs)
  · have hsize := h.filled.size
    have hfree : (p.cache.slabsFree.map fun s => s.availible.length).sum=
        p.cache.count*p.cache.slabsFree.length := by
      have hlen : ∀ s ∈ p.cache.slabsFree, s.availible.length=p.cache.count :=
        h.filled.levels .slabsFree
      rw [List.map_congr_left hlen]
      simp [Nat.mul_comm]
    simp only [Cache.slabs,List.map_append,List.sum_append,List.length_append,Nat.mul_add,hfree,
      Cache.freeEmpty_slabsFree,Cache.freeEmpty_mySize,Cache.freeEmpty_count,
      Cache.freeEmpty_slabsPart,Cache.freeEmpty_slabsFull,List.map_nil,List.sum_nil,
      List.length_nil,Nat.zero_add] at hsize ⊢
    omega
  · intro q hq
    obtain ⟨s,hs,hc⟩ := h.located q hq
    obtain ⟨x,hx⟩ := Cache.mem_slabs.mp hs
    refine ⟨s,Cache.mem_slabs.mpr ⟨x,?_⟩,hc⟩
    cases x with
    | slabsFree =>
      have hlen : s.availible.length=p.cache.count := h.filled.levels .slabsFree s hx
      have hall := (h.tally s hs).length_eq_iff.mp (hlen.trans (h.filled.shape s hs).symm)
      exact absurd hc (hall q hq)
    | slabsPart => simpa [Cache.store] using hx
    | slabsFull => simpa [Cache.store] using hx

theorem sound_live_perm (h : Pool.Sound blockSize count p) {live' : List Nat}
    (hp : p.live.Perm live') : Pool.Sound blockSize count ⟨p.vecMap,p.cache,live'⟩ := by
  refine ⟨⟨?_,fun s hs => (h.accounts s hs).congr fun i _ => hp.mem_iff.symm,
    fun q hq => h.located q (hp.mem_iff.mpr hq),hp.nodup_iff.mp h.nodup,h.size.trans hp.length_eq⟩,
    h.indices,h.blockSize_eq,h.count_eq,h.shape,h.apart⟩
  intro x s hs
  have hf := h.fits x s hs
  cases x with
  | slabsFree => exact fun q hq => hf q (hp.mem_iff.mpr hq)
  | slabsPart =>
    obtain ⟨⟨q,hq,hc⟩,ha⟩ := hf
    exact ⟨⟨q,hp.mem_iff.mp hq,hc⟩,ha⟩
  | slabsFull => exact hf

/-- The blocks of a cache share no byte. -/
theorem sound_tiled (h : Pool.Sound blockSize count p) :
    Tiled (p.live.map fun ptr => ((ptr,blockSize) : Extent)) := by
  have hapart : Tiled ((p.cache.slabs.map Slab.region).map Region.extent) := by
    rw [List.map_map]
    exact h.apart
  refine Region.tiled_blocks hapart h.nodup ?_
  intro ptr hm
  obtain ⟨s,hs,hb⟩ := h.located ptr hm
  exact ⟨s.region,List.mem_map_of_mem hs,(h.shape s hs).1,hb⟩

end Release

namespace Traffic

/-- Beside `Kept`: each cache represents the blocks that are out from it. -/
structure Held (w : Traffic) : Prop extends Kept w where
  built : w.interface.vecMap.Built
  pools : ∀ (idx : Nat) (c : Cache), w.interface.buckets[idx]?=some c → c.count ≤ maxSlabBlocks ∧
    Pool.Sound c.blockSize c.count ⟨w.interface.vecMap,c,liveIn idx w.loans⟩

namespace Held

variable {w : Traffic} {lo hi : List Cache} {it it' : Cache} {e : Loan} {loans : List Loan}
  {i : Interface} {pgSz : Nat}

/-- One cache and its blocks change; the others keep theirs. -/
theorem replace (h : w.Held) (hs : w.interface.buckets=lo ++ it :: hi)
    (hk : Kept ⟨{ w.interface with buckets := lo ++ it' :: hi },loans⟩)
    (hp : Pool.Sound it.blockSize it.count ⟨w.interface.vecMap,it',liveIn lo.length loans⟩)
    (hother : ∀ idx, idx ≠ lo.length → (liveIn idx w.loans).Perm (liveIn idx loans)) :
    Held ⟨{ w.interface with buckets := lo ++ it' :: hi },loans⟩ := by
  have hit : w.interface.buckets[lo.length]?=some it := by rw [hs,Vector.getElem?_mid]
  have hsize : it'.blockSize=it.blockSize := hp.blockSize_eq
  have hcount : it'.count=it.count := hp.count_eq
  refine ⟨hk,h.built,?_⟩
  intro idx c hg
  rcases Vector.getElem?_mid_cases lo hi it' it hg with ⟨rfl,rfl⟩ | ⟨hne,hg⟩
  · rw [hsize,hcount]
    exact ⟨(h.pools lo.length it hit).1,hp⟩
  · obtain ⟨h1,h2⟩ := h.pools idx c (hs ▸ hg)
    exact ⟨h1,sound_live_perm h2 (hother idx hne)⟩

theorem allocate (h : w.Held) {sizeofT count mem : Nat} (hb : sizeofT*count < 2^64)
    (hf : w.Fresh sizeofT count mem) :
    ∃ i ptr, w.interface.allocate sizeofT count mem=some (i,ptr) ∧
      Held ⟨i,⟨ptr,sizeofT,count,w.interface.allocateTarget sizeofT count⟩ :: w.loans⟩ := by
  obtain ⟨i,ptr,ha,hk⟩ := h.toKept.allocate hb hf
  refine ⟨i,ptr,ha,?_⟩
  rcases Interface.bucketFor_cases w.interface (toSizeT (count*sizeofT)) with
    ⟨hn,hall⟩ | ⟨lo,it,hi,hs,hlo,hle,hfor⟩
  · have ht : w.interface.allocateTarget sizeofT count=.heap (toSizeT (count*sizeofT)) := by
      simp [Interface.allocateTarget,hn]
    simp only [Interface.allocate,Interface.allocateIn_none _ _ hall,Option.map_some,
      Option.some.injEq,Prod.mk.injEq] at ha
    obtain ⟨rfl,rfl⟩ := ha
    refine ⟨hk,h.built,?_⟩
    intro idx c hc
    rw [Kept.liveIn_cons_ne (by simp [ht])]
    exact h.pools idx c hc
  · have ht : w.interface.allocateTarget sizeofT count=.bucket lo.length := by
      simp [Interface.allocateTarget,hfor]
    obtain ⟨h0,hmin,_⟩ := h.toKept.mid hs
    obtain ⟨hmax,hp⟩ := h.pools lo.length it (by rw [hs,Vector.getElem?_mid])
    have hpos : 1 ≤ it.blockSize*it.count := Nat.mul_pos h0 (by omega)
    have hfresh : Pool.Grows it → Pool.Fresh it mem := by
      intro hg s hsl
      have hap := hf (it.blockSize*it.count) (by simp [Interface.newSize,ht,hs,hg])
        s.region.extent (List.mem_append_left _ (List.mem_flatMap.mpr
          ⟨it,by simp [hs],List.mem_map_of_mem hsl⟩))
      rwa [max_eq_left hpos] at hap
    obtain ⟨c',ptr',ha',_,hp'⟩ := hp.allocate h0 hmin hmax hfresh
    simp only [Interface.allocate,hs,Interface.allocateIn_mid _ _ hlo hle,ha',Option.map_some,
      Option.some.injEq,Prod.mk.injEq] at ha
    obtain ⟨rfl,rfl⟩ := ha
    refine h.replace hs hk ?_ ?_
    · rw [Kept.liveIn_cons_eq ht]
      exact hp'
    · intro idx hne
      rw [Kept.liveIn_cons_ne (by simp [ht]; omega)]

theorem deallocate (h : w.Held) (hm : e ∈ w.loans) :
    ∃ i, w.interface.deallocate e.sizeofT e.ptr e.count=some i ∧ Held ⟨i,w.loans.erase e⟩ := by
  obtain ⟨i,hd,hk⟩ := h.toKept.deallocate hm
  refine ⟨i,hd,?_⟩
  have hperm := List.perm_cons_erase hm
  have ht := h.target e hm
  rcases Interface.bucketFor_cases w.interface (toSizeT (e.count*e.sizeofT)) with
    ⟨hn,hall⟩ | ⟨lo,it,hi,hs,hlo,hle,hfor⟩
  · have ht' : e.target=.heap (toSizeT (e.count*e.sizeofT)) := by
      simp [ht,Interface.allocateTarget,hn]
    simp only [Interface.deallocate,Interface.deallocateIn_none _ hall,Option.map_some,
      Option.some.injEq] at hd
    subst hd
    refine ⟨hk,h.built,?_⟩
    intro idx c hc
    obtain ⟨h1,h2⟩ := h.pools idx c hc
    have hp := Kept.liveIn_perm hperm idx
    rw [Kept.liveIn_cons_ne (by simp [ht'])] at hp
    exact ⟨h1,sound_live_perm h2 hp⟩
  · have ht' : e.target=.bucket lo.length := by
      simp [ht,Interface.allocateTarget,hfor]
    obtain ⟨h0,hmin,_⟩ := h.toKept.mid hs
    obtain ⟨hmax,hp⟩ := h.pools lo.length it (by rw [hs,Vector.getElem?_mid])
    have hp := sound_live_perm hp (Kept.liveIn_perm hperm lo.length)
    rw [Kept.liveIn_cons_eq ht'] at hp
    obtain ⟨c',hd',hp'⟩ := hp.deallocate h0 hmin hmax List.mem_cons_self
    rw [List.erase_cons_head] at hp'
    simp only [Interface.deallocate,hs,Interface.deallocateIn_mid _ hlo hle,hd',Option.map_some,
      Option.some.injEq] at hd
    subst hd
    refine h.replace hs hk hp' ?_
    intro idx hne
    have hpi := Kept.liveIn_perm hperm idx
    rwa [Kept.liveIn_cons_ne (by simp [ht']; omega)] at hpi

/-- No block came from a cache that is not there. -/
theorem liveIn_nil (h : w.Held) {idx : Nat} (hi : w.interface.buckets.length ≤ idx) :
    liveIn idx w.loans=[] := by
  rw [liveIn,List.map_eq_nil_iff,List.filter_eq_nil_iff]
  intro e he ht
  obtain ⟨c,hc⟩ := h.exists_bucket he (of_decide_eq_true ht)
  have := (List.getElem?_eq_some_iff.mp hc).1
  omega

/-- A cache gives up slabs, and blocks of it may be gone. -/
theorem released (h : w.Held) (hs : w.interface.buckets=lo ++ it :: hi)
    (hsub : it'.slabs.Sublist it.slabs) (hl : loans.Sublist w.loans)
    (hc : Counted it.blockSize it.count ⟨w.interface.vecMap,it',liveIn lo.length loans⟩)
    (hp : Pool.Sound it.blockSize it.count ⟨w.interface.vecMap,it',liveIn lo.length loans⟩)
    (hother : ∀ idx, idx ≠ lo.length → (liveIn idx w.loans).Perm (liveIn idx loans)) :
    Held ⟨{ w.interface with buckets := lo ++ it' :: hi },loans⟩ := by
  refine h.replace hs (h.toKept.replace hs hc hother ?_ fun e he =>
    ⟨h.bounded e (hl.mem he),h.target e (hl.mem he)⟩) hp hother
  have hslabs : (slabRanges (lo ++ it' :: hi)).Sublist (slabRanges w.interface.buckets) := by
    simp only [hs,slabRanges,List.flatMap_append,List.flatMap_cons]
    exact (List.Sublist.refl _).append ((hsub.map _).append (.refl _))
  exact List.Pairwise.sublist (hslabs.append (hl.filterMap _)) h.tiled

end Held

end Traffic

namespace Interface

theorem freeIn_mid (all : Bool) {cacheSize : Nat} {lo hi : List Cache} {it : Cache}
    (hlo : ∀ c ∈ lo, ¬ (cacheSize=0 ∨ c.blockSize=cacheSize))
    (hit : cacheSize=0 ∨ it.blockSize=cacheSize) :
    freeIn all cacheSize (lo ++ it :: hi)=lo ++ release all it :: hi := by
  induction lo with
  | nil => simp only [List.nil_append,freeIn,if_pos hit,release]
  | cons c lo ih =>
    obtain ⟨hc,hlo⟩ := List.forall_mem_cons.mp hlo
    rw [List.cons_append,freeIn,if_neg hc,ih hlo,List.cons_append]

theorem freeIn_none (all : Bool) {cacheSize : Nat} {l : List Cache}
    (h : ∀ c ∈ l, ¬ (cacheSize=0 ∨ c.blockSize=cacheSize)) : freeIn all cacheSize l=l := by
  induction l with
  | nil => rfl
  | cons c l ih =>
    obtain ⟨hc,hl⟩ := List.forall_mem_cons.mp h
    rw [freeIn,if_neg hc,ih hl]

/-- The loop of `freeFunc` ends without a cache or at the first that matches. -/
theorem freeFunc_cases (i : Interface) (all : Bool) (cacheSize : Nat) :
    (i.freedBucket cacheSize=none ∧ freeFunc all i cacheSize=i) ∨
    ∃ lo it hi, i.buckets=lo ++ it :: hi ∧ i.freedBucket cacheSize=some lo.length ∧
      freeFunc all i cacheSize={ i with buckets := lo ++ release all it :: hi } := by
  rcases Vector.findIdx?_cases
    (fun it : Cache => decide (cacheSize=0 ∨ it.blockSize=cacheSize)) i.buckets with
    ⟨hf,hn⟩ | ⟨lo,it,hi,he,hlo,hp,hf⟩
  · refine .inl ⟨hf,?_⟩
    rw [freeFunc,freeIn_none all fun c hc => of_decide_eq_false (hn c hc)]
  · refine .inr ⟨lo,it,hi,he,hf,?_⟩
    rw [freeFunc,he,freeIn_mid all (fun c hc => of_decide_eq_false (hlo c hc))
      (of_decide_eq_true hp)]

/-- A new cache comes last. -/
theorem bucketFor_concat (i : Interface) (vecMap : VecMap) (c : Cache) (bytes : Nat) :
    bucketFor ⟨vecMap,i.buckets ++ [c]⟩ bytes=
      (i.bucketFor bytes).or (if bytes ≤ c.blockSize then some i.buckets.length else none) := by
  unfold bucketFor
  rw [List.findIdx?_append]
  split_ifs with hc
  · simp [List.findIdx?_cons,hc]
  · simp [List.findIdx?_cons,hc]

/-- A block that fits into no cache but a new one goes to that. -/
theorem deallocateTarget_concat {i : Interface} (vecMap : VecMap) {c : Cache} {sizeofT count : Nat}
    (hb : i.bucketFor (toSizeT (count*sizeofT))=none) (hc : toSizeT (count*sizeofT) ≤ c.blockSize) :
    deallocateTarget ⟨vecMap,i.buckets ++ [c]⟩ sizeofT count=.bucket i.buckets.length := by
  rw [deallocateTarget,bucketFor_concat,hb,Option.none_or,if_pos hc]

theorem addCache_cases {i j : Interface} {pgSz blockSize count mem : Nat}
    (h : i.addCache pgSz blockSize count mem=some j) : 0 < blockSize ∧
      j=⟨addToMap i.vecMap (roundedCount pgSz blockSize count),i.buckets ++
        [Cache.make (addToMap i.vecMap (roundedCount pgSz blockSize count)) mem blockSize
          (roundedCount pgSz blockSize count)]⟩ := by
  rw [addCache] at h
  split_ifs at h with h0
  exact ⟨Nat.pos_of_ne_zero h0,(Option.some.inj h).symm⟩

end Interface

namespace Traffic

namespace Held

variable {w w' : Traffic} {pgSz : Nat} {i : Interface}

theorem freeAll (h : w.Held) (cacheSize : Nat) : Held ⟨w.interface.freeAll cacheSize,
    w.loans.filter fun e =>
      decide ((w.interface.freedBucket cacheSize).map Target.bucket ≠ some e.target)⟩ := by
  rcases w.interface.freeFunc_cases true cacheSize with ⟨hn,he⟩ | ⟨lo,it,hi,hs,hf,he⟩
  · rw [Interface.freeAll,he,hn,List.filter_eq_self.mpr (by simp)]
    exact h
  · rw [Interface.freeAll,he,hf]
    obtain ⟨h0,hmin,hc⟩ := h.toKept.mid hs
    obtain ⟨hmax,hp⟩ := h.pools lo.length it (by rw [hs,Vector.getElem?_mid])
    have hnone : liveIn lo.length (w.loans.filter fun e =>
        decide ((some lo.length).map Target.bucket ≠ some e.target))=[] := by
      rw [liveIn,List.filter_filter,List.map_eq_nil_iff,List.filter_eq_nil_iff]
      intro e _ ht
      simp only [Option.map_some,ne_eq,Option.some.injEq,decide_not,Bool.and_eq_true,
        decide_eq_true_eq,Bool.not_eq_true',decide_eq_false_iff_not] at ht
      exact ht.2 ht.1.symm
    have hsub : it.freeAll.slabs.Sublist it.slabs := by simp [Cache.slabs,Cache.freeAll]
    refine h.released hs hsub List.filter_sublist ?_ ?_ ?_
    · rw [hnone]
      exact hc.freeAll
    · rw [hnone]
      exact hp.freeAll
    · intro idx hne
      rw [liveIn,liveIn,List.filter_filter]
      refine .of_eq (congrArg _ (List.filter_congr fun e _ => ?_))
      by_cases ht : e.target=.bucket idx
      · have hx : idx ≠ lo.length := hne
        simp [ht,Ne.symm hx]
      · simp [ht]

theorem freeEmpty (h : w.Held) (cacheSize : Nat) :
    Held ⟨w.interface.freeEmpty cacheSize,w.loans⟩ := by
  rcases w.interface.freeFunc_cases false cacheSize with ⟨_,he⟩ | ⟨lo,it,hi,hs,_,he⟩
  · rw [Interface.freeEmpty,he]
    exact h
  · rw [Interface.freeEmpty,he]
    obtain ⟨h0,hmin,hc⟩ := h.toKept.mid hs
    obtain ⟨hmax,hp⟩ := h.pools lo.length it (by rw [hs,Vector.getElem?_mid])
    exact h.released hs it.slabs_freeEmpty_sublist (.refl _) hc.freeEmpty
      (hp.freeEmpty h0) fun _ _ => .refl _

/-- A new cache that spares the large blocks leaves the way of every block as it is. -/
theorem target_concat (h : w.Held) {blockSize count mem : Nat}
    (hs : w.Spares (.addCache blockSize count mem)) (vecMap : VecMap) {c : Cache}
    (hc : c.blockSize=blockSize) {e : Loan} (hm : e ∈ w.loans) :
    e.target=Interface.allocateTarget ⟨vecMap,w.interface.buckets ++ [c]⟩ e.sizeofT e.count := by
  have ht := h.target e hm
  simp only [Interface.allocateTarget,Interface.bucketFor_concat] at ht ⊢
  cases hb : w.interface.bucketFor (toSizeT (e.count*e.sizeofT)) with
  | some idx =>
    rw [hb] at ht
    rw [Option.some_or]
    exact ht
  | none =>
    rw [hb] at ht
    have := hs e hm _ ht
    rw [Option.none_or,if_neg (by omega)]
    exact ht

theorem addCache (h : w.Held) {blockSize count mem : Nat}
    (hs : w.Spares (.addCache blockSize count mem))
    (hmin : 2 ≤ roundedCount pgSz blockSize count)
    (hmax : roundedCount pgSz blockSize count ≤ maxSlabBlocks)
    (hap : ∀ e ∈ w.ranges,
      Extent.Apart (mem,blockSize*roundedCount pgSz blockSize count) e)
    (hn : w.interface.addCache pgSz blockSize count mem=some i) : Held ⟨i,w.loans⟩ := by
  obtain ⟨h0,rfl⟩ := Interface.addCache_cases hn
  set n := roundedCount pgSz blockSize count with hn
  set c := Cache.make (addToMap w.interface.vecMap n) mem blockSize n with hc
  have hcases : ∀ idx d, (w.interface.buckets ++ [c])[idx]?=some d →
      w.interface.buckets[idx]?=some d ∨ d=c ∧ liveIn idx w.loans=[] := by
    intro idx d hd
    rcases Vector.getElem?_concat_cases hd with ⟨_,hd⟩ | ⟨rfl,rfl⟩
    · exact .inl hd
    · exact .inr ⟨rfl,h.liveIn_nil le_rfl⟩
  refine ⟨⟨?_,?_,h.bounded,fun e he => h.target_concat hs _ rfl he⟩,(h.built.addToMap n).1,?_⟩
  · intro idx d hd
    rcases hcases idx d hd with hd | ⟨rfl,hnil⟩
    · obtain ⟨h1,h2,h3⟩ := h.counted idx d hd
      exact ⟨h1,h2,{ h3 with indices := lookup_addToMap _ h3.indices }⟩
    · rw [hnil]
      exact ⟨h0,hmin,counted_make h.built mem⟩
  · have hnew : slabRanges [c]=[(mem,blockSize*n)] := rfl
    unfold ranges slabRanges
    rw [List.flatMap_append,List.append_assoc]
    exact (tiled_perm List.perm_middle).mpr (tiled_cons.mpr ⟨hap,h.tiled⟩)
  · intro idx d hd
    rcases hcases idx d hd with hd | ⟨rfl,hnil⟩
    · obtain ⟨h1,h2⟩ := h.pools idx d hd
      exact ⟨h1,{ h2 with indices := lookup_addToMap _ h2.indices }⟩
    · rw [hnil]
      exact ⟨hmax,Pool.sound_make h0 hmax h.built mem⟩

theorem next {q : Order} (h : w.Held) (hs : w.Spares q) (hn : w.obey pgSz q=some w') :
    Held w' := by
  cases q with
  | addCache blockSize count mem =>
    simp only [obey] at hn
    split_ifs at hn with hg
    obtain ⟨i,hi,rfl⟩ := Option.map_eq_some_iff.mp hn
    exact h.addCache hs hg.1.1 hg.1.2 hg.2 hi
  | allocate sizeofT count mem =>
    simp only [obey,serve] at hn
    split_ifs at hn with hg
    obtain ⟨i,ptr,ha,hk⟩ := h.allocate hg.1 hg.2
    rw [ha] at hn
    obtain rfl := Option.some.inj hn
    exact hk
  | deallocate e =>
    simp only [obey,serve] at hn
    split_ifs at hn with hm
    obtain ⟨i,hd,hk⟩ := h.deallocate hm
    rw [hd] at hn
    obtain rfl := Option.some.inj hn
    exact hk
  | freeAll cacheSize =>
    obtain rfl := Option.some.inj hn
    exact h.freeAll cacheSize
  | freeEmpty cacheSize =>
    obtain rfl := Option.some.inj hn
    exact h.freeEmpty cacheSize

variable {e : Loan}

/-- A block of a cache is one of a slab of it. -/
theorem placed (h : w.Held) (hm : e ∈ w.loans) {idx : Nat} (ht : e.target=.bucket idx) :
    ∃ c, ∃ s ∈ c.slabs, w.interface.buckets[idx]?=some c ∧ w.range e=(e.ptr,c.blockSize) ∧
      (w.range e).bytes ⊆ s.region.extent.bytes := by
  obtain ⟨c,hc⟩ := h.exists_bucket hm ht
  obtain ⟨_,hp⟩ := h.pools idx c hc
  obtain ⟨s,hs,i,hi,he⟩ := hp.located e.ptr (Kept.mem_liveIn hm ht)
  have hr : w.range e=(e.ptr,c.blockSize) := by simp [range,ht,hc]
  have hsize : s.region.size=c.blockSize := (hp.shape s hs).1
  refine ⟨c,s,hs,hc,hr,?_⟩
  have hin := Region.block_within hi
  rwa [← he,hsize,← hr] at hin

theorem mem_slabRanges {idx : Nat} {c : Cache} {s : Slab} (hc : w.interface.buckets[idx]?=some c)
    (hs : s ∈ c.slabs) : s.region.extent ∈ slabRanges w.interface.buckets :=
  List.mem_flatMap.mpr ⟨c,List.mem_of_getElem? hc,List.mem_map_of_mem hs⟩

/-- A block of a cache shares no byte with one of the heap. -/
theorem apart_heap (h : w.Held) {x y : Loan} (hx : x ∈ w.loans) (hy : y ∈ w.loans) {idx n : Nat}
    (htx : x.target=.bucket idx) (hty : y.target=.heap n) : (w.range x).Apart (w.range y) := by
  obtain ⟨c,s,hs,hc,_,hin⟩ := h.placed hx htx
  have hr : (y.ptr,max n 1) ∈ w.loans.filterMap Loan.heapRange :=
    List.mem_filterMap.mpr ⟨y,hy,by simp [Loan.heapRange,hty]⟩
  have hap := (tiled_append.mp h.tiled).2.2 _ (mem_slabRanges hc hs) _ hr
  have hy' : w.range y=(y.ptr,n) := by simp [range,hty]
  refine ((hap.of_subset hin).symm.of_subset ?_).symm
  intro b hb
  rw [hy'] at hb
  simp only [mem_bytes] at hb ⊢
  omega

/-- Nor do two blocks of caches. -/
theorem apart_cached (h : w.Held) {x y : Loan} (hx : x ∈ w.loans) (hy : y ∈ w.loans) {i j : Nat}
    (htx : x.target=.bucket i) (hty : y.target=.bucket j) (hne : i=j → x.ptr ≠ y.ptr) :
    (w.range x).Apart (w.range y) := by
  obtain ⟨c,s,hs,hc,hrx,hin⟩ := h.placed hx htx
  obtain ⟨d,t,ht,hd,hry,hin'⟩ := h.placed hy hty
  by_cases hij : i=j
  · subst hij
    obtain rfl := Option.some.inj (hc.symm.trans hd)
    obtain ⟨_,hp⟩ := h.pools i c hc
    have hpair := List.pairwise_map.mp (sound_tiled hp)
    have hsym : Std.Symm fun p q : Nat => Extent.Apart (p,c.blockSize) (q,c.blockSize) :=
      ⟨fun _ _ => Apart.symm⟩
    rw [hrx,hry]
    exact hpair.forall (Kept.mem_liveIn hx htx) (Kept.mem_liveIn hy hty) (hne rfl)
  · have hslabs := (tiled_append.mp h.tiled).1
    have hap := hslabs.apart_of_positions hc hd hij (List.mem_map_of_mem hs)
      (List.mem_map_of_mem ht)
    exact ((hap.of_subset hin).symm.of_subset hin').symm

/-- No cache has handed out a block twice. -/
theorem nodup_liveIn (h : w.Held) (idx : Nat) : (liveIn idx w.loans).Nodup := by
  cases hc : w.interface.buckets[idx]? with
  | none =>
    rw [h.liveIn_nil (List.getElem?_eq_none_iff.mp hc)]
    exact List.nodup_nil
  | some c => exact (h.pools idx c hc).2.nodup

theorem tiled_loans (h : w.Held) : Tiled (w.loans.map w.range) := by
  have hheap := List.pairwise_filterMap.mp (tiled_append.mp h.tiled).2.1
  have hptr : w.loans.Pairwise fun x y =>
      ∀ idx, x.target=.bucket idx → y.target=.bucket idx → x.ptr ≠ y.ptr := by
    rw [List.pairwise_iff_getElem]
    intro i j hi hj hij idx hx hy
    have hn := List.pairwise_filter.mp (List.pairwise_map.mp (h.nodup_liveIn idx))
    exact List.pairwise_iff_getElem.mp hn i j hi hj hij (by simpa using hx) (by simpa using hy)
  rw [Tiled,List.pairwise_map]
  refine (hheap.and hptr).imp_of_mem fun {x y} hx hy hxy => ?_
  cases htx : x.target with
  | bucket i =>
    cases hty : y.target with
    | bucket j => exact h.apart_cached hx hy htx hty fun hij => hxy.2 i htx (hij ▸ hty)
    | heap n => exact h.apart_heap hx hy htx hty
  | heap m =>
    cases hty : y.target with
    | bucket j => exact (h.apart_heap hy hx hty htx).symm
    | heap n =>
      have hap := apart_iff.mp (hxy.1 (x.ptr,max m 1) (by simp [Loan.heapRange,htx])
        (y.ptr,max n 1) (by simp [Loan.heapRange,hty]))
      simp only [range,htx,hty]
      refine apart_iff.mpr ?_
      simp only at hap ⊢
      omega

theorem room (h : w.Held) (hm : e ∈ w.loans) : e.sizeofT*e.count ≤ (w.range e).2 := by
  have ht := h.target e hm
  have hbytes : toSizeT (e.count*e.sizeofT)=e.sizeofT*e.count := by
    rw [Nat.mul_comm]
    exact Nat.mod_eq_of_lt (h.bounded e hm)
  rcases Interface.bucketFor_cases w.interface (toSizeT (e.count*e.sizeofT)) with
    ⟨hn,_⟩ | ⟨lo,it,hi,hs,_,hle,hfor⟩
  · simp only [Interface.allocateTarget,hn] at ht
    simp [range,ht,hbytes]
  · simp only [Interface.allocateTarget,hfor] at ht
    simp only [range,ht,hs,Vector.getElem?_mid,Option.map_some,Option.getD_some]
    omega

theorem intact (h : w.Held) : w.Intact := by
  refine ⟨h.tiled_loans,fun e he => h.room he,fun e he idx => ?_,?_,?_⟩
  · rw [Interface.deallocateTarget_eq_bucket,h.target e he]
  · intro e he
    obtain ⟨i,hi,_⟩ := h.deallocate he
    rw [hi]
    rfl
  · rw [Interface.info,List.map_map]
    refine List.ext_getElem (by simp) fun idx h1 h2 => ?_
    have hlt : idx < w.interface.buckets.length := by simpa using h1
    have hp := (h.pools idx _ (List.getElem?_eq_getElem hlt)).2
    have hsize := hp.size
    simp only [liveIn,List.length_map] at hsize
    simpa [Cache.info,liveIn] using hsize

end Held

/-- A new cache that a large block fits into would get that block back. -/
theorem not_intact_of_not_spares {w w' : Traffic} {pgSz : Nat} {q : Order} (h : w.Held)
    (hs : ¬ w.Spares q) (hn : w.obey pgSz q=some w') : ¬ w'.Intact := by
  intro hi
  cases q with
  | addCache blockSize count mem =>
    simp only [Spares,not_forall,not_lt] at hs
    obtain ⟨e,he,bytes,ht,hle⟩ := hs
    simp only [obey] at hn
    split_ifs at hn with hg
    obtain ⟨i,hadd,rfl⟩ := Option.map_eq_some_iff.mp hn
    obtain ⟨_,rfl⟩ := Interface.addCache_cases hadd
    have hold := h.target e he
    rw [ht,Interface.allocateTarget] at hold
    cases hb : w.interface.bucketFor (toSizeT (e.count*e.sizeofT)) with
    | some idx =>
      rw [hb] at hold
      cases hold
    | none =>
      rw [hb] at hold
      obtain rfl := Target.heap.inj hold
      have hnew := (hi.target e he _).mp (Interface.deallocateTarget_concat _ hb hle)
      cases ht.symm.trans hnew
  | allocate _ _ _ | deallocate _ | freeAll _ | freeEmpty _ => exact hs trivial

/-- In a run with calls of every kind the blocks stay apart, large enough and on their way back to
the cache they came from, if any, if and only if no cache is added that a large block would fit
into while the block is out. -/
theorem intact_iff_spares (pgSz : Nat) {h : List (Traffic × Order)} {w : Traffic}
    (r : (lateMachine pgSz).Run h w) :
    (∀ t ∈ Machine.visited h w, t.Intact) ↔ ∀ e ∈ h, e.1.Spares e.2 := by
  have h0 : ∀ w, (lateMachine pgSz).start w → w.Held := by
    rintro w rfl
    exact ⟨⟨by simp,by simp [ranges,slabRanges,Tiled],by simp,by simp⟩,by simp [VecMap.Built],
      by simp⟩
  exact r.always_iff h0 (fun _ _ _ hi hg hn => hi.next hg hn) (fun _ hi => hi.intact)
    fun _ _ _ hi hg hn => not_intact_of_not_spares hi hg hn

/-- A block of 800 bytes and one of 4096, and then a cache for blocks of 1024. -/
theorem intact_iff_spares_late : ∃ (h : List (Traffic × Order)) (w : Traffic),
    (w.loans=[⟨131072,4,1024,.heap 4096⟩,⟨65536,8,100,.bucket 0⟩] ∧
      w.interface.buckets.length=2) ∧
    ((∀ t ∈ Machine.visited h w, t.Intact) ↔ ∀ e ∈ h, e.1.Spares e.2) := by
  obtain ⟨w,⟨h,r⟩,hw⟩ := Machine.reachable_of_runFrom (lateMachine 4096) ⟨⟨[],[]⟩,[]⟩
    [.addCache 2048 2 65536,.allocate 8 100 0,.allocate 4 1024 131072,.addCache 1024 4 196608,
      .freeEmpty 1024]
    (fun w => w.loans=[⟨131072,4,1024,.heap 4096⟩,⟨65536,8,100,.bucket 0⟩] ∧
      w.interface.buckets.length=2) rfl (by decide +kernel)
  exact ⟨h,w,hw,intact_iff_spares 4096 r⟩

end Traffic

end Allocators.SlabMem
