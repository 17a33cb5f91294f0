import Allocators.SlabMulti.Loans
import Allocators.Lib.Run

/-! The block sizes of the caches of a bucket, which no call changes. -/

namespace Allocators.SlabMulti

open Lib Vector

namespace Cache

variable {δ : Type} [Dispatch δ] {d d' : δ} {c c' : Cache} {ok : Bool} {ptr : Nat}

theorem addCache_blockSize (h : addCache d c=some (d',c',ok)) : c'.blockSize=c.blockSize := by
  unfold addCache at h
  grind

theorem possiblyFull_blockSize (h : possiblyFull d c=some (d',c',ok)) :
    c'.blockSize=c.blockSize := by
  unfold possiblyFull at h
  grind [addCache_blockSize]

theorem allocate_blockSize {mem : Option Nat} (h : allocate d c=some (d',c',mem)) :
    c'.blockSize=c.blockSize := by
  unfold allocate at h
  grind [→ possiblyFull_blockSize]

theorem locate_blockSize {thisThread : Bool} {decision : Option Decision}
    (h : locate c ptr thisThread=some (c',decision)) : c'.blockSize=c.blockSize := by
  unfold locate at h
  grind

theorem rearrange_blockSize {decision : Decision} (h : rearrange c decision=some c') :
    c'.blockSize=c.blockSize := by
  unfold rearrange spliceBoth memToDispatch at h
  grind

theorem deallocate_blockSize {thisThread found : Bool}
    (h : deallocate c ptr thisThread=some (c',found)) : c'.blockSize=c.blockSize := by
  unfold deallocate at h
  cases hl : locate c ptr thisThread with
  | none => simp [hl] at h
  | some x =>
    obtain ⟨c₁,decision⟩ := x
    have h1 : c₁.blockSize=c.blockSize := locate_blockSize hl
    cases decision with
    | none =>
      simp only [hl,Option.some.injEq,Prod.mk.injEq] at h
      exact h.1 ▸ h1
    | some decision =>
      simp only [hl,Option.map_eq_some_iff,Prod.mk.injEq] at h
      obtain ⟨c₂,hr,rfl,_⟩ := h
      exact (rearrange_blockSize hr).trans h1

end Cache

namespace Bucket

variable {d d' : GlobalDispatch} {b b' : Bucket} {idx : Option Nat} {bytes ptr : Nat}

/-- There is a cache for each of the `cacheSizes`. -/
def Sized (b : Bucket) : Prop := b.caches.map Cache.blockSize=cacheSizes

/-- The bytes of a block of the cache at `idx`, or those `operator new` is asked for. -/
def blockBytes (b : Bucket) (idx : Option Nat) (bytes : Nat) : Option Nat :=
  match idx with
  | some idx => b.caches[idx]?.map Cache.blockSize
  | none => some bytes

theorem Sized.set {k : Nat} {c c' : Cache} (h : b.Sized) (hc : b.caches[k]?=some c)
    (hs : c'.blockSize=c.blockSize) : Sized ⟨b.caches.set k c'⟩ := by
  obtain ⟨hlt,rfl⟩ := List.getElem?_eq_some_iff.mp hc
  rw [Sized,List.map_set,hs,← List.map_set,List.set_getElem_self]
  exact h

theorem Sized.allocate {mem : Option Nat} (h : b.Sized)
    (ha : b.allocate d idx bytes=some (d',b',mem)) : b'.Sized := by
  cases idx with
  | none =>
    simp only [Bucket.allocate] at ha
    cases hn : d.heap.new bytes with
    | none =>
      simp only [hn,Option.some.injEq,Prod.mk.injEq] at ha
      exact ha.2.1 ▸ h
    | some x =>
      simp only [hn,Option.some.injEq,Prod.mk.injEq] at ha
      exact ha.2.1 ▸ h
  | some k =>
    obtain ⟨c,c',hc,hca,rfl⟩ := allocate_cache ha
    exact h.set hc (Cache.allocate_blockSize hca)

theorem Sized.deallocate {thisThread found : Bool} (h : b.Sized)
    (hd : b.deallocate d ptr idx bytes thisThread=some (d',b',found)) : b'.Sized := by
  cases idx with
  | none =>
    simp only [Bucket.deallocate,Option.some.injEq,Prod.mk.injEq] at hd
    exact hd.2.1 ▸ h
  | some k =>
    obtain ⟨c,c',hc,hcd,rfl⟩ := deallocate_cache hd
    exact h.set hc (Cache.deallocate_blockSize hcd)

theorem makeLoop_blockSizes {classes : List (Nat × Nat)} {caches : List Cache}
    (h : makeLoop d classes=some (d',some caches)) :
    caches.map Cache.blockSize=classes.map Prod.snd := by
  induction classes generalizing d caches with
  | nil =>
    simp only [makeLoop,Option.some.injEq,Prod.mk.injEq] at h
    rw [← h.2]
    rfl
  | cons x classes ih =>
    obtain ⟨d₁,c,cs,hm,hr,rfl⟩ := makeLoop_cons h
    have hc : c.blockSize=x.2 := Cache.addCache_blockSize hm
    rw [List.map_cons,List.map_cons,hc,ih hr]

theorem make_sized (h : Bucket.make d=some (d',some b)) : b.Sized := by
  rw [Sized,makeLoop_blockSizes (makeLoop_of_make h)]
  decide

/-- The size class that is chosen has room, and so has a block of `operator new`. -/
theorem Sized.blockBytes_cases (h : b.Sized) (hb : bytes < 2^64) :
    ∃ n, b.blockBytes (findCacheIdx bytes) bytes=some n ∧ bytes ≤ n ∧ n < 2^64 := by
  cases hi : findCacheIdx bytes with
  | none => exact ⟨bytes,rfl,le_rfl,hb⟩
  | some k =>
    obtain ⟨hlt,hle,_⟩ := List.findIdx?_eq_some_iff_getElem.mp hi
    refine ⟨cacheSizes[k],?_,of_decide_eq_true hle,?_⟩
    · rw [blockBytes,← List.getElem?_map,h,List.getElem?_eq_getElem hlt]
    · have hmax : ∀ n ∈ cacheSizes, n < 2^64 := by decide
      exact hmax _ (List.getElem_mem hlt)

end Bucket

namespace Interface

variable {T : Type} [DecidableEq T] {s s' : Interface T} {id : T} {idx : Option Nat}
  {bytes ptr size count n : Nat}

/-- A call of a thread with any arguments, and what `operator new` returns during it. -/
inductive Call (T : Type)
  | allocate (id : T) (size count : Nat) (answers : List Nat)
  | deallocate (id : T) (ptr size n : Nat) (answers : List Nat)

/-- The state after the call, also after one that throws. -/
def call (s : Interface T) : Call T → Option (Interface T)
  | .allocate id size count answers => ((s.supply answers).allocate id size count).map Prod.fst
  | .deallocate id ptr size n answers => ((s.supply answers).deallocate id ptr size n).map Prod.fst

def machine (T : Type) [DecidableEq T] : Machine (Interface T) (Call T) where
  start s := ∃ answers d, GlobalDispatch.make ⟨answers,[],[]⟩=(d,true) ∧ s=⟨d,[]⟩
  next := call

omit [DecidableEq T] in
def Sized (s : Interface T) : Prop := ∀ x ∈ s.buckets, x.2.Sized

/-- The block at `ptr` came from a bucket of the thread: it is one of the `n` bytes of a cache, or
`operator new(n)` returned it. -/
def Took (s' : Interface T) (id : T) (bytes ptr n : Nat) : Prop :=
  ∃ (d : GlobalDispatch) (b b' : Bucket),
    b.allocate d (findCacheIdx bytes) bytes=some (s'.dispatcher,b',some ptr) ∧
    (id,b') ∈ s'.buckets ∧ b.blockBytes (findCacheIdx bytes) bytes=some n

omit [DecidableEq T] in
theorem Sized.registerThread {ok : Bool} (h : s.Sized)
    (hr : s.registerThread id=some (s',ok)) : s'.Sized := by
  rcases registerThread_cases hr with ⟨d,_,rfl,_⟩ | ⟨d,b,hm,rfl,_⟩
  · exact h
  · intro x hx
    rcases List.mem_append.mp hx with hx | hx
    · exact h x hx
    · obtain rfl := List.mem_singleton.mp hx
      exact Bucket.make_sized hm

theorem Sized.findAlloc {mem : Option Nat} (h : s.Sized)
    (ha : s.findAlloc id idx bytes=some (s',mem)) : s'.Sized := by
  rcases findAlloc_cases ha with ⟨_,rfl,_⟩ | ⟨b,d,b',hb,hba,rfl,_⟩
  · exact h
  · intro x hx
    rcases List.mem_or_eq_of_mem_set hx with hx | rfl
    · exact h x hx
    · exact (h _ hb).allocate hba

theorem Sized.findDealloc {found registered : Bool} (h : s.Sized)
    (hd : s.findDealloc id ptr idx bytes=some (s',found,registered)) : s'.Sized := by
  simp only [Interface.findDealloc,SmpMap.findDo] at hd
  cases hg : s.buckets[SmpMap.find s.buckets id]? with
  | none =>
    simp only [hg,Option.some.injEq,Prod.mk.injEq] at hd
    exact hd.1 ▸ h
  | some x =>
    obtain ⟨key,b⟩ := x
    simp only [hg] at hd
    cases hb : b.deallocate s.dispatcher ptr idx bytes true with
    | none => simp [hb] at hd
    | some y =>
      obtain ⟨d,b',found'⟩ := y
      simp only [hb,Option.some.injEq,Prod.mk.injEq] at hd
      obtain ⟨rfl,_⟩ := hd
      intro x hx
      rcases List.mem_or_eq_of_mem_set hx with hx | rfl
      · exact h x hx
      · exact (h _ (List.mem_of_getElem? hg)).deallocate hb

theorem deallocElsewhere_sized {σ σ' : GlobalDispatch × Bool} {x x' : T × Bucket} {stop : Bool}
    (h : x.2.Sized) (hd : deallocElsewhere id ptr idx bytes σ x=some (σ',x',stop)) :
    x'.2.Sized := by
  rw [deallocElsewhere] at hd
  split_ifs at hd with hid
  · cases hb : x.2.deallocate σ.1 ptr idx bytes false with
    | none => simp [hb] at hd
    | some y =>
      obtain ⟨d,b',found⟩ := y
      simp only [hb,Option.some.injEq,Prod.mk.injEq] at hd
      obtain ⟨_,rfl,_⟩ := hd
      exact h.deallocate hb
  · simp only [Option.some.injEq,Prod.mk.injEq] at hd
    exact hd.2.1 ▸ h

theorem Sized.release {found registered : Bool} (h : s.Sized)
    (hr : s.release id ptr size n=some (s',found,registered)) : s'.Sized := by
  rw [Interface.release] at hr
  cases hf : s.findDealloc id ptr (findCacheIdx (toSizeT (size*n))) (toSizeT (size*n)) with
  | none => simp [hf] at hr
  | some x =>
    obtain ⟨s₁,found₁,registered₁⟩ := x
    have h1 : s₁.Sized := h.findDealloc hf
    cases found₁ with
    | true =>
      simp only [hf,Option.some.injEq,Prod.mk.injEq] at hr
      exact hr.1 ▸ h1
    | false =>
      simp only [hf] at hr
      cases hi : SmpMap.iterate
          (deallocElsewhere id ptr (findCacheIdx (toSizeT (size*n))) (toSizeT (size*n)))
          (s₁.dispatcher,false) s₁.buckets with
      | none => simp [hi] at hr
      | some y =>
        obtain ⟨⟨d,found₂⟩,buckets⟩ := y
        simp only [hi,Option.some.injEq,Prod.mk.injEq] at hr
        obtain ⟨rfl,_⟩ := hr
        exact SmpMap.iterate_forall (P := fun x : T × Bucket => x.2.Sized)
          (fun _ _ _ _ _ hx => deallocElsewhere_sized hx) h1 hi

theorem Sized.deallocate {ok : Bool} (h : s.Sized)
    (hd : s.deallocate id ptr size n=some (s',ok)) : s'.Sized := by
  rw [Interface.deallocate] at hd
  cases hr : s.release id ptr size n with
  | none => simp [hr] at hd
  | some x =>
    obtain ⟨s₁,found,registered⟩ := x
    have h1 : s₁.Sized := h.release hr
    cases registered with
    | true =>
      simp only [hr,Option.some.injEq,Prod.mk.injEq] at hd
      exact hd.1 ▸ h1
    | false =>
      simp only [hr] at hd
      exact h1.registerThread hd

theorem Sized.allocate {mem : Option Nat} (h : s.Sized)
    (ha : s.allocate id size count=some (s',mem)) : s'.Sized := by
  rcases allocate_cases ha with ⟨hf,_⟩ | ⟨s₁,s₂,ok,hf,hr,hok⟩
  · exact h.findAlloc hf
  · have h2 : s₂.Sized := (h.findAlloc hf).registerThread hr
    cases ok with
    | false => exact hok.1 ▸ h2
    | true => exact h2.findAlloc hok

/-- The bucket that served is one of the thread. -/
theorem took_of_findAlloc (h : s.Sized) (hb : bytes < 2^64)
    (hf : s.findAlloc id (findCacheIdx bytes) bytes=some (s',some ptr))
    (hid : ptr ≠ 0 ∨ id ∈ s.buckets.map Prod.fst) :
    ∃ n, s'.Took id bytes ptr n ∧ bytes ≤ n ∧ n < 2^64 := by
  rcases findAlloc_cases hf with ⟨hnot,_,h0⟩ | ⟨b,d,b',hmem,ha,hs',hb'⟩
  · rcases hid with hid | hid
    · exact absurd (Option.some.inj h0) hid
    · exact absurd hid hnot
  · obtain ⟨n,hn,hle,hlt⟩ := (h _ hmem).blockBytes_cases hb
    refine ⟨n,⟨s.dispatcher,b,b',?_,hb',hn⟩,hle,hlt⟩
    rw [hs']
    exact ha

theorem took_of_allocate (h : s.Sized) (ha : s.allocate id size count=some (s',some ptr)) :
    ∃ n, s'.Took id (toSizeT (size*count)) ptr n ∧ toSizeT (size*count) ≤ n ∧ n < 2^64 := by
  have hb : toSizeT (size*count) < 2^64 := Nat.mod_lt _ (by decide)
  rcases allocate_cases ha with ⟨hf,hne⟩ | ⟨s₁,s₂,ok,hf,hr,hok⟩
  · exact took_of_findAlloc h hb hf (.inl fun h0 => hne (congrArg some h0))
  · cases ok with
    | false => cases hok.2
    | true =>
      obtain ⟨_,_,_,_,⟨⟩⟩ | ⟨d,b,_,rfl,_⟩ := registerThread_cases hr
      exact took_of_findAlloc ((h.findAlloc hf).registerThread hr) hb hok (.inr (by simp))

theorem sized_next {i : Call T} (h : s.Sized) (hn : (machine T).next s i=some s') : s'.Sized := by
  change call s i=some s' at hn
  cases i with
  | allocate id size count answers =>
    obtain ⟨⟨t,mem⟩,ha,rfl⟩ := Option.map_eq_some_iff.mp hn
    exact Sized.allocate (s := s.supply answers) h ha
  | deallocate id ptr size n answers =>
    obtain ⟨⟨t,ok⟩,hd,rfl⟩ := Option.map_eq_some_iff.mp hn
    exact Sized.deallocate (s := s.supply answers) h hd

theorem reachable_sized (h : (machine T).Reachable s) : s.Sized :=
  h.invariant (fun _ ⟨_,_,_,hs⟩ => by simp [hs,Sized]) fun _ _ _ hi hn => sized_next hi hn

end Interface

end Allocators.SlabMulti
