import Allocators.SlabMulti.Dispatcher
import Allocators.SmpContainer

/-! `Bucket` and `ImplSlabMulti::Interface`, one call at a time. As in a cache `none` is undefined
behaviour; an exception is `none` or `false` in the result. -/

namespace Allocators.SlabMulti

open Lib

/-- `findCacheIdx`; `NOT_FOUND` is `none`. -/
def findCacheIdx (bytes : Nat) : Option Nat := cacheSizes.findIdx? fun cz => decide (bytes ≤ cz)

structure Bucket where
  caches : List Cache
  deriving DecidableEq

namespace Bucket

/-- The loop of the constructor over the blocks in a slab and the block sizes that are left. -/
def makeLoop (d : GlobalDispatch) : List (Nat × Nat) → Option (GlobalDispatch × Option (List Cache))
  | [] => some (d,some [])
  | (count,blockSize) :: rest =>
    match Cache.make d count blockSize with
    | none => none
    | some (d,_,false) => some (d,none)
    | some (d,cache,true) =>
      match makeLoop d rest with
      | none => none
      | some (d,none) => some (d,none)
      | some (d,some caches) => some (d,some (cache :: caches))

/-- The constructor; a missing bucket is `std::bad_alloc`. -/
def make (d : GlobalDispatch) : Option (GlobalDispatch × Option Bucket) :=
  match makeLoop d (blocksPer.zip cacheSizes) with
  | none => none
  | some (d,none) => some (d,none)
  | some (d,some caches) => some (d,some ⟨caches⟩)

def allocate (d : GlobalDispatch) (b : Bucket) (idx : Option Nat) (bytes : Nat) :
    Option (GlobalDispatch × Bucket × Option Nat) :=
  match idx with
  | some idx =>
    match b.caches[idx]? with
    | none => none
    | some cache =>
      match cache.allocate d with
      | none => none
      | some (d,cache,mem) => some (d,⟨b.caches.set idx cache⟩,mem)
  | none =>
    match d.heap.new bytes with
    | none => some (d,b,none)
    | some (mem,heap) => some ({ d with heap := heap },b,some mem)

def deallocate (d : GlobalDispatch) (b : Bucket) (ptr : Nat) (idx : Option Nat) (bytes : Nat)
    (thisThread : Bool) : Option (GlobalDispatch × Bucket × Bool) :=
  match idx with
  | some idx =>
    match b.caches[idx]? with
    | none => none
    | some cache =>
      match cache.deallocate ptr thisThread with
      | none => none
      | some (cache,found) => some (d,⟨b.caches.set idx cache⟩,found)
  | none => some ({ d with heap := d.heap.delete ptr bytes },b,true)

section Cases

variable {d d' : GlobalDispatch} {b b' : Bucket} {k bytes ptr : Nat}

/-- A step of the constructor's loop, if nothing throws. -/
theorem makeLoop_cons {x : Nat × Nat} {classes : List (Nat × Nat)} {caches : List Cache}
    (h : makeLoop d (x :: classes)=some (d',some caches)) :
    ∃ d₁ c cs, Cache.make d x.1 x.2=some (d₁,c,true) ∧
      makeLoop d₁ classes=some (d',some cs) ∧ caches=c :: cs := by
  rw [makeLoop] at h
  cases hm : Cache.make d x.1 x.2 with
  | none => simp [hm] at h
  | some y =>
    obtain ⟨d₁,c,ok⟩ := y
    cases ok with
    | false => simp [hm] at h
    | true =>
      cases hr : makeLoop d₁ classes with
      | none => simp [hm,hr] at h
      | some z =>
        obtain ⟨d₂,cs⟩ := z
        cases cs with
        | none => simp [hm,hr] at h
        | some cs =>
          simp only [hm,hr,Option.some.injEq,Prod.mk.injEq] at h
          obtain ⟨rfl,rfl⟩ := h
          exact ⟨d₁,c,cs,rfl,hr,rfl⟩

theorem makeLoop_of_make (h : Bucket.make d=some (d',some b)) :
    makeLoop d (blocksPer.zip cacheSizes)=some (d',some b.caches) := by
  rw [Bucket.make] at h
  cases hm : makeLoop d (blocksPer.zip cacheSizes) with
  | none => simp [hm] at h
  | some x =>
    obtain ⟨d₁,caches⟩ := x
    cases caches with
    | none => simp [hm] at h
    | some caches =>
      simp only [hm,Option.some.injEq,Prod.mk.injEq] at h
      obtain ⟨rfl,rfl⟩ := h
      rfl

/-- A block of a cache comes from the cache. -/
theorem allocate_cache {mem : Option Nat} (h : b.allocate d (some k) bytes=some (d',b',mem)) :
    ∃ c c', b.caches[k]?=some c ∧ c.allocate d=some (d',c',mem) ∧ b'=⟨b.caches.set k c'⟩ := by
  simp only [allocate] at h
  cases hc : b.caches[k]? with
  | none => simp [hc] at h
  | some c =>
    cases ha : c.allocate d with
    | none => simp [hc,ha] at h
    | some x =>
      obtain ⟨d₁,c',mem'⟩ := x
      simp only [hc,ha,Option.some.injEq,Prod.mk.injEq] at h
      obtain ⟨rfl,rfl,rfl⟩ := h
      exact ⟨c,c',rfl,ha,rfl⟩

/-- And goes back to it. -/
theorem deallocate_cache {thisThread found : Bool}
    (h : b.deallocate d ptr (some k) bytes thisThread=some (d',b',found)) :
    ∃ c c', b.caches[k]?=some c ∧ c.deallocate ptr thisThread=some (c',found) ∧
      b'=⟨b.caches.set k c'⟩ := by
  simp only [deallocate] at h
  cases hc : b.caches[k]? with
  | none => simp [hc] at h
  | some c =>
    cases hd : c.deallocate ptr thisThread with
    | none => simp [hc,hd] at h
    | some x =>
      obtain ⟨c',found'⟩ := x
      simp only [hc,hd,Option.some.injEq,Prod.mk.injEq] at h
      obtain ⟨_,rfl,rfl⟩ := h
      exact ⟨c,c',rfl,hd,rfl⟩

end Cases

end Bucket

/-- `Interface`, with the global `dispatcher` that its caches use. -/
structure Interface (T : Type) where
  dispatcher : GlobalDispatch
  buckets : List (T × Bucket)

namespace Interface

variable {T : Type} [DecidableEq T]

omit [DecidableEq T] in
/-- `registerThread`; `false` is an exception from the constructor of `Bucket`. -/
def registerThread (s : Interface T) (id : T) : Option (Interface T × Bool) :=
  match Bucket.make s.dispatcher with
  | none => none
  | some (d,none) => some (⟨d,s.buckets⟩,false)
  | some (d,some bucket) => some (⟨d,SmpMap.emplace s.buckets id bucket⟩,true)

/-- `findDo` with the lambda of `allocate`; the result is a null pointer without a bucket and
missing after an exception. -/
def findAlloc (s : Interface T) (id : T) (idx : Option Nat) (bytes : Nat) :
    Option (Interface T × Option Nat) :=
  SmpMap.findDo s.buckets id fun it vec =>
    match vec[it]? with
    | none => some (s,some 0)
    | some (key,bucket) =>
      match bucket.allocate s.dispatcher idx bytes with
      | none => none
      | some (d,bucket,mem) => some (⟨d,vec.set it (key,bucket)⟩,mem)

/-- `allocate<T>(count)` on the thread `id`, for a type of `size` bytes. -/
def allocate (s : Interface T) (id : T) (size count : Nat) : Option (Interface T × Option Nat) :=
  let bytes := toSizeT (size*count)
  let idx := findCacheIdx bytes
  match findAlloc s id idx bytes with
  | none => none
  | some (s,none) => some (s,none)
  | some (s,some mem) =>
    if mem ≠ 0 then some (s,some mem)
    else
      match registerThread s id with
      | none => none
      | some (s,false) => some (s,none)
      | some (s,true) => findAlloc s id idx bytes

/-- `findDo` with the lambda of `deallocate`: what it found, and whether the thread has a bucket. -/
def findDealloc (s : Interface T) (id : T) (ptr : Nat) (idx : Option Nat) (bytes : Nat) :
    Option (Interface T × Bool × Bool) :=
  SmpMap.findDo s.buckets id fun it cont =>
    match cont[it]? with
    | none => some (s,false,false)
    | some (key,bucket) =>
      match bucket.deallocate s.dispatcher ptr idx bytes true with
      | none => none
      | some (d,bucket,found) => some (⟨d,cont.set it (key,bucket)⟩,found,true)

/-- The lambda `deallocate` gives to `iterate`. -/
def deallocElsewhere (id : T) (ptr : Nat) (idx : Option Nat) (bytes : Nat)
    (s : GlobalDispatch × Bool) (pair : T × Bucket) :
    Option ((GlobalDispatch × Bool) × (T × Bucket) × Bool) :=
  if pair.1 ≠ id then
    match pair.2.deallocate s.1 ptr idx bytes false with
    | none => none
    | some (d,bucket,found) => some ((d,found),(pair.1,bucket),found)
  else some (s,pair,s.2)

/-- `deallocate` up to the registration of the thread: what was found, and whether the thread has
a bucket. -/
def release (s : Interface T) (id : T) (ptr size n : Nat) : Option (Interface T × Bool × Bool) :=
  let bytes := toSizeT (size*n)
  let idx := findCacheIdx bytes
  match findDealloc s id ptr idx bytes with
  | none => none
  | some (s,true,registered) => some (s,true,registered)
  | some (s,false,registered) =>
    match SmpMap.iterate (deallocElsewhere id ptr idx bytes) (s.dispatcher,false) s.buckets with
    | none => none
    | some ((d,found),buckets) => some (⟨d,buckets⟩,found,registered)

/-- `deallocate<T>(ptr, n)` on the thread `id`; `false` is an exception from `registerThread`. -/
def deallocate (s : Interface T) (id : T) (ptr size n : Nat) : Option (Interface T × Bool) :=
  match release s id ptr size n with
  | none => none
  | some (s,_,true) => some (s,true)
  | some (s,_,false) => registerThread s id

section Cases

variable {s s' : Interface T} {id : T} {idx : Option Nat} {bytes size count : Nat} {mem : Option Nat}

omit [DecidableEq T] in
/-- The thread has a bucket afterwards, unless the constructor threw. -/
theorem registerThread_cases {ok : Bool} (h : s.registerThread id=some (s',ok)) :
    (∃ d, Bucket.make s.dispatcher=some (d,none) ∧ s'=⟨d,s.buckets⟩ ∧ ok=false) ∨
    ∃ d b, Bucket.make s.dispatcher=some (d,some b) ∧ s'=⟨d,s.buckets ++ [(id,b)]⟩ ∧
      ok=true := by
  rw [registerThread] at h
  cases hm : Bucket.make s.dispatcher with
  | none => simp [hm] at h
  | some x =>
    obtain ⟨d,bucket⟩ := x
    cases bucket with
    | none =>
      simp only [hm,Option.some.injEq,Prod.mk.injEq] at h
      exact .inl ⟨d,rfl,h.1.symm,h.2.symm⟩
    | some b =>
      simp only [hm,Option.some.injEq,Prod.mk.injEq] at h
      exact .inr ⟨d,b,rfl,h.1.symm,h.2.symm⟩

/-- `allocate` in the bucket of the thread, if it has one. -/
theorem findAlloc_cases (h : s.findAlloc id idx bytes=some (s',mem)) :
    (id ∉ s.buckets.map Prod.fst ∧ s'=s ∧ mem=some 0) ∨
    ∃ b d b', (id,b) ∈ s.buckets ∧ b.allocate s.dispatcher idx bytes=some (d,b',mem) ∧
      s'=⟨d,s.buckets.set (SmpMap.find s.buckets id) (id,b')⟩ ∧ (id,b') ∈ s'.buckets := by
  simp only [findAlloc,SmpMap.findDo] at h
  cases hg : s.buckets[SmpMap.find s.buckets id]? with
  | none =>
    simp only [hg,Option.some.injEq,Prod.mk.injEq] at h
    refine .inl ⟨?_,h.1.symm,h.2.symm⟩
    intro hid
    have hlt := SmpMap.find_lt hid
    rw [List.getElem?_eq_getElem hlt] at hg
    cases hg
  | some x =>
    obtain ⟨key,b⟩ := x
    obtain rfl : key=id := SmpMap.find_key hg
    simp only [hg] at h
    cases ha : b.allocate s.dispatcher idx bytes with
    | none => simp [ha] at h
    | some y =>
      obtain ⟨d,b',mem'⟩ := y
      simp only [ha,Option.some.injEq,Prod.mk.injEq] at h
      obtain ⟨rfl,rfl⟩ := h
      obtain ⟨hlt,_⟩ := List.getElem?_eq_some_iff.mp hg
      exact .inr ⟨b,d,b',List.mem_of_getElem? hg,ha,rfl,List.mem_set hlt _⟩

/-- The two ways through `allocate`: a bucket that was there, or one made for the thread. -/
theorem allocate_cases (h : s.allocate id size count=some (s',mem)) :
    let bytes := toSizeT (size*count)
    (s.findAlloc id (findCacheIdx bytes) bytes=some (s',mem) ∧ mem ≠ some 0) ∨
    ∃ s₁ s₂ ok, s.findAlloc id (findCacheIdx bytes) bytes=some (s₁,some 0) ∧
      s₁.registerThread id=some (s₂,ok) ∧
      if ok then s₂.findAlloc id (findCacheIdx bytes) bytes=some (s',mem)
      else s'=s₂ ∧ mem=none := by
  intro bytes
  rw [allocate] at h
  cases hf : s.findAlloc id (findCacheIdx bytes) bytes with
  | none => simp [bytes,hf] at h
  | some x =>
    obtain ⟨s₁,mem₁⟩ := x
    cases mem₁ with
    | none =>
      simp only [bytes,hf,Option.some.injEq,Prod.mk.injEq] at h
      obtain ⟨rfl,rfl⟩ := h
      exact .inl ⟨rfl,by simp⟩
    | some m =>
      simp only [bytes,hf] at h
      split_ifs at h with hm
      · simp only [Option.some.injEq,Prod.mk.injEq] at h
        obtain ⟨rfl,rfl⟩ := h
        exact .inl ⟨rfl,by simpa using hm⟩
      · obtain rfl : m=0 := of_not_not hm
        refine .inr ⟨s₁,?_⟩
        cases hr : s₁.registerThread id with
        | none => simp [hr] at h
        | some y =>
          obtain ⟨s₂,ok⟩ := y
          refine ⟨s₂,ok,rfl,rfl,?_⟩
          cases ok with
          | false =>
            simp only [hr,Option.some.injEq,Prod.mk.injEq] at h
            exact ⟨h.1.symm,h.2.symm⟩
          | true =>
            rw [if_pos rfl]
            simpa only [hr] using h

end Cases

end Interface

end Allocators.SlabMulti
