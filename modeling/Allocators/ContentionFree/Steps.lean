import Allocators.ContentionFree.Mutex

/-! The ways a step of `contention_free_shared_mutex` can go. -/

namespace Allocators.ContentionFree

open Lib

variable {T : Type} [DecidableEq T] {m m' : Mutex T} {t : T} {x x' : Thread}

/-- A step inside a call: what was read on the way, and what the step wrote. -/
inductive Advances (m : Mutex T) (t : T) (x : Thread) : Mutex T → Thread → Prop
  | spins : Advances m t x m x
  | counts : x.pc=.loadUseCount → Advances m t x m (x.goto (.loadSlot 0))
  | gives {p} : p=.loadUseCount ∨ (∃ i, p=.loadSlot i) → x.pc=p →
      Advances m t x m (x.goto (.loadOwner true))
  | finds {i} : x.pc=.loadSlot i → Advances m t x m (x.goto (.exchangeSlot i))
  | skips {i p} : p=.loadSlot i ∨ p=.exchangeSlot i → x.pc=p →
      Advances m t x m (x.goto (.loadSlot (i+1)))
  | claims {i} : x.pc=.exchangeSlot i → m.sharedLocks[i]?=some 0 →
      Advances m t x (m.setSlot i 1) { x with pc := .addUseCount, index := some i }
  | adds : x.pc=.addUseCount →
      Advances m t x { m with useCount := m.useCount+1 } (x.goto .loadDepth)
  | reads {i depth} : x.pc=.loadDepth → x.index=some i → m.sharedLocks[i]?=some depth →
      Advances m t x m (x.goto (.storeDepth depth))
  | nests {i depth} : x.pc=.storeDepth depth → x.index=some i → 1 < depth →
      Advances m t x (m.setSlot i (depth+1)) { x with pc := .idle, shareds := x.shareds+1 }
  | announces {i depth p} : p=.storeDepth depth ∧ depth ≤ 1 ∨ p=.storeAgain depth → x.pc=p →
      x.index=some i → Advances m t x (m.setSlot i (depth+1)) (x.goto (.loadWant depth))
  | shares {depth} : x.pc=.loadWant depth → m.wantXLock=false →
      Advances m t x m { x with pc := .idle, shareds := x.shareds+1 }
  | refused {depth} : x.pc=.loadWant depth → m.wantXLock=true →
      Advances m t x m (x.goto (.storeBack depth))
  | retreats {i depth} : x.pc=.storeBack depth → x.index=some i →
      Advances m t x (m.setSlot i depth) (x.goto (.awaitWant depth))
  | returns {depth} : x.pc=.awaitWant depth → m.wantXLock=false →
      Advances m t x m (x.goto (.storeAgain depth))
  | owned {shared} : x.pc=.loadOwner shared → m.ownerThreadId=some t →
      Advances m t x m (x.goto (.increment shared))
  | strange {shared} : x.pc=.loadOwner shared → m.ownerThreadId ≠ some t →
      Advances m t x m (x.goto (.exchangeWant shared))
  | takes {shared} : x.pc=.exchangeWant shared → m.wantXLock=false →
      Advances m t x { m with wantXLock := true } (x.goto (.storeOwner shared))
  | signs {shared} : x.pc=.storeOwner shared →
      Advances m t x { m with ownerThreadId := some t }
        (x.goto (if shared then .increment true else .scan 0))
  | scans {i v} : x.pc=.scan i → m.sharedLocks[i]?=some v → v ≤ 1 →
      Advances m t x m (x.goto (.scan (i+1)))
  | scanned {i} : x.pc=.scan i → m.sharedLocks[i]?=none →
      Advances m t x m (x.goto (.increment false))
  | spills : x.pc=.increment true →
      Advances m t x { m with recursiveXLockCount := m.recursiveXLockCount+1 }
        { x with pc := .idle, spilled := x.spilled+1 }
  | locks : x.pc=.increment false →
      Advances m t x { m with recursiveXLockCount := m.recursiveXLockCount+1 }
        { x with pc := .idle, exclusives := x.exclusives+1 }
  | rereads {i depth} : x.pc=.loadRelease → x.index=some i → m.sharedLocks[i]?=some depth →
      Advances m t x m (x.goto (.storeRelease depth))
  | releases {i depth} : x.pc=.storeRelease depth → x.index=some i →
      Advances m t x (m.setSlot i (depth-1)) { x with pc := .idle, shareds := x.shareds-1 }
  | unspills : x.pc=.decrement true →
      Advances m t x { m with recursiveXLockCount := m.recursiveXLockCount-1 }
        { x with
          pc := if m.recursiveXLockCount-1=0 then .clearOwner else .idle
          spilled := x.spilled-1 }
  | unlocks : x.pc=.decrement false →
      Advances m t x { m with recursiveXLockCount := m.recursiveXLockCount-1 }
        { x with
          pc := if m.recursiveXLockCount-1=0 then .clearOwner else .idle
          exclusives := x.exclusives-1 }
  | clears : x.pc=.clearOwner →
      Advances m t x { m with ownerThreadId := none } (x.goto .clearWant)
  | frees : x.pc=.clearWant → Advances m t x { m with wantXLock := false } (x.goto .idle)
  | keeps {i v} : x.pc=.loadUnregister → x.index=some i → m.sharedLocks[i]?=some v → v ≠ 1 →
      Advances m t x m (x.goto .idle)
  | leaves {i} : x.pc=.loadUnregister → x.index=some i → m.sharedLocks[i]?=some 1 →
      Advances m t x m (x.goto .unregister)
  | unregisters {i v} : x.pc=.unregister → x.index=some i → m.sharedLocks[i]?=some v →
      Advances m t x (m.setSlot i (v-1)) { x with pc := .dropUseCount, index := none }
  | drops : x.pc=.dropUseCount →
      Advances m t x { m with useCount := m.useCount-1 } (x.goto .idle)

omit [DecidableEq T] in
theorem slot_some {v : Nat} (h : m.slot x=some v) :
    ∃ i, x.index=some i ∧ m.sharedLocks[i]?=some v := Option.bind_eq_some_iff.mp h

theorem advances_of_some (h : advance m t x=some (m',x')) : Advances m t x m' x' := by
  rw [advance] at h
  cases hp : x.pc with
  | idle => simp [hp] at h
  | loadUseCount =>
    simp only [hp] at h
    split_ifs at h
    · cases h
      exact .counts hp
    · cases h
      exact .gives (.inl rfl) hp
  | loadSlot i =>
    simp only [hp] at h
    cases hs : m.sharedLocks[i]? with
    | none =>
      simp only [hs] at h
      cases h
      exact .gives (.inr ⟨i,rfl⟩) hp
    | some v =>
      simp only [hs] at h
      cases h
      split_ifs
      · exact .finds hp
      · exact .skips (.inl rfl) hp
  | exchangeSlot i =>
    simp only [hp] at h
    split_ifs at h with hs
    · cases h
      exact .claims hp hs
    · cases h
      exact .skips (.inr rfl) hp
  | addUseCount =>
    simp only [hp] at h
    cases h
    exact .adds hp
  | loadDepth =>
    simp only [hp] at h
    obtain ⟨depth,hs,he⟩ := Option.map_eq_some_iff.mp h
    obtain ⟨i,hi,hs⟩ := slot_some hs
    cases he
    exact .reads hp hi hs
  | storeDepth depth =>
    simp only [hp] at h
    obtain ⟨i,hi,he⟩ := Option.map_eq_some_iff.mp h
    split_ifs at he with hd
    · cases he
      exact .nests hp hi hd
    · cases he
      exact .announces (.inl ⟨rfl,Nat.le_of_not_lt hd⟩) hp hi
  | loadWant depth =>
    simp only [hp] at h
    split_ifs at h with hw
    · cases h
      exact .refused hp hw
    · cases h
      exact .shares hp (by simpa using hw)
  | storeBack depth =>
    simp only [hp] at h
    obtain ⟨i,hi,he⟩ := Option.map_eq_some_iff.mp h
    cases he
    exact .retreats hp hi
  | awaitWant depth =>
    simp only [hp] at h
    split_ifs at h with hw
    · cases h
      exact .spins
    · cases h
      exact .returns hp (by simpa using hw)
  | storeAgain depth =>
    simp only [hp] at h
    obtain ⟨i,hi,he⟩ := Option.map_eq_some_iff.mp h
    cases he
    exact .announces (.inr rfl) hp hi
  | loadOwner shared =>
    simp only [hp] at h
    split_ifs at h with ho
    · cases h
      exact .owned hp ho
    · cases h
      exact .strange hp ho
  | exchangeWant shared =>
    simp only [hp] at h
    split_ifs at h with hw
    · cases h
      exact .spins
    · cases h
      exact .takes hp (by simpa using hw)
  | storeOwner shared =>
    simp only [hp] at h
    cases h
    exact .signs hp
  | scan i =>
    simp only [hp] at h
    cases hs : m.sharedLocks[i]? with
    | none =>
      simp only [hs] at h
      cases h
      exact .scanned hp hs
    | some v =>
      simp only [hs] at h
      split_ifs at h with hv
      · cases h
        exact .spins
      · cases h
        exact .scans hp hs (Nat.le_of_not_lt hv)
  | increment shared =>
    simp only [hp] at h
    cases shared with
    | true =>
      cases h
      exact .spills hp
    | false =>
      cases h
      exact .locks hp
  | loadRelease =>
    simp only [hp] at h
    obtain ⟨depth,hs,he⟩ := Option.map_eq_some_iff.mp h
    obtain ⟨i,hi,hs⟩ := slot_some hs
    cases he
    exact .rereads hp hi hs
  | storeRelease depth =>
    simp only [hp] at h
    obtain ⟨i,hi,he⟩ := Option.map_eq_some_iff.mp h
    cases he
    exact .releases hp hi
  | decrement shared =>
    simp only [hp] at h
    cases shared with
    | true =>
      cases h
      exact .unspills hp
    | false =>
      cases h
      exact .unlocks hp
  | clearOwner =>
    simp only [hp] at h
    cases h
    exact .clears hp
  | clearWant =>
    simp only [hp] at h
    cases h
    exact .frees hp
  | loadUnregister =>
    simp only [hp] at h
    obtain ⟨v,hs,he⟩ := Option.map_eq_some_iff.mp h
    obtain ⟨i,hi,hs⟩ := slot_some hs
    cases he
    split_ifs with hv
    · exact .leaves hp hi (hv ▸ hs)
    · exact .keeps hp hi hs hv
  | unregister =>
    simp only [hp] at h
    cases hi : x.index with
    | none => simp [hi] at h
    | some i =>
      cases hs : m.slot x with
      | none => simp [hi,hs] at h
      | some v =>
        simp only [hi,hs] at h
        obtain ⟨j,hj,hv⟩ := slot_some hs
        obtain rfl : i=j := Option.some.inj (hi.symm.trans hj)
        cases h
        exact .unregisters hp hi hv
  | dropUseCount =>
    simp only [hp] at h
    cases h
    exact .drops hp

/-- What a step of `t` does to the mutex. -/
inductive Touches (m : Mutex T) (t : T) (x : Thread) : Mutex T → Prop
  | nothing : Touches m t x m
  | useCount {n} : Touches m t x { m with useCount := n }
  | claims {i} : m.sharedLocks[i]?=some 0 → Touches m t x (m.setSlot i 1)
  | stores {i v} : x.index=some i → Touches m t x (m.setSlot i v)
  | takes : m.wantXLock=false → Touches m t x { m with wantXLock := true }
  | signs {shared} : x.pc=.storeOwner shared →
      Touches m t x { m with ownerThreadId := some t }
  | tallies {n shared} : x.pc=.increment shared ∨ x.pc=.decrement shared →
      Touches m t x { m with recursiveXLockCount := n }
  | clears : x.pc=.clearOwner → Touches m t x { m with ownerThreadId := none }
  | frees : x.pc=.clearWant → Touches m t x { m with wantXLock := false }

omit [DecidableEq T] in
theorem Advances.touches (h : Advances m t x m' x') : Touches m t x m' := by
  cases h with
  | spins | counts | gives | finds | skips | reads | shares | refused | returns | owned | strange
  | scans | scanned | rereads | keeps | leaves => exact .nothing
  | adds | drops => exact .useCount
  | claims _ hs => exact .claims hs
  | nests _ hi _ => exact .stores hi
  | announces _ _ hi => exact .stores hi
  | retreats _ hi => exact .stores hi
  | releases _ hi => exact .stores hi
  | unregisters _ hi _ => exact .stores hi
  | takes _ hw => exact .takes hw
  | signs hp => exact .signs hp
  | spills hp => exact .tallies (.inl hp)
  | locks hp => exact .tallies (.inl hp)
  | unspills hp => exact .tallies (.inr hp)
  | unlocks hp => exact .tallies (.inr hp)
  | clears hp => exact .clears hp
  | frees hp => exact .frees hp

omit [DecidableEq T] in
/-- A call begins without a wait for the slots. -/
theorem call_cases {c : Act} (h : call x c=some x') :
    ∃ p, x'=x.goto p ∧ p ≠ .increment false ∧ ∀ i, p ≠ .scan i := by
  cases c with
  | advance => cases h
  | lockShared =>
    cases h
    refine ⟨_,rfl,?_,?_⟩
    · split_ifs <;> simp
    · intro i
      split_ifs <;> simp
  | unlockShared =>
    simp only [call] at h
    split_ifs at h
    · cases h
      exact ⟨_,rfl,by simp,by simp⟩
    · cases h
      exact ⟨_,rfl,by simp,by simp⟩
  | _ =>
    simp only [call] at h
    split_ifs at h
    cases h
    exact ⟨_,rfl,by simp,by simp⟩

/-- A step of `t`: a call begins, or it goes on. -/
theorem act_cases {c : Act} (h : act m t x c=some (m',x')) :
    (x.pc=.idle ∧ call x c=some x' ∧ m'=m) ∨ Advances m t x m' x' := by
  cases c with
  | advance => exact .inr (advances_of_some h)
  | _ =>
    simp only [act] at h
    split_ifs at h with hp
    obtain ⟨y,hy,he⟩ := Option.map_eq_some_iff.mp h
    cases he
    exact .inl ⟨hp,hy,rfl⟩

end Allocators.ContentionFree
