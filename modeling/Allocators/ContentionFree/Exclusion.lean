import Allocators.ContentionFree.Steps
import Allocators.Lib.Vector

/-! Readers and writers of a `contention_free_shared_mutex` keep each other out. -/

namespace Allocators.ContentionFree

open Lib

namespace PC

/-- Between the compare-exchange that sets `want_x_lock` and its reset. -/
@[simp] def Owning : PC → Prop
  | .storeOwner _ | .scan _ | .increment _ | .clearOwner | .clearWant => True
  | _ => False

/-- What `owner_thread_id` says while `t` has set `want_x_lock`. -/
@[simp] def names {T : Type} (t : T) : PC → Option T
  | .storeOwner _ | .clearWant => none
  | _ => some t

/-- A reader that has raised its slot and not looked at `want_x_lock`, or not gone back yet. -/
@[simp] def announced : PC → Nat
  | .loadWant _ | .storeBack _ => 1
  | _ => 0

end PC

namespace Thread

def Owning (x : Thread) : Prop := x.pc.Owning ∨ 0 < x.owned

/-- A writer that waits for slot `i` no more. -/
def Past (x : Thread) (i : Nat) : Prop :=
  0 < x.exclusives ∨ x.pc=.increment false ∨ ∃ j, x.pc=.scan j ∧ i < j

/-- A thread with a slot has its shared locks there, and a writer has none. -/
@[simp] def Apart (x : Thread) : Prop :=
  (x.index.isSome → x.spilled=0) ∧ (0 < x.exclusives → x.shareds=0)

/-- What the place of a thread in the code says of it. -/
def Placed (x : Thread) : Prop :=
  match x.pc with
  | .idle => x.Apart
  | .loadUseCount | .loadSlot _ | .exchangeSlot _ => x.index=none
  | .addUseCount => x.index.isSome ∧ x.shareds=0
  | .loadDepth => x.index.isSome ∧ (0 < x.owned → x.shareds=0)
  | .storeDepth depth => x.index.isSome ∧ depth=1+x.shareds ∧ (0 < x.owned → x.shareds=0)
  | .loadWant depth | .storeBack depth | .awaitWant depth | .storeAgain depth =>
    x.index.isSome ∧ depth=1 ∧ x.shareds=0
  | .loadOwner true => x.index=none
  | .loadOwner false => x.Apart ∧ (0 < x.exclusives ∨ x.shareds=0 ∧ x.spilled=0)
  | .exchangeWant shared | .storeOwner shared =>
    x.owned=0 ∧ if shared then x.index=none else x.shareds=0
  | .scan _ => x.owned=0 ∧ x.shareds=0
  | .increment true => x.index=none
  | .increment false => x.Apart ∧ x.shareds=0 ∧ (0 < x.exclusives ∨ x.spilled=0)
  | .loadRelease => x.index.isSome ∧ 0 < x.shareds ∧ x.owned=0
  | .storeRelease depth => x.index.isSome ∧ 0 < x.shareds ∧ x.owned=0 ∧ depth=1+x.shareds
  | .decrement true => x.index=none ∧ 0 < x.spilled
  | .decrement false => x.Apart ∧ 0 < x.exclusives
  | .clearOwner | .clearWant => x.owned=0 ∧ x.shareds=0
  | .loadUnregister => x.index.isSome ∧ x.Apart
  | .unregister => x.index.isSome ∧ x.Apart ∧ x.shareds=0
  | .dropUseCount => x.index=none

end Thread

section States

variable {T : Type} {m m' : Mutex T} {owner : Option T} {t u : T} {x x' : Thread} {p : PC}

/-- What holds of a thread while `owner` is the one that has set `want_x_lock`. -/
structure Local (m : Mutex T) (owner : Option T) (t : T) (x : Thread) : Prop where
  owns : x.Owning ↔ owner=some t
  tally : owner=some t → m.recursiveXLockCount=x.owned
  named : owner=some t → m.ownerThreadId=x.pc.names t
  alone : m.ownerThreadId=some t → owner=some t
  slot : ∀ i, x.index=some i → m.sharedLocks[i]?=some (1+x.shareds+x.pc.announced)
  slotless : x.index=none → x.shareds=0
  placed : x.Placed

theorem Thread.Past.owning {i : Nat} (h : x.Past i) : x.Owning := by
  rcases h with h | h | ⟨j,h,_⟩
  · exact .inr (Nat.lt_of_lt_of_le h (Nat.le_add_right _ _))
  · exact .inl (by simp [h])
  · exact .inl (by simp [h])

theorem getElem?_set_of_some {l : List Nat} {i v w : Nat} (h : l[i]?=some w) :
    (l.set i v)[i]?=some v := by
  rw [List.getElem?_set_self',h]
  rfl

namespace Local

/-- A step that writes nothing of what is said here of the thread. -/
theorem goto (h : Local m owner t x) (ho : p.Owning ∨ 0 < x.owned ↔ x.Owning)
    (hn : owner=some t → p.names t=x.pc.names t) (ha : p.announced=x.pc.announced)
    (hp : (x.goto p).Placed) : Local m owner t (x.goto p) := by
  refine ⟨ho.trans h.owns,h.tally,?_,h.alone,?_,h.slotless,hp⟩
  · intro he
    exact (h.named he).trans (hn he).symm
  · intro i hi
    exact (h.slot i hi).trans (by rw [Thread.goto,ha])

/-- A store into the slot of the thread. -/
theorem store (h : Local m owner t x) {i v : Nat} (hi : x.index=some i) {shareds : Nat}
    (ho : p.Owning ∨ 0 < x.owned ↔ x.Owning) (hn : owner=some t → p.names t=x.pc.names t)
    (hv : v=1+shareds+p.announced)
    (hp : ({ x with pc := p, shareds := shareds } : Thread).Placed) :
    Local (m.setSlot i v) owner t { x with pc := p, shareds := shareds } := by
  refine ⟨ho.trans h.owns,h.tally,?_,h.alone,?_,?_,hp⟩
  · intro he
    exact (h.named he).trans (hn he).symm
  · intro k hk
    obtain rfl : i=k := Option.some.inj (hi.symm.trans hk)
    subst hv
    exact getElem?_set_of_some (h.slot i hi)
  · intro hk
    simp [hi] at hk

/-- A thread that does not know itself as the owner has no lock that `want_x_lock` guards. -/
theorem unowned (h : Local m owner t x) (hp : x.pc.names t=some t)
    (hne : m.ownerThreadId ≠ some t) : x.owned=0 := by
  by_contra ho
  have hown := h.owns.mp (.inr (Nat.pos_of_ne_zero ho))
  exact hne ((h.named hown).trans hp)

/-- A change of `recursive_xlock_count`. -/
theorem count (h : Local m owner t x) (hown : owner=some t) {n exclusives spilled : Nat}
    (hn : n=exclusives+spilled) (ho : p.Owning ∨ 0 < exclusives+spilled)
    (hm : p.names t=x.pc.names t) (ha : p.announced=x.pc.announced)
    (hp : ({ x with pc := p, exclusives := exclusives, spilled := spilled } : Thread).Placed) :
    Local { m with recursiveXLockCount := n } owner t
      { x with pc := p, exclusives := exclusives, spilled := spilled } := by
  refine ⟨iff_of_true ho hown,fun _ => hn,?_,h.alone,?_,h.slotless,hp⟩
  · intro he
    exact (h.named he).trans hm.symm
  · intro i hi
    exact (h.slot i hi).trans (by rw [ha])

theorem congr (h : Local m owner t x) (hs : m'.sharedLocks=m.sharedLocks)
    (hc : m'.recursiveXLockCount=m.recursiveXLockCount) (ho : m'.ownerThreadId=m.ownerThreadId) :
    Local m' owner t x :=
  ⟨h.owns,fun he => hc.trans (h.tally he),fun he => ho.trans (h.named he),
    fun he => h.alone (ho ▸ he),fun i hi => hs ▸ h.slot i hi,h.slotless,h.placed⟩

/-- The thread that steps, if it neither sets nor resets `want_x_lock`. -/
theorem advances (h : Local m owner t x) (hw : m.wantXLock=owner.isSome)
    (hkeep : m'.wantXLock=m.wantXLock) (ha : Advances m t x m' x') : Local m' owner t x' := by
  have hpl := h.placed
  have howns := h.owns
  cases ha with
  | spins => exact h
  | counts hp => apply h.goto <;> simp_all [Thread.Owning,Thread.Placed,Thread.goto]
  | gives hq hp =>
    rcases hq with rfl | ⟨i,rfl⟩ <;> apply h.goto <;>
      simp_all [Thread.Owning,Thread.Placed,Thread.goto]
  | finds hp => apply h.goto <;> simp_all [Thread.Owning,Thread.Placed,Thread.goto]
  | skips hq hp =>
    rcases hq with rfl | rfl <;> apply h.goto <;>
      simp_all [Thread.Owning,Thread.Placed,Thread.goto]
  | @claims i hp hs =>
    have hi : x.index=none := by simpa [Thread.Placed,hp] using hpl
    have hz := h.slotless hi
    refine ⟨by simpa [Thread.Owning,hp] using howns,h.tally,?_,h.alone,?_,by simp,?_⟩
    · intro he
      simpa [hp] using h.named he
    · intro k hk
      obtain rfl : i=k := Option.some.inj hk
      simpa [hz] using getElem?_set_of_some hs
    · simp [Thread.Placed,hz]
  | adds hp =>
    refine Local.congr (m := m) ?_ rfl rfl rfl
    apply h.goto <;> simp_all [Thread.Owning,Thread.Placed,Thread.goto]
  | reads hp hi hs =>
    have hv := h.slot _ hi
    apply h.goto <;> simp_all [Thread.Owning,Thread.Placed,Thread.goto]
  | nests hp hi hd =>
    have hz : x.owned=0 := by
      simp only [Thread.Placed,hp] at hpl
      simp only [Thread.owned] at hpl ⊢
      omega
    apply h.store hi <;> simp_all [Thread.Owning,Thread.Placed]
    omega
  | announces hq hp hi =>
    rcases hq with ⟨rfl,hd⟩ | rfl
    · have hz : x.shareds=0 := by
        simp only [Thread.Placed,hp] at hpl
        omega
      apply h.store hi <;> simp_all [Thread.Owning,Thread.Placed]
    · apply h.store hi <;> simp_all [Thread.Owning,Thread.Placed]
  | @shares depth hp hf =>
    have hnone : owner=none := by
      rw [hf] at hw
      simpa using hw.symm
    subst hnone
    refine ⟨by simpa [Thread.Owning,hp] using howns,by simp,by simp,h.alone,?_,?_,?_⟩
    · intro i hi
      have hv := h.slot i hi
      rw [hv,hp]
      simp
      omega
    · intro hi
      simp_all [Thread.Placed]
    · simp_all [Thread.Owning,Thread.Placed]
  | refused hp hf =>
    apply h.goto <;> simp_all [Thread.Owning,Thread.Placed,Thread.goto]
  | retreats hp hi => apply h.store hi <;> simp_all [Thread.Owning,Thread.Placed]
  | returns hp hf =>
    apply h.goto <;> simp_all [Thread.Owning,Thread.Placed,Thread.goto]
  | @owned shared hp ho =>
    have hown := h.alone ho
    cases shared <;> apply h.goto <;> simp_all [Thread.Owning,Thread.Placed,Thread.goto]
    omega
  | @strange shared hp ho =>
    have hz := h.unowned (by simp [hp]) ho
    cases shared <;> apply h.goto <;> simp_all [Thread.Owning,Thread.Placed,Thread.goto]
  | takes hp hf => simp [hf] at hkeep
  | @signs shared hp =>
    have hown : owner=some t := howns.mp (by simp [Thread.Owning,hp])
    have hq : PC.names t (if shared then .increment true else .scan 0)=some t := by
      cases shared <;> rfl
    refine ⟨iff_of_true ?_ hown,h.tally,fun _ => hq.symm,fun _ => hown,?_,h.slotless,?_⟩
    · cases shared <;> simp [Thread.Owning,Thread.goto]
    · intro i hi
      have hv := h.slot i hi
      cases shared <;> simpa [hp,Thread.goto] using hv
    · cases shared <;> simp_all [Thread.Placed,Thread.goto]
  | scans hp hs hv =>
    apply h.goto <;> simp_all [Thread.Owning,Thread.Placed,Thread.goto]
  | scanned hp hs =>
    apply h.goto <;> simp_all [Thread.Owning,Thread.Placed,Thread.goto]
  | spills hp =>
    have hz := h.slotless (by simpa [Thread.Placed,hp] using hpl)
    have hown : owner=some t := howns.mp (by simp [Thread.Owning,hp])
    apply h.count hown <;> simp_all [Thread.Placed,h.tally hown]
    all_goals omega
  | locks hp =>
    have hown : owner=some t := howns.mp (by simp [Thread.Owning,hp])
    apply h.count hown <;> simp_all [Thread.Placed,h.tally hown]
    all_goals omega
  | rereads hp hi hs =>
    have hv := h.slot _ hi
    apply h.goto <;> simp_all [Thread.Owning,Thread.Placed,Thread.goto]
  | releases hp hi =>
    apply h.store hi <;> simp_all [Thread.Owning,Thread.Placed]
    omega
  | unspills hp =>
    simp only [Thread.Placed,hp] at hpl
    have hz := h.slotless hpl.1
    have hown : owner=some t := howns.mp (.inr (by simp only [Thread.owned]; omega))
    have hc := h.tally hown
    split_ifs with hn <;> apply h.count hown <;> simp_all [Thread.Placed]
    all_goals omega
  | unlocks hp =>
    simp only [Thread.Placed,hp] at hpl
    have hown : owner=some t := howns.mp (.inr (by simp only [Thread.owned]; omega))
    have hc := h.tally hown
    split_ifs with hn <;> apply h.count hown <;> simp_all [Thread.Placed]
    all_goals omega
  | clears hp =>
    have hown : owner=some t := howns.mp (by simp [Thread.Owning,hp])
    refine ⟨iff_of_true (by simp [Thread.Owning,Thread.goto]) hown,h.tally,fun _ => rfl,by simp,
      ?_,h.slotless,by simp_all [Thread.Placed,Thread.goto]⟩
    intro i hi
    simpa [hp,Thread.goto] using h.slot i hi
  | frees hp =>
    have hown : owner=some t := howns.mp (by simp [Thread.Owning,hp])
    simp [hw,hown] at hkeep
  | keeps hp hi hs hv =>
    apply h.goto <;> simp_all [Thread.Owning,Thread.Placed,Thread.goto]
  | leaves hp hi hs =>
    have hv := h.slot _ hi
    apply h.goto <;> simp_all [Thread.Owning,Thread.Placed,Thread.goto]
  | unregisters hp hi hs =>
    refine ⟨by simpa [Thread.Owning,hp] using howns,h.tally,?_,h.alone,by simp,?_,?_⟩
    · intro he
      simpa [hp] using h.named he
    · simp_all [Thread.Placed]
    · simp [Thread.Placed]
  | drops hp =>
    have hi : x.index=none := by simpa [Thread.Placed,hp] using hpl
    have hz := h.slotless hi
    refine Local.congr (m := m) ?_ rfl rfl rfl
    apply h.goto <;> simp_all [Thread.Owning,Thread.Placed,Thread.goto]

/-- The thread that sets `want_x_lock`. -/
theorem takes (h : Local m none t x) {shared : Bool} (hp : x.pc=.exchangeWant shared)
    (hc : m.recursiveXLockCount=0) (hn : m.ownerThreadId=none) :
    Local { m with wantXLock := true } (some t) t (x.goto (.storeOwner shared)) := by
  have hpl := h.placed
  simp only [Thread.Placed,hp] at hpl
  refine ⟨by simp [Thread.Owning,Thread.goto],fun _ => hc.trans hpl.1.symm,fun _ => hn,fun _ => rfl,
    ?_,h.slotless,by simpa [Thread.Placed,Thread.goto] using hpl⟩
  intro i hi
  simpa [hp,Thread.goto] using h.slot i hi

/-- The thread that resets it. -/
theorem frees (h : Local m owner t x) (hp : x.pc=.clearWant) :
    Local { m with wantXLock := false } none t (x.goto .idle) := by
  have hpl := h.placed
  have hown : owner=some t := h.owns.mp (by simp [Thread.Owning,hp])
  have hname := h.named hown
  simp only [Thread.Placed,hp] at hpl
  refine ⟨by simpa [Thread.Owning,Thread.goto] using hpl.1,by simp,by simp,?_,?_,h.slotless,?_⟩
  · simp [hname,hp]
  · intro i hi
    simpa [hp,Thread.goto] using h.slot i hi
  · simp_all [Thread.Placed,Thread.goto]

/-- A thread that begins a call. -/
theorem call {c : Act} (h : Local m owner t x) (hp : x.pc=.idle) (hc : call x c=some x') :
    Local m owner t x' := by
  have hpl := h.placed
  have howns := h.owns
  cases c with
  | lockShared =>
    cases hi : x.index with
    | none =>
      simp [ContentionFree.call,hi] at hc
      subst hc
      apply h.goto <;> simp_all [Thread.Owning,Thread.Placed,Thread.goto]
    | some i =>
      simp [ContentionFree.call,hi] at hc
      subst hc
      apply h.goto <;> simp_all [Thread.Owning,Thread.Placed,Thread.goto]
  | unlockShared =>
    simp only [ContentionFree.call] at hc
    split_ifs at hc with hi hs hs
    · have hz : x.exclusives=0 := by
        by_contra hne
        have := (show x.Apart by simpa only [Thread.Placed,hp] using hpl).2 (Nat.pos_of_ne_zero hne)
        omega
      cases hc
      apply h.goto <;> simp_all [Thread.Owning,Thread.Placed,Thread.goto]
    · cases hc
      apply h.goto <;> simp_all [Thread.Owning,Thread.Placed,Thread.goto]
  | lock =>
    simp only [ContentionFree.call] at hc
    split_ifs at hc with hs
    cases hc
    apply h.goto <;> simp_all [Thread.Owning,Thread.Placed,Thread.goto]
  | unlock =>
    simp only [ContentionFree.call] at hc
    split_ifs at hc with hs
    cases hc
    apply h.goto <;> simp_all [Thread.Owning,Thread.Placed,Thread.goto]
  | unregisterThread =>
    simp only [ContentionFree.call] at hc
    split_ifs at hc with hs
    cases hc
    apply h.goto <;> simp_all [Thread.Owning,Thread.Placed,Thread.goto]
  | advance => cases hc

/-- A slot is left alone by the threads it does not belong to. -/
theorem slot_other {y : Thread} (h : Local m owner u y) (ht : Touches m t x m')
    (hslot : ∀ i, x.index=some i → y.index ≠ some i) {i : Nat} (hi : y.index=some i) :
    m'.sharedLocks[i]?=m.sharedLocks[i]? := by
  cases ht with
  | @claims k hk =>
    have hne : k ≠ i := by
      rintro rfl
      rw [h.slot k hi] at hk
      simp at hk
    simp [List.getElem?_set_ne hne]
  | @stores k v hk =>
    have hne : k ≠ i := by
      rintro rfl
      exact hslot k hk hi
    simp [List.getElem?_set_ne hne]
  | _ => rfl

/-- A thread that changes the owner's members is the owner. -/
theorem owner_of_touches (h : Local m owner t x) (ht : Touches m t x m') :
    m'.recursiveXLockCount=m.recursiveXLockCount ∧ m'.ownerThreadId=m.ownerThreadId ∨
      owner=some t ∧ (m'.ownerThreadId=m.ownerThreadId ∨ m'.ownerThreadId=none ∨
        m'.ownerThreadId=some t) := by
  have hpl := h.placed
  have howns := h.owns
  cases ht with
  | signs hp => exact .inr ⟨howns.mp (by simp [Thread.Owning,hp]),.inr (.inr rfl)⟩
  | clears hp => exact .inr ⟨howns.mp (by simp [Thread.Owning,hp]),.inr (.inl rfl)⟩
  | @tallies n shared hq =>
    refine .inr ⟨howns.mp ?_,.inl rfl⟩
    rcases hq with hp | hp
    · simp [Thread.Owning,hp]
    · right
      cases shared <;> simp only [Thread.Placed,hp] at hpl <;> simp only [Thread.owned] <;> omega
  | _ => exact .inl ⟨rfl,rfl⟩

/-- A step of another thread. -/
theorem others {owner' : Option T} {y : Thread} (h : Local m owner u y) (hx : Local m owner t x)
    (ht : Touches m t x m') (hne : u ≠ t)
    (hslot : ∀ i, x.index=some i → y.index ≠ some i) (ho : owner'=some u ↔ owner=some u) :
    Local m' owner' u y := by
  have hfields : owner=some u → m'.recursiveXLockCount=m.recursiveXLockCount ∧
      m'.ownerThreadId=m.ownerThreadId := by
    intro he
    rcases hx.owner_of_touches ht with hs | ⟨he',_⟩
    · exact hs
    · exact absurd (Option.some.inj (he.symm.trans he')) hne
  refine ⟨h.owns.trans ho.symm,?_,?_,?_,?_,h.slotless,h.placed⟩
  · intro he
    exact (hfields (ho.mp he)).1.trans (h.tally (ho.mp he))
  · intro he
    exact (hfields (ho.mp he)).2.trans (h.named (ho.mp he))
  · intro he
    apply ho.mpr
    rcases hx.owner_of_touches ht with ⟨_,hs⟩ | ⟨_,hs | hs | hs⟩
    · exact h.alone (hs.symm.trans he)
    · exact h.alone (hs.symm.trans he)
    · rw [hs] at he
      cases he
    · exact absurd (Option.some.inj (he.symm.trans hs)) hne
  · intro i hi
    exact (h.slot_other ht hslot hi).trans (h.slot i hi)

end Local

/-- The states the mutex keeps to, with the thread that has set `want_x_lock`. -/
structure Tracked (s : State T) (owner : Option T) : Prop where
  want : s.mutex.wantXLock=owner.isSome
  unowned : owner=none → s.mutex.recursiveXLockCount=0
  row : ∀ t, Local s.mutex owner t (s.threads t)
  unique : ∀ t u i, (s.threads t).index=some i → (s.threads u).index=some i → t=u
  scanned : ∀ t u i, (s.threads t).Past i → (s.threads u).index=some i → u ≠ t →
    (s.threads u).shareds=0

end States

section Keeps

variable {T : Type} [DecidableEq T] {m m' : Mutex T} {owner owner' : Option T} {t : T}
  {x x' : Thread} {s s' : State T}

omit [DecidableEq T] in
/-- A thread gets a slot that is free, or none. -/
theorem Advances.index (h : Advances m t x m' x') :
    x'.index=x.index ∨ x'.index=none ∨ ∃ i, x'.index=some i ∧ m.sharedLocks[i]?=some 0 := by
  cases h with
  | claims _ hs => exact .inr (.inr ⟨_,rfl,hs⟩)
  | unregisters _ _ _ => exact .inr (.inl rfl)
  | _ => exact .inl rfl

omit [DecidableEq T] in
/-- A writer waits no more for a slot that it has found free. -/
theorem Advances.past (h : Advances m t x m' x') (hl : Local m owner t x) {i : Nat}
    (hp : x'.Past i) : x.Past i ∨ ∀ v, m.sharedLocks[i]?=some v → v ≤ 1 := by
  cases h with
  | spins => exact .inl hp
  | @scans j w hpc hs hv =>
    rcases hp with hp | hp | ⟨k,hk,hlt⟩
    · exact .inl (.inl hp)
    · cases hp
    · obtain rfl : j+1=k := PC.scan.inj hk
      rcases Nat.lt_succ_iff_lt_or_eq.mp hlt with hlt | rfl
      · exact .inl (.inr (.inr ⟨j,hpc,hlt⟩))
      · refine .inr fun v hv' => ?_
        obtain rfl : w=v := Option.some.inj (hs.symm.trans hv')
        exact hv
  | @scanned j hpc hs =>
    by_cases hlt : i < j
    · exact .inl (.inr (.inr ⟨j,hpc,hlt⟩))
    · refine .inr fun v hv => ?_
      have hlen := List.getElem?_eq_none_iff.mp hs
      rw [List.getElem?_eq_none_iff.mpr (by omega)] at hv
      cases hv
  | @owned shared hpc ho =>
    have hpl := hl.placed
    have hown := hl.owns.mpr (hl.alone ho)
    cases shared with
    | true =>
      rcases hp with hp | hp | ⟨k,hk,_⟩
      · exact .inl (.inl hp)
      · cases hp
      · cases hk
    | false =>
      simp only [Thread.Owning,Thread.Placed,Thread.owned,hpc,PC.Owning,false_or] at hpl hown
      exact .inl (.inl (by omega))
  | locks hpc => exact .inl (.inr (.inl hpc))
  | unlocks hpc =>
    rcases hp with hp | hp | ⟨k,hk,_⟩
    · exact .inl (.inl (by simp only at hp; omega))
    · simp only at hp
      split_ifs at hp
    · simp only at hk
      split_ifs at hk
  | unspills hpc =>
    rcases hp with hp | hp | ⟨k,hk,_⟩
    · exact .inl (.inl hp)
    · simp only at hp
      split_ifs at hp
    · simp only at hk
      split_ifs at hk
  | @signs shared hpc =>
    rcases hp with hp | hp | ⟨k,hk,hlt⟩
    · exact .inl (.inl hp)
    · cases shared <;> cases hp
    · cases shared with
      | true => cases hk
      | false =>
        obtain rfl : 0=k := PC.scan.inj hk
        exact absurd hlt (Nat.not_lt_zero i)
  | _ =>
    rcases hp with hp | hp | ⟨k,hk,_⟩
    · exact .inl (.inl hp)
    · cases hp
    · cases hk

omit [DecidableEq T] in
/-- A thread gets its first shared lock in its slot while nothing has set `want_x_lock`. -/
theorem Advances.shareds (h : Advances m t x m' x') (hl : Local m owner t x) {i : Nat}
    (hi : x'.index=some i) (hs : x'.shareds ≠ 0) :
    x.index=some i ∧ x.shareds ≠ 0 ∨ m.wantXLock=false := by
  cases h with
  | claims hp _ =>
    have hpl := hl.placed
    simp only [Thread.Placed,hp] at hpl
    exact absurd (hl.slotless hpl) hs
  | nests hp hj hd =>
    have hpl := hl.placed
    simp only [Thread.Placed,hp] at hpl
    exact .inl ⟨hi,by omega⟩
  | shares _ hf => exact .inr hf
  | releases _ _ => exact .inl ⟨hi,by simp only at hs; omega⟩
  | unregisters _ _ _ => cases hi
  | _ => exact .inl ⟨hi,hs⟩

namespace Tracked

/-- The row of the thread that steps is put together with those of the others. -/
theorem update (h : Tracked s owner) (hl : Local m' owner' t x') (ht : Touches s.mutex t (s.threads t) m')
    (hw : m'.wantXLock=owner'.isSome) (hc : owner'=none → m'.recursiveXLockCount=0)
    (ho : ∀ u, u ≠ t → (owner'=some u ↔ owner=some u))
    (hindex : x'.index=(s.threads t).index ∨ x'.index=none ∨
      ∃ i, x'.index=some i ∧ s.mutex.sharedLocks[i]?=some 0)
    (hpast : ∀ i, x'.Past i → (s.threads t).Past i ∨ ∀ v, s.mutex.sharedLocks[i]?=some v → v ≤ 1)
    (hshared : ∀ i, x'.index=some i → x'.shareds ≠ 0 →
      (s.threads t).index=some i ∧ (s.threads t).shareds ≠ 0 ∨ s.mutex.wantXLock=false) :
    Tracked ⟨m',Function.update s.threads t x'⟩ owner' := by
  have hfree : ∀ u i, u ≠ t → x'.index=some i → (s.threads u).index ≠ some i := by
    intro u i hu hi hui
    rcases hindex with he | he | ⟨k,hk,hz⟩
    · exact hu (h.unique u t i hui (he.symm.trans hi))
    · rw [he] at hi
      cases hi
    · obtain rfl : k=i := Option.some.inj (hk.symm.trans hi)
      rw [(h.row u).slot k hui] at hz
      simp at hz
  refine ⟨hw,hc,?_,?_,?_⟩
  · intro u
    by_cases hu : u=t
    · subst hu
      simpa using hl
    · simp only [Function.update_of_ne hu]
      exact (h.row u).others (h.row t) ht hu (fun i hi hui => hu (h.unique u t i hui hi)) (ho u hu)
  · intro u v i hu hv
    by_cases hut : u=t
    · by_cases hvt : v=t
      · exact hut.trans hvt.symm
      · simp only [hut,Function.update_self,Function.update_of_ne hvt] at hu hv
        exact absurd hv (hfree v i hvt hu)
    · by_cases hvt : v=t
      · simp only [hvt,Function.update_self,Function.update_of_ne hut] at hu hv
        exact absurd hu (hfree u i hut hv)
      · simp only [Function.update_of_ne hut,Function.update_of_ne hvt] at hu hv
        exact h.unique u v i hu hv
  · intro w u i hw' hu hne
    by_cases hwt : w=t
    · have hut : u ≠ t := hwt ▸ hne
      simp only [hwt,Function.update_self] at hw'
      simp only [Function.update_of_ne hut] at hu ⊢
      rcases hpast i hw' with hold | hv
      · exact h.scanned t u i hold hu hut
      · have := hv _ ((h.row u).slot i hu)
        omega
    · simp only [Function.update_of_ne hwt] at hw'
      by_cases hut : u=t
      · simp only [hut,Function.update_self] at hu ⊢
        by_contra hs
        rcases hshared i hu hs with ⟨hold,hz⟩ | hf
        · exact hz (h.scanned w t i hw' hold (Ne.symm hwt))
        · have hown := (h.row w).owns.mp hw'.owning
          rw [h.want,hown] at hf
          cases hf
      · simp only [Function.update_of_ne hut] at hu ⊢
        exact h.scanned w u i hw' hu hne

/-- A step inside a call. -/
theorem advances (h : Tracked s owner) (ha : Advances s.mutex t (s.threads t) m' x') :
    ∃ owner', Tracked ⟨m',Function.update s.threads t x'⟩ owner' := by
  have hl := h.row t
  by_cases hkeep : m'.wantXLock=s.mutex.wantXLock
  · refine ⟨owner,h.update (hl.advances h.want hkeep ha) ha.touches (hkeep.trans h.want) ?_
      (fun _ _ => Iff.rfl) ha.index (fun i => ha.past hl) fun i => ha.shareds hl⟩
    intro hnone
    rcases hl.owner_of_touches ha.touches with ⟨hc,_⟩ | ⟨he,_⟩
    · exact hc.trans (h.unowned hnone)
    · rw [hnone] at he
      cases he
  · have hcases := ha
    cases ha with
    | @takes shared hp hf =>
      have hnone : owner=none := by
        have := h.want
        rw [hf] at this
        simpa using this.symm
      subst hnone
      have hid : s.mutex.ownerThreadId=none := by
        rw [Option.eq_none_iff_forall_ne_some]
        intro u hu
        exact absurd ((h.row u).alone hu) (by simp)
      refine ⟨some t,h.update (hl.takes hp (h.unowned rfl) hid) hcases.touches rfl (by simp) ?_
        hcases.index (fun i => hcases.past hl) fun i => hcases.shareds hl⟩
      intro u hu
      simp [Ne.symm hu]
    | frees hp =>
      have hown : owner=some t := hl.owns.mp (by simp [Thread.Owning,hp])
      refine ⟨none,h.update (hl.frees hp) hcases.touches rfl ?_ ?_ hcases.index
        (fun i => hcases.past hl) fun i => hcases.shareds hl⟩
      · intro _
        have hpl := hl.placed
        simp only [Thread.Placed,hp] at hpl
        exact (hl.tally hown).trans hpl.1
      · intro u hu
        simp [hown,Ne.symm hu]
    | _ => exact absurd rfl hkeep

theorem next {c : Act} (h : Tracked s owner) (hn : s.next t c=some s') :
    ∃ owner', Tracked s' owner' := by
  obtain ⟨⟨m',x'⟩,ha,rfl⟩ := Option.map_eq_some_iff.mp hn
  rcases act_cases ha with ⟨hp,hc,rfl⟩ | ha
  · have hl := (h.row t).call hp hc
    obtain ⟨p,rfl,hinc,hscan⟩ := call_cases hc
    refine ⟨owner,h.update hl .nothing h.want h.unowned (fun _ _ => Iff.rfl) (.inl rfl) ?_
      fun i hi hs => .inl ⟨hi,hs⟩⟩
    intro i hpast
    rcases hpast with hpos | hpc | ⟨j,hpc,_⟩
    · exact .inl (.inl hpos)
    · exact absurd hpc hinc
    · exact absurd hpc (hscan j)
  · exact h.advances ha

end Tracked

omit [DecidableEq T] in
theorem tracked_initial (contentionFreeCount : Nat) :
    Tracked (State.initial T contentionFreeCount) none := by
  refine ⟨rfl,fun _ => rfl,fun t => ?_,by simp [State.initial],by simp [State.initial]⟩
  constructor <;> simp [State.initial,Thread.Owning,Thread.Placed,Mutex.make]

/-- A thread that has the exclusive lock has it alone, and no other thread has a shared one. -/
def State.Excludes (s : State T) : Prop :=
  ∀ t u, u ≠ t → 0 < (s.threads t).exclusives →
    (s.threads u).exclusives=0 ∧ (s.threads u).shareds=0 ∧ (s.threads u).spilled=0

/-- What the members say: a slot counts the shared locks of its thread, and
`recursive_xlock_count` what the thread in `owner_thread_id` has. -/
structure State.Recorded (s : State T) : Prop where
  slot : ∀ t i, (s.threads t).index=some i →
    s.mutex.sharedLocks[i]?=some (1+(s.threads t).shareds+(s.threads t).pc.announced)
  count : ∀ t, 0 < (s.threads t).owned → s.mutex.wantXLock=true ∧
    s.mutex.ownerThreadId=some t ∧ s.mutex.recursiveXLockCount=(s.threads t).owned
  free : (∀ t, ¬ (s.threads t).Owning) → s.mutex.wantXLock=false ∧
    s.mutex.ownerThreadId=none ∧ s.mutex.recursiveXLockCount=0

omit [DecidableEq T] in
theorem Tracked.excludes (h : Tracked s owner) : s.Excludes := by
  intro t u hu hx
  have howns : (s.threads t).Owning := .inr (Nat.lt_of_lt_of_le hx (Nat.le_add_right _ _))
  have hown := (h.row t).owns.mp howns
  have hz : (s.threads u).owned=0 := by
    by_contra hne
    have := (h.row u).owns.mp (.inr (Nat.pos_of_ne_zero hne))
    exact hu (Option.some.inj (this.symm.trans hown))
  simp only [Thread.owned] at hz
  refine ⟨by omega,?_,by omega⟩
  cases hi : (s.threads u).index with
  | none => exact (h.row u).slotless hi
  | some i => exact h.scanned t u i (.inl hx) hi hu

omit [DecidableEq T] in
theorem Tracked.recorded (h : Tracked s owner) : s.Recorded := by
  refine ⟨fun t => (h.row t).slot,?_,?_⟩
  · intro t ht
    have hl := h.row t
    have hown := hl.owns.mp (.inr ht)
    refine ⟨by rw [h.want,hown]; rfl,(hl.named hown).trans ?_,hl.tally hown⟩
    have hpl := hl.placed
    cases hp : (s.threads t).pc <;> simp_all [Thread.Placed]
  · intro hno
    have hnone : owner=none := by
      rw [Option.eq_none_iff_forall_ne_some]
      exact fun t ht => hno t ((h.row t).owns.mpr ht)
    subst hnone
    refine ⟨h.want,?_,h.unowned rfl⟩
    rw [Option.eq_none_iff_forall_ne_some]
    exact fun t ht => absurd ((h.row t).alone ht) (by simp)

theorem tracked_of_reachable {contentionFreeCount : Nat}
    (h : (machine T contentionFreeCount).Reachable s) : ∃ owner, Tracked s owner := by
  have h0 : ∀ s, (machine T contentionFreeCount).start s → ∃ owner, Tracked s owner := by
    rintro s rfl
    exact ⟨none,tracked_initial contentionFreeCount⟩
  have hs : ∀ s l s', (∃ owner, Tracked s owner) →
      (machine T contentionFreeCount).next s l=some s' → ∃ owner, Tracked s' owner := by
    rintro s l s' ⟨owner,hi⟩ hn
    exact hi.next hn
  exact h.invariant h0 hs

/-- Under any interleaving a writer is alone, and slots and members count what each thread has. -/
theorem excludes_of_reachable {contentionFreeCount : Nat}
    (h : (machine T contentionFreeCount).Reachable s) : s.Excludes ∧ s.Recorded := by
  obtain ⟨owner,ht⟩ := tracked_of_reachable h
  exact ⟨ht.excludes,ht.recorded⟩

/-- A reader in the only slot, with two locks, and a writer that waits for it. -/
theorem excludes_of_reachable_waiting : ∃ s : State Bool,
    ((s.threads false).shareds=2 ∧ (s.threads true).pc=.scan 0) ∧ s.Excludes ∧ s.Recorded := by
  obtain ⟨s,hr,hs⟩ := Machine.reachable_of_runFrom (machine Bool 1) (State.initial Bool 1)
    [(false,.lockShared),(false,.advance),(false,.advance),(false,.advance),(false,.advance),
      (false,.advance),(false,.advance),(false,.advance),(false,.lockShared),(false,.advance),
      (false,.advance),(true,.lock),(true,.advance),(true,.advance),(true,.advance),
      (true,.advance)]
    (fun s => (s.threads false).shareds=2 ∧ (s.threads true).pc=.scan 0) rfl (by decide)
  exact ⟨s,hs,excludes_of_reachable hr⟩

end Keeps

end Allocators.ContentionFree
