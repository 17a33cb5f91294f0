import Allocators.ContentionFree.Recursion
import Mathlib.Algebra.Order.BigOperators.Group.Finset
import Mathlib.Data.Fintype.BigOperators

/-! No other deadlock: where no thread nests a shared lock in one that `want_x_lock` guards, all can
get out. -/

namespace Allocators.ContentionFree

open Lib

namespace PC

/-- Inside `lock_shared`, with a slot or on the way to one. -/
def Sharing : PC → Prop
  | .loadUseCount | .loadSlot _ | .exchangeSlot _ => True
  | p => p.BySlot

end PC

/-- The steps that begin no call but an unlock. -/
def Act.Ends : Act → Prop
  | .advance | .unlock | .unlockShared => True
  | _ => False

/-- How many steps a thread is from its last unlock, at most, with `n` slots and `k` threads. One
that sets `want_x_lock` puts back up to `k` others, at `loadWant` or `storeAgain`. -/
def Thread.distance (want : Bool) (n k : Nat) (x : Thread) : Nat :=
  let held := 3*x.shareds+4*x.owned
  match x.pc with
  | .idle => held
  | .loadRelease | .decrement _ => held-1
  | .storeRelease _ => held-2
  | .clearWant | .dropUseCount => held+1
  | .clearOwner | .unregister => held+2
  | .loadUnregister => held+3
  | .loadWant _ => if want then held+8 else held+4
  | .storeAgain _ => if want then held+9 else held+5
  | .awaitWant _ => held+6
  | .storeBack _ => held+7
  | .storeDepth _ => held+9
  | .loadDepth => held+10
  | .addUseCount => held+11
  | .increment _ => held+5
  | .scan i => held+6+(n-i)
  | .storeOwner _ => held+7+n
  | .exchangeWant _ => held+8+n+4*k
  | .loadOwner _ => held+9+n+4*k
  | .loadSlot i => held+12+n+4*k+2*(n-i)
  | .exchangeSlot i => held+13+n+4*k+2*(n-(i+1))
  | .loadUseCount => held+13+n+4*k+2*n

/-- In a loop that goes round until another thread has done something. -/
def Blocked {T : Type} (m : Mutex T) (x : Thread) : Prop :=
  match x.pc with
  | .awaitWant _ | .exchangeWant _ => m.wantXLock=true
  | .scan i => ∃ v, m.sharedLocks[i]?=some v ∧ 1 < v
  | _ => False

section Steps

variable {T : Type} [DecidableEq T] {m m' : Mutex T} {owner : Option T} {t u : T} {x x' : Thread}
  {n k : Nat}

/-- What it costs the others when `want_x_lock` gets set. -/
def setback (want want' : Bool) : Nat := if want'=true ∧ want=false then 4 else 0

theorem distance_setback (want want' : Bool) (n k : Nat) (x : Thread) :
    x.distance want' n k ≤ x.distance want n k+setback want want' := by
  unfold Thread.distance setback
  cases x.pc <;> cases want <;> cases want' <;> simp

omit [DecidableEq T] in
theorem length_touches (h : Touches m t x m') : m'.sharedLocks.length=m.sharedLocks.length := by
  cases h <;> simp

/-- Inside a call a thread that does not wait has a next step, and is nearer to its last unlock after
it. -/
theorem advance_lowers (hl : Local m owner t x) (hp : x.pc ≠ .idle) (hb : ¬ Blocked m x)
    (hn : m.sharedLocks.length=n) :
    ∃ m' x', advance m t x=some (m',x') ∧
      x'.distance m'.wantXLock n k+k*setback m.wantXLock m'.wantXLock <
        x.distance m.wantXLock n k := by
  have hpl := hl.placed
  have hslot : ∀ i, x.index=some i → m.slot x=some (1+x.shareds+x.pc.announced) := by
    intro i hi
    rw [Mutex.slot,hi]
    exact hl.slot i hi
  cases hq : x.pc with
  | idle => exact absurd hq hp
  | loadUseCount =>
    simp only [advance,hq]
    split_ifs
    · refine ⟨_,_,rfl,?_⟩
      simp [Thread.distance,Thread.goto,setback,hq]
    · refine ⟨_,_,rfl,?_⟩
      simp [Thread.distance,Thread.goto,setback,hq]
      omega
  | loadSlot i =>
    simp only [advance,hq]
    cases hs : m.sharedLocks[i]? with
    | none =>
      refine ⟨_,_,rfl,?_⟩
      simp [Thread.distance,Thread.goto,setback,hq]
      omega
    | some v =>
      have hlt := (List.getElem?_eq_some_iff.mp hs).1
      refine ⟨_,_,rfl,?_⟩
      split_ifs <;> simp [Thread.distance,Thread.goto,setback,hq] <;> omega
  | exchangeSlot i =>
    simp only [advance,hq]
    split_ifs with hs
    · refine ⟨_,_,rfl,?_⟩
      simp [Thread.distance,setback,hq]
      omega
    · refine ⟨_,_,rfl,?_⟩
      simp [Thread.distance,Thread.goto,setback,hq]
  | addUseCount =>
    refine ⟨_,_,by simp only [advance,hq]; rfl,?_⟩
    simp [Thread.distance,Thread.goto,setback,hq]
  | loadDepth =>
    simp only [Thread.Placed,hq] at hpl
    obtain ⟨i,hi⟩ := Option.isSome_iff_exists.mp hpl.1
    refine ⟨_,_,by simp only [advance,hq,hslot i hi,Option.map_some]; rfl,?_⟩
    simp [Thread.distance,Thread.goto,setback,hq]
  | storeDepth depth =>
    simp only [Thread.Placed,hq] at hpl
    obtain ⟨i,hi⟩ := Option.isSome_iff_exists.mp hpl.1
    simp only [advance,hq,hi,Option.map_some]
    split_ifs
    · refine ⟨_,_,rfl,?_⟩
      simp [Thread.distance,setback,hq]
      omega
    · refine ⟨_,_,rfl,?_⟩
      cases hw : m.wantXLock <;> simp [Thread.distance,Thread.goto,setback,hq,hw]
  | loadWant depth =>
    simp only [advance,hq]
    split_ifs with hw
    · refine ⟨_,_,rfl,?_⟩
      simp [Thread.distance,Thread.goto,setback,hq,hw]
    · refine ⟨_,_,rfl,?_⟩
      simp [Thread.distance,setback,hq,hw]
      omega
  | storeBack depth =>
    simp only [Thread.Placed,hq] at hpl
    obtain ⟨i,hi⟩ := Option.isSome_iff_exists.mp hpl.1
    refine ⟨_,_,by simp only [advance,hq,hi,Option.map_some]; rfl,?_⟩
    simp [Thread.distance,Thread.goto,setback,hq]
  | awaitWant depth =>
    have hw : m.wantXLock=false := by simpa [Blocked,hq] using hb
    refine ⟨_,_,by simp only [advance,hq,hw]; rfl,?_⟩
    simp [Thread.distance,Thread.goto,setback,hq,hw]
  | storeAgain depth =>
    simp only [Thread.Placed,hq] at hpl
    obtain ⟨i,hi⟩ := Option.isSome_iff_exists.mp hpl.1
    refine ⟨_,_,by simp only [advance,hq,hi,Option.map_some]; rfl,?_⟩
    cases hw : m.wantXLock <;> simp [Thread.distance,Thread.goto,setback,hq,hw]
  | loadOwner shared =>
    simp only [advance,hq]
    split_ifs
    · refine ⟨_,_,rfl,?_⟩
      simp [Thread.distance,Thread.goto,setback,hq]
      omega
    · refine ⟨_,_,rfl,?_⟩
      simp [Thread.distance,Thread.goto,setback,hq]
  | exchangeWant shared =>
    have hw : m.wantXLock=false := by simpa [Blocked,hq] using hb
    refine ⟨_,_,by simp only [advance,hq,hw]; rfl,?_⟩
    simp [Thread.distance,Thread.goto,setback,hq,hw]
    omega
  | storeOwner shared =>
    refine ⟨_,_,by simp only [advance,hq]; rfl,?_⟩
    cases shared with
    | true =>
      simp [Thread.distance,Thread.goto,setback,hq]
      omega
    | false => simp [Thread.distance,Thread.goto,setback,hq]
  | scan i =>
    cases hs : m.sharedLocks[i]? with
    | none =>
      refine ⟨_,_,by simp only [advance,hq,hs]; rfl,?_⟩
      simp [Thread.distance,Thread.goto,setback,hq]
      omega
    | some v =>
      have hlt := (List.getElem?_eq_some_iff.mp hs).1
      have hv : ¬ 1 < v := fun hv => hb (by simp [Blocked,hq,hs,hv])
      refine ⟨_,_,by simp only [advance,hq,hs,if_neg hv]; rfl,?_⟩
      simp [Thread.distance,Thread.goto,setback,hq]
      omega
  | increment shared =>
    refine ⟨_,_,by simp only [advance,hq]; rfl,?_⟩
    cases shared <;> simp [Thread.distance,setback,hq] <;> omega
  | loadRelease =>
    simp only [Thread.Placed,hq] at hpl
    obtain ⟨i,hi⟩ := Option.isSome_iff_exists.mp hpl.1
    refine ⟨_,_,by simp only [advance,hq,hslot i hi,Option.map_some]; rfl,?_⟩
    simp [Thread.distance,Thread.goto,setback,hq]
    omega
  | storeRelease depth =>
    simp only [Thread.Placed,hq] at hpl
    obtain ⟨i,hi⟩ := Option.isSome_iff_exists.mp hpl.1
    refine ⟨_,_,by simp only [advance,hq,hi,Option.map_some]; rfl,?_⟩
    simp [Thread.distance,setback,hq]
    omega
  | decrement shared =>
    refine ⟨_,_,by simp only [advance,hq]; rfl,?_⟩
    cases shared with
    | true =>
      simp only [Thread.Placed,hq] at hpl
      by_cases hz : m.recursiveXLockCount-1=0 <;>
        simp [Thread.distance,Thread.goto,setback,hq,hz] <;> omega
    | false =>
      simp only [Thread.Placed,hq] at hpl
      by_cases hz : m.recursiveXLockCount-1=0 <;>
        simp [Thread.distance,Thread.goto,setback,hq,hz] <;> omega
  | clearOwner =>
    refine ⟨_,_,by simp only [advance,hq]; rfl,?_⟩
    simp [Thread.distance,Thread.goto,setback,hq]
  | clearWant =>
    refine ⟨_,_,by simp only [advance,hq]; rfl,?_⟩
    simp [Thread.distance,Thread.goto,setback,hq]
  | loadUnregister =>
    simp only [Thread.Placed,hq] at hpl
    obtain ⟨i,hi⟩ := Option.isSome_iff_exists.mp hpl.1
    refine ⟨_,_,by simp only [advance,hq,hslot i hi,Option.map_some]; rfl,?_⟩
    split_ifs <;> simp [Thread.distance,Thread.goto,setback,hq]
  | unregister =>
    simp only [Thread.Placed,hq] at hpl
    obtain ⟨i,hi⟩ := Option.isSome_iff_exists.mp hpl.1
    refine ⟨_,_,by simp only [advance,hq,hi,hslot i hi]; rfl,?_⟩
    simp [Thread.distance,setback,hq]
  | dropUseCount =>
    refine ⟨_,_,by simp only [advance,hq]; rfl,?_⟩
    simp [Thread.distance,Thread.goto,setback,hq]

omit [DecidableEq T] in
theorem idle_of_distance (hl : Local m owner t x) {want : Bool} (hd : x.distance want n k=0) :
    x.pc=.idle ∧ x.shareds=0 ∧ x.owned=0 := by
  have hpl := hl.placed
  unfold Thread.distance at hd
  cases hp : x.pc with
  | idle =>
    simp only [hp] at hd
    exact ⟨rfl,by omega,by omega⟩
  | loadWant depth | storeAgain depth =>
    simp only [hp] at hd
    split_ifs at hd
  | decrement shared =>
    simp only [hp,Thread.owned] at hd
    cases shared <;> simp only [Thread.Placed,hp] at hpl <;> omega
  | _ =>
    simp only [Thread.Placed,hp] at hpl hd
    omega

theorem advance_blocked (hb : Blocked m x) : advance m t x=some (m,x) := by
  unfold Blocked at hb
  cases hp : x.pc with
  | awaitWant depth | exchangeWant shared =>
    simp only [hp] at hb
    simp only [advance,hp,hb,if_true]
  | scan i =>
    obtain ⟨v,hs,hv⟩ : ∃ v, m.sharedLocks[i]?=some v ∧ 1 < v := by simpa [hp] using hb
    simp only [advance,hp,hs,if_pos hv]
  | _ => simp [hp] at hb

omit [DecidableEq T] in
/-- A thread that is in no call and has a lock can give it back. -/
theorem exists_call (hl : Local m owner t x) (hp : x.pc=.idle)
    (hd : x.distance m.wantXLock n k ≠ 0) : ∃ c x', c.Ends ∧ call x c=some x' := by
  have hpl := hl.placed
  simp only [Thread.Placed,hp,Thread.Apart] at hpl
  simp only [Thread.distance,hp,Thread.owned] at hd
  by_cases he : 0 < x.exclusives
  · exact ⟨.unlock,_,trivial,by simp only [call,if_pos he]; rfl⟩
  · cases hi : x.index with
    | some i =>
      have hsp : x.spilled=0 := hpl.1 (by simp [hi])
      have hs : 0 < x.shareds := by omega
      exact ⟨.unlockShared,_,trivial,by simp only [call,hi,if_pos hs]; rfl⟩
    | none =>
      have hz := hl.slotless hi
      have hs : 0 < x.spilled := by omega
      exact ⟨.unlockShared,_,trivial,by simp only [call,hi,if_pos hs]; rfl⟩

omit [DecidableEq T] in
theorem call_lowers {c : Act} (hp : x.pc=.idle) (hc : c.Ends) (h : call x c=some x')
    (want : Bool) : x'.distance want n k < x.distance want n k := by
  cases c with
  | unlock =>
    simp only [call] at h
    split_ifs at h with he
    obtain rfl := Option.some.inj h
    simp only [Thread.distance,Thread.goto,hp,Thread.owned]
    omega
  | unlockShared =>
    simp only [call] at h
    split_ifs at h with hi hs hs
    all_goals
      obtain rfl := Option.some.inj h
      simp only [Thread.distance,Thread.goto,hp,Thread.owned]
      omega
  | advance => cases h
  | lockShared | lock | unregisterThread => cases hc

omit [DecidableEq T] in
/-- A slot in use after a step was so before, or is the thread's own. -/
theorem Advances.used (h : Advances m t x m' x') (hl : Local m owner t x) {i v : Nat}
    (hs : m'.sharedLocks[i]?=some v) (hv : v ≠ 0) :
    x'.index=some i ∨ x.index ≠ some i ∧ ∃ w, w ≠ 0 ∧ m.sharedLocks[i]?=some w := by
  have hstore : ∀ {j w}, x.index=some j → (m.setSlot j w).sharedLocks[i]?=some v →
      x.index=some i ∨ x.index ≠ some i ∧ ∃ w, w ≠ 0 ∧ m.sharedLocks[i]?=some w := by
    intro j w hj hset
    rcases Vector.getElem?_set_cases hset with ⟨rfl,_⟩ | ⟨hne,he⟩
    · exact .inl hj
    · exact .inr ⟨by simp [hj,Ne.symm hne],v,hv,he⟩
  cases h with
  | @claims j _ _ =>
    rcases Vector.getElem?_set_cases hs with ⟨rfl,_⟩ | ⟨hne,he⟩
    · exact .inl rfl
    · have hi : x.index=none := by
        have hpl := hl.placed
        simp_all [Thread.Placed]
      exact .inr ⟨by simp [hi],v,hv,he⟩
  | nests _ hj _ => exact hstore hj hs
  | announces _ _ hj => exact hstore hj hs
  | retreats _ hj => exact hstore hj hs
  | releases _ hj => exact hstore hj hs
  | @unregisters j w hp hj hw =>
    -- the slot said only that it is taken
    have hpl := hl.placed
    simp only [Thread.Placed,hp] at hpl
    have hone := hl.slot j hj
    rcases Vector.getElem?_set_cases hs with ⟨rfl,he⟩ | ⟨hne,he⟩
    · simp_all
    · exact .inr ⟨by simp [hj,Ne.symm hne],v,hv,he⟩
  | _ =>
    by_cases hi : x.index=some i
    · exact .inl hi
    · exact .inr ⟨hi,v,hv,hs⟩

omit [DecidableEq T] in
/-- No step but the call of `lock_shared` nests a shared lock in another one. -/
theorem Advances.sharing (h : Advances m t x m' x') (hs : x'.pc.Sharing ∧ 0 < x'.owned) :
    x.pc.Sharing ∧ 0 < x.owned := by
  cases h with
  | spins => exact hs
  | gives hq hp => simp_all [PC.Sharing,PC.BySlot,Thread.goto]
  | @skips i p hq hp =>
    refine ⟨?_,hs.2⟩
    rcases hq with rfl | rfl <;> simp [hp,PC.Sharing]
  | @announces i depth p hq hp _ =>
    refine ⟨?_,hs.2⟩
    rcases hq with ⟨rfl,_⟩ | rfl <;> simp [hp,PC.Sharing,PC.BySlot]
  | @signs shared hp => cases shared <;> simp_all [PC.Sharing,PC.BySlot,Thread.goto]
  | unspills hp =>
    simp only at hs
    split_ifs at hs <;> simp_all [PC.Sharing,PC.BySlot]
  | unlocks hp =>
    simp only at hs
    split_ifs at hs <;> simp_all [PC.Sharing,PC.BySlot]
  | _ => simp_all [PC.Sharing,PC.BySlot,Thread.goto]

end Steps

section States

variable {T : Type} [DecidableEq T] {s s' : State T} {owner : Option T} {t : T}

/-- A slot in use is that of a thread. -/
def Backed (s : State T) : Prop :=
  ∀ i v, s.mutex.sharedLocks[i]?=some v → v ≠ 0 → ∃ t, (s.threads t).index=some i

/-- No thread is about to take a shared lock while it has one that `want_x_lock` guards. -/
def Unnested (s : State T) : Prop :=
  ∀ t, ¬ ((s.threads t).pc.Sharing ∧ 0 < (s.threads t).owned)

/-- No lock is held, and no thread is inside a call. -/
structure Quiet (s : State T) : Prop where
  wantXLock : s.mutex.wantXLock=false
  ownerThreadId : s.mutex.ownerThreadId=none
  recursiveXLockCount : s.mutex.recursiveXLockCount=0
  sharedLocks : ∀ i v : Nat, s.mutex.sharedLocks[i]?=some v → v ≤ 1
  idle : ∀ t, (s.threads t).pc=.idle
  unlocked : ∀ t, (s.threads t).owned=0 ∧ (s.threads t).shareds=0

omit [DecidableEq T] in
theorem backed_initial (contentionFreeCount : Nat) :
    Backed (State.initial T contentionFreeCount) := by
  intro i v hi hv
  simp only [State.initial,Mutex.make,List.getElem?_replicate] at hi
  split_ifs at hi
  exact absurd (Option.some.inj hi).symm hv

theorem Backed.next {c : Act} (h : Backed s) (htr : Tracked s owner) (hn : s.next t c=some s') :
    Backed s' := by
  obtain ⟨⟨m',x'⟩,ha,rfl⟩ := Option.map_eq_some_iff.mp hn
  intro i v hi hv
  have hused : x'.index=some i ∨
      (s.threads t).index ≠ some i ∧ ∃ w, w ≠ 0 ∧ s.mutex.sharedLocks[i]?=some w := by
    rcases act_cases ha with ⟨_,hc,rfl⟩ | ha
    · obtain ⟨p,rfl,_,_⟩ := call_cases hc
      by_cases hx : (s.threads t).index=some i
      · exact .inl hx
      · exact .inr ⟨hx,v,hv,hi⟩
    · exact ha.used (htr.row t) hi hv
  rcases hused with hx | ⟨hx,w,hw,hi⟩
  · exact ⟨t,by simpa using hx⟩
  · obtain ⟨u,hu⟩ := h i w hi hw
    have hut : u ≠ t := by
      rintro rfl
      exact hx hu
    exact ⟨u,by simpa [Function.update_of_ne hut] using hu⟩

theorem Unnested.next {c : Act} (h : Unnested s) (hc : c.Ends) (hn : s.next t c=some s') :
    Unnested s' := by
  obtain ⟨⟨m',x'⟩,ha,rfl⟩ := Option.map_eq_some_iff.mp hn
  intro u hu
  by_cases hut : u=t
  · subst hut
    simp only [Function.update_self] at hu
    rcases act_cases ha with ⟨_,hcall,_⟩ | ha
    · cases c with
      | unlock | unlockShared =>
        simp only [call] at hcall
        split_ifs at hcall <;> cases hcall <;> simp [Thread.goto,PC.Sharing,PC.BySlot] at hu
      | _ => cases hc <;> cases hcall
    · exact h u (ha.sharing hu)
  · simp only [Function.update_of_ne hut] at hu
    exact h u hu

omit [DecidableEq T] in
theorem Tracked.want_of_blocked (h : Tracked s owner) (hb : Blocked s.mutex (s.threads t)) :
    s.mutex.wantXLock=true := by
  unfold Blocked at hb
  cases hp : (s.threads t).pc with
  | scan i =>
    rw [h.want,(h.row t).owns.mp (.inl (by simp [hp]))]
    rfl
  | _ => simp_all

end States

section Runs

variable {T : Type} [DecidableEq T] [Fintype T] {s s' : State T} {owner : Option T} {t : T}
  {contentionFreeCount : Nat}

/-- The distance of a thread in a state. -/
def State.distance (s : State T) (t : T) : Nat :=
  (s.threads t).distance s.mutex.wantXLock s.mutex.sharedLocks.length (Fintype.card T)

/-- The steps that are left, at most. -/
def remaining (s : State T) : Nat := ∑ t, s.distance t

/-- Some step that begins no call brings the end nearer. -/
def Lowers (s : State T) : Prop :=
  ∃ t c s', c.Ends ∧ s.next t c=some s' ∧ remaining s' < remaining s

theorem remaining_lt {m' : Mutex T} {x' : Thread}
    (hlen : m'.sharedLocks.length=s.mutex.sharedLocks.length)
    (hlt : x'.distance m'.wantXLock s.mutex.sharedLocks.length (Fintype.card T)+
      Fintype.card T*setback s.mutex.wantXLock m'.wantXLock < s.distance t) :
    remaining ⟨m',Function.update s.threads t x'⟩ < remaining s := by
  let s' : State T := ⟨m',Function.update s.threads t x'⟩
  let c := setback s.mutex.wantXLock m'.wantXLock
  have hother : ∑ u ∈ Finset.univ.erase t,s'.distance u ≤
      ∑ u ∈ Finset.univ.erase t,s.distance u+Fintype.card T*c := by
    calc ∑ u ∈ Finset.univ.erase t,s'.distance u
        ≤ ∑ u ∈ Finset.univ.erase t,(s.distance u+c) := by
          refine Finset.sum_le_sum fun u hu => ?_
          simp only [s',State.distance,Function.update_of_ne (Finset.ne_of_mem_erase hu),hlen]
          exact distance_setback _ _ _ _ _
      _ = ∑ u ∈ Finset.univ.erase t,s.distance u+(Finset.univ.erase t).card*c := by
          rw [Finset.sum_add_distrib,Finset.sum_const_nat fun _ _ => rfl]
      _ ≤ _ := Nat.add_le_add_left (Nat.mul_le_mul_right _ (Finset.card_le_univ _)) _
  have hself : s'.distance t=
      x'.distance m'.wantXLock s.mutex.sharedLocks.length (Fintype.card T) := by
    simp [s',State.distance,hlen]
  have hs' := Finset.add_sum_erase Finset.univ s'.distance (Finset.mem_univ t)
  have hs := Finset.add_sum_erase Finset.univ s.distance (Finset.mem_univ t)
  change remaining s' < remaining s
  unfold remaining
  simp only [c] at hother
  omega

theorem remaining_call {c : Act} {x' : Thread} (hp : (s.threads t).pc=.idle) (hc : c.Ends)
    (h : call (s.threads t) c=some x') :
    remaining ⟨s.mutex,Function.update s.threads t x'⟩ < remaining s := by
  refine remaining_lt rfl ?_
  have hlt := call_lowers (n := s.mutex.sharedLocks.length) (k := Fintype.card T) hp hc h
    s.mutex.wantXLock
  simpa [setback,State.distance] using hlt

/-- A step that changes the state counts. -/
theorem remaining_next {c : Act} (htr : Tracked s owner) (hc : c.Ends) (hn : s.next t c=some s') :
    s'=s ∨ remaining s' < remaining s := by
  obtain ⟨⟨m',x'⟩,ha,rfl⟩ := Option.map_eq_some_iff.mp hn
  cases c with
  | advance =>
    change advance s.mutex t (s.threads t)=some (m',x') at ha
    by_cases hb : Blocked s.mutex (s.threads t)
    · rw [advance_blocked hb] at ha
      obtain ⟨rfl,rfl⟩ := Prod.mk.inj (Option.some.inj ha)
      exact .inl (by simp)
    · have hp : (s.threads t).pc ≠ .idle := by
        intro hp
        simp [advance,hp] at ha
      obtain ⟨m,x,hm,hlt⟩ := advance_lowers (k := Fintype.card T) (htr.row t) hp hb rfl
      rw [ha] at hm
      obtain ⟨rfl,rfl⟩ := Prod.mk.inj (Option.some.inj hm)
      exact .inr (remaining_lt (length_touches (advances_of_some ha).touches) hlt)
  | unlock | unlockShared =>
    simp only [act] at ha
    split_ifs at ha with hp
    obtain ⟨x,hx,he⟩ := Option.map_eq_some_iff.mp ha
    obtain ⟨rfl,rfl⟩ := Prod.mk.inj he
    exact .inr (remaining_call hp hc hx)
  | lockShared | lock | unregisterThread => cases hc

/-- A thread that does not wait has a step that counts. -/
theorem lowers_of_unblocked (htr : Tracked s owner) (hb : ¬ Blocked s.mutex (s.threads t))
    (hd : s.distance t ≠ 0) : Lowers s := by
  have hl := htr.row t
  by_cases hp : (s.threads t).pc=.idle
  · obtain ⟨c,x',hc,hcall⟩ := exists_call hl hp hd
    have hact : act s.mutex t (s.threads t) c=some (s.mutex,x') := by
      cases c with
      | advance => cases hcall
      | _ => simp [act,hp,hcall]
    exact ⟨t,c,_,hc,by rw [State.next,hact]; rfl,remaining_call hp hc hcall⟩
  · obtain ⟨m',x',ha,hlt⟩ := advance_lowers (k := Fintype.card T) hl hp hb rfl
    refine ⟨t,.advance,_,trivial,by rw [State.next,act,ha]; rfl,?_⟩
    exact remaining_lt (length_touches (advances_of_some ha).touches) hlt

/-- A thread that counts a slot in use waits for the thread of that slot, which can go on. -/
theorem lowers_of_scan (htr : Tracked s owner) (hb : Backed s) {i v : Nat}
    (hs : s.mutex.sharedLocks[i]?=some v) (hv : 1 < v) : Lowers s := by
  obtain ⟨u,hu⟩ := hb i v hs (by omega)
  have hl := htr.row u
  have hpl := hl.placed
  have hcount : v=1+(s.threads u).shareds+(s.threads u).pc.announced :=
    Option.some.inj (hs.symm.trans (hl.slot i hu))
  refine lowers_of_unblocked (t := u) htr ?_ ?_
  · intro hblock
    unfold Blocked at hblock
    cases hp : (s.threads u).pc <;> simp_all [Thread.Placed]
  · intro hz
    obtain ⟨hp,hs,_⟩ := idle_of_distance hl hz
    simp only [hp,hs,PC.announced] at hcount
    omega

/-- While a thread is not at its end some thread can go on. -/
theorem lowers_of_remaining (htr : Tracked s owner) (hb : Backed s) (hn : Unnested s)
    (hr : remaining s ≠ 0) : Lowers s := by
  obtain ⟨t,_,hd⟩ := Finset.exists_ne_zero_of_sum_ne_zero hr
  by_cases hblock : Blocked s.mutex (s.threads t)
  · have hwant := htr.want_of_blocked hblock
    rw [htr.want] at hwant
    obtain ⟨o,rfl⟩ := Option.isSome_iff_exists.mp hwant
    have howning := (htr.row o).owns.mpr rfl
    have hpl := (htr.row o).placed
    have hno := hn o
    by_cases hob : Blocked s.mutex (s.threads o)
    · unfold Blocked at hob
      cases hp : (s.threads o).pc with
      | scan i =>
        obtain ⟨v,hs,hv⟩ : ∃ v, s.mutex.sharedLocks[i]?=some v ∧ 1 < v := by simpa [hp] using hob
        exact lowers_of_scan htr hb hs hv
      | _ => simp_all [Thread.Owning,Thread.Placed,PC.Sharing,PC.BySlot]
    · refine lowers_of_unblocked htr hob ?_
      intro hz
      obtain ⟨hp,_,ho⟩ := idle_of_distance (htr.row o) hz
      rw [Thread.Owning,hp,ho] at howning
      simp at howning
  · exact lowers_of_unblocked htr hblock hd

omit [DecidableEq T] in
theorem quiet_of_remaining (htr : Tracked s owner) (hb : Backed s) (hz : remaining s=0) :
    Quiet s := by
  have hall : ∀ t, (s.threads t).pc=.idle ∧ (s.threads t).shareds=0 ∧ (s.threads t).owned=0 :=
    fun t => idle_of_distance (htr.row t) (Finset.sum_eq_zero_iff.mp hz t (Finset.mem_univ t))
  have hfree : ∀ t, ¬ (s.threads t).Owning := by
    intro t
    obtain ⟨hp,_,ho⟩ := hall t
    rw [Thread.Owning,hp,ho]
    simp
  obtain ⟨hw,ho,hc⟩ := htr.recorded.free hfree
  refine ⟨hw,ho,hc,?_,fun t => (hall t).1,fun t => (hall t).2.symm⟩
  intro i v hs
  by_contra hv
  obtain ⟨t,ht⟩ := hb i v hs (by omega)
  obtain ⟨hp,hz,_⟩ := hall t
  have hslot := (htr.row t).slot i ht
  rw [hs,hp,hz] at hslot
  simp only [PC.announced,Option.some.injEq] at hslot
  omega

/-- From every reachable state in which no thread nests a shared lock in one that `want_x_lock`
guards, whatever threads do next but take new locks: only so many of their steps change the state,
and until all are outside and nothing is locked some thread has such a step. -/
theorem drains_unless_nested (h : (machine T contentionFreeCount).Reachable s) (hn : Unnested s) :
    ∃ n, ∀ ls s', (∀ l ∈ ls, l.2.Ends) → (machine T contentionFreeCount).Strides s ls s' →
      ls.length ≤ n ∧ (Quiet s' ∨ ∃ l s'', l.2.Ends ∧
        (machine T contentionFreeCount).next s' l=some s'' ∧ s'' ≠ s') := by
  let M := machine T contentionFreeCount
  let Inv := fun s : State T => ((∃ owner, Tracked s owner) ∧ Backed s) ∧ Unnested s
  have h0 : ∀ s, M.start s → (∃ owner, Tracked s owner) ∧ Backed s := by
    rintro s rfl
    exact ⟨⟨none,tracked_initial contentionFreeCount⟩,backed_initial contentionFreeCount⟩
  have hnext : ∀ s l s', ((∃ owner, Tracked s owner) ∧ Backed s) → M.next s l=some s' →
      (∃ owner, Tracked s' owner) ∧ Backed s' := by
    rintro s ⟨t,c⟩ s' ⟨⟨owner,htr⟩,hb⟩ hn
    exact ⟨htr.next hn,hb.next htr hn⟩
  have hinv : ∀ s l s', Inv s → l.2.Ends → M.next s l=some s' → Inv s' :=
    fun s l s' hi hl hn => ⟨hnext s l s' hi.1 hn,hi.2.next hl hn⟩
  have hlower : ∀ s l s', Inv s → l.2.Ends → M.next s l=some s' →
      s'=s ∨ remaining s' < remaining s := by
    rintro s ⟨t,c⟩ s' ⟨⟨⟨owner,htr⟩,_⟩,_⟩ hc hn
    exact remaining_next htr hc hn
  refine ⟨remaining s,fun ls s' hls hr => ?_⟩
  obtain ⟨⟨⟨⟨owner,htr⟩,hb⟩,hn⟩,hle⟩ :=
    hr.length_le hinv hlower hls ⟨h.invariant h0 hnext,hn⟩
  refine ⟨by omega,?_⟩
  by_cases hz : remaining s'=0
  · exact .inl (quiet_of_remaining htr hb hz)
  · obtain ⟨t,c,s'',hc,hs,hlt⟩ := lowers_of_remaining htr hb hn hz
    refine .inr ⟨(t,c),s'',hc,hs,?_⟩
    rintro rfl
    exact Nat.lt_irrefl _ hlt

/-- A writer that waits for a reader in the only slot, and a reader without one that waits for the
writer. -/
theorem drains_unless_nested_waiting : ∃ s : State (Fin 3),
    ((s.threads 0).shareds=1 ∧ (s.threads 1).pc=.scan 0 ∧ (s.threads 2).pc=.exchangeWant true) ∧
    ∃ n, ∀ ls s', (∀ l ∈ ls, l.2.Ends) → (machine (Fin 3) 1).Strides s ls s' →
      ls.length ≤ n ∧ (Quiet s' ∨ ∃ l s'', l.2.Ends ∧
        (machine (Fin 3) 1).next s' l=some s'' ∧ s'' ≠ s') := by
  obtain ⟨s,hr,⟨hs,hn⟩⟩ := Machine.reachable_of_runFrom (machine (Fin 3) 1)
    (State.initial (Fin 3) 1)
    [(0,.lockShared),(0,.advance),(0,.advance),(0,.advance),(0,.advance),(0,.advance),(0,.advance),
      (0,.advance),(1,.lock),(1,.advance),(1,.advance),(1,.advance),(2,.lockShared),(2,.advance),
      (2,.advance)]
    (fun s => ((s.threads 0).shareds=1 ∧ (s.threads 1).pc=.scan 0 ∧
      (s.threads 2).pc=.exchangeWant true) ∧ ∀ t, (s.threads t).owned=0) rfl (by decide)
  refine ⟨s,hs,drains_unless_nested hr ?_⟩
  intro t ht
  have := hn t
  omega

end Runs

end Allocators.ContentionFree
