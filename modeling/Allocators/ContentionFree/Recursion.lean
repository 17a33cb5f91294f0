import Allocators.ContentionFree.Exclusion

/-! A thread that has set `want_x_lock` and takes a shared lock by its slot waits for itself. -/

namespace Allocators.ContentionFree

open Lib

namespace PC

/-- Inside `lock_shared`, with a slot. -/
def BySlot : PC → Prop
  | .addUseCount | .loadDepth | .storeDepth _ | .loadWant _ | .storeBack _ | .awaitWant _
  | .storeAgain _ => True
  | _ => False

end PC

/-- In `lock_shared` by its slot, while it has a lock that `want_x_lock` guards. -/
def Thread.Nesting (x : Thread) : Prop := x.pc.BySlot ∧ 0 < x.owned

section Steps

variable {T : Type} {m m' : Mutex T} {owner : Option T} {t u : T} {x x' : Thread}

/-- The thread goes round and round. -/
theorem Thread.Nesting.advances (h : x.Nesting) (hl : Local m owner t x)
    (hw : m.wantXLock=owner.isSome) (ha : Advances m t x m' x') :
    x'.Nesting ∧ x'.exclusives=x.exclusives ∧ x'.spilled=x.spilled ∧ x'.shareds=x.shareds := by
  obtain ⟨hby,ho⟩ := h
  have hset : m.wantXLock=true := by
    rw [hw,hl.owns.mp (.inr ho)]
    rfl
  have hpl := hl.placed
  cases ha with
  | spins => exact ⟨⟨hby,ho⟩,rfl,rfl,rfl⟩
  | adds _ => exact ⟨⟨trivial,ho⟩,rfl,rfl,rfl⟩
  | reads _ _ _ => exact ⟨⟨trivial,ho⟩,rfl,rfl,rfl⟩
  | nests hp _ hd =>
    simp only [Thread.Placed,hp] at hpl
    have := hpl.2.2 ho
    omega
  | announces _ _ _ => exact ⟨⟨trivial,ho⟩,rfl,rfl,rfl⟩
  | shares _ hf => simp [hset] at hf
  | refused _ _ => exact ⟨⟨trivial,ho⟩,rfl,rfl,rfl⟩
  | retreats _ _ => exact ⟨⟨trivial,ho⟩,rfl,rfl,rfl⟩
  | returns _ hf => simp [hset] at hf
  | gives hq hp =>
    rcases hq with rfl | ⟨i,rfl⟩ <;> simp [PC.BySlot,hp] at hby
  | skips hq hp =>
    rcases hq with rfl | rfl <;> simp [PC.BySlot,hp] at hby
  | _ => simp_all [PC.BySlot]

end Steps

section Runs

variable {T : Type} [DecidableEq T] {owner : Option T} {t u : T} {s s' : State T}
  {contentionFreeCount : Nat}

omit [DecidableEq T] in
/-- Only the thread that has set `want_x_lock` has locks it guards. -/
theorem Tracked.owned_other (h : Tracked s owner) (ht : (s.threads t).Owning) (hu : u ≠ t) :
    (s.threads u).owned=0 := by
  by_contra hne
  have hown := (h.row u).owns.mp (.inr (Nat.pos_of_ne_zero hne))
  exact hu (Option.some.inj (hown.symm.trans ((h.row t).owns.mp ht)))

/-- While `want_x_lock` is set, a step gives no thread its first shared lock by its slot. -/
theorem Tracked.next_shareds (h : Tracked s owner) (hw : s.mutex.wantXLock=true) {w : T} {c : Act}
    (hn : s.next w c=some s') (hz : (s.threads u).shareds=0) : (s'.threads u).shareds=0 := by
  obtain ⟨_,h'⟩ := h.next hn
  obtain ⟨⟨m',x'⟩,ha,rfl⟩ := Option.map_eq_some_iff.mp hn
  by_cases hu : u=w
  · subst hu
    have hless := (h'.row u).slotless
    simp only [Function.update_self]
    rcases act_cases ha with ⟨_,hc,_⟩ | ha
    · obtain ⟨p,rfl,_,_⟩ := call_cases hc
      exact hz
    · by_contra hne
      cases hi : x'.index with
      | none => exact hne (hless (by simpa using hi) ▸ by simp)
      | some i =>
        rcases ha.shareds (h.row u) hi hne with ⟨_,hs⟩ | hf
        · exact hs hz
        · simp [hw] at hf
  · simpa [Function.update_of_ne hu] using hz

/-- The thread waits for itself, and has since `s`; no other thread has got a lock. -/
structure Hung (t : T) (s s' : State T) : Prop where
  nesting : (s'.threads t).Nesting
  exclusives : (s'.threads t).exclusives=(s.threads t).exclusives
  spilled : (s'.threads t).spilled=(s.threads t).spilled
  shareds : (s'.threads t).shareds=(s.threads t).shareds
  others : ∀ u, u ≠ t → (s'.threads u).exclusives=0 ∧ (s'.threads u).spilled=0 ∧
    ((s.threads u).shareds=0 → (s'.threads u).shareds=0)

omit [DecidableEq T] in
theorem Tracked.hung (h : Tracked s owner) (hx : (s.threads t).Nesting) : Hung t s s := by
  refine ⟨hx,rfl,rfl,rfl,?_⟩
  intro u hu
  have hz := h.owned_other (.inr hx.2) hu
  simp only [Thread.owned] at hz
  exact ⟨by omega,by omega,id⟩

/-- No step of any thread changes that. -/
theorem Hung.next {s₀ : State T} (h : Hung t s₀ s) (htr : Tracked s owner) {w : T} {c : Act}
    (hn : s.next w c=some s') : Hung t s₀ s' := by
  have howns : (s.threads t).Owning := .inr h.nesting.2
  have hset : s.mutex.wantXLock=true := by
    rw [htr.want,(htr.row t).owns.mp howns]
    rfl
  have hrow : (s'.threads t).Nesting ∧ (s'.threads t).exclusives=(s.threads t).exclusives ∧
      (s'.threads t).spilled=(s.threads t).spilled ∧
      (s'.threads t).shareds=(s.threads t).shareds := by
    obtain ⟨⟨m',x'⟩,ha,rfl⟩ := Option.map_eq_some_iff.mp hn
    by_cases hw : t=w
    · subst hw
      simp only [Function.update_self]
      rcases act_cases ha with ⟨hp,_,_⟩ | ha
      · have hby := h.nesting.1
        rw [hp] at hby
        exact hby.elim
      · exact h.nesting.advances (htr.row t) htr.want ha
    · simpa [Function.update_of_ne hw] using h.nesting
  obtain ⟨hnest,he,hs,hr⟩ := hrow
  obtain ⟨owner',htr'⟩ := htr.next hn
  refine ⟨hnest,he.trans h.exclusives,hs.trans h.spilled,hr.trans h.shareds,?_⟩
  intro u hu
  have hz := htr'.owned_other (.inr hnest.2) hu
  simp only [Thread.owned] at hz
  exact ⟨by omega,by omega,fun h0 => htr.next_shareds hset hn ((h.others u hu).2.2 h0)⟩

/-- A thread that has set `want_x_lock` and calls `lock_shared` with a slot never returns, and no
other thread gets a lock again that it could not nest. -/
theorem hung_forever (h : (machine T contentionFreeCount).Reachable s)
    (hx : (s.threads t).Nesting) {ls : List (T × Act)}
    (hr : (machine T contentionFreeCount).runFrom s ls=some s') : Hung t s s' := by
  obtain ⟨owner,htr⟩ := tracked_of_reachable h
  have hs : ∀ s₁ l s₂, ((∃ owner, Tracked s₁ owner) ∧ Hung t s s₁) →
      (machine T contentionFreeCount).next s₁ l=some s₂ →
      (∃ owner, Tracked s₂ owner) ∧ Hung t s s₂ := by
    rintro s₁ l s₂ ⟨⟨owner₁,hi⟩,hh⟩ hn
    exact ⟨hi.next hn,hh.next hi hn⟩
  exact (Machine.runFrom_invariant hs hr ⟨⟨owner,htr⟩,htr.hung hx⟩).2

/-- The writer of a mutex with one slot, which gets the slot when it calls `lock_shared`. -/
theorem hung_forever_writer : ∃ s : State Bool, (machine Bool 1).Reachable s ∧
    (s.threads true).exclusives=1 ∧ ∀ ls s', (machine Bool 1).runFrom s ls=some s' →
      Hung true s s' := by
  obtain ⟨s,hr,hx,he⟩ := Machine.reachable_of_runFrom (machine Bool 1) (State.initial Bool 1)
    [(true,.lock),(true,.advance),(true,.advance),(true,.advance),(true,.advance),(true,.advance),
      (true,.advance),(true,.lockShared),(true,.advance),(true,.advance),(true,.advance),
      (true,.advance)]
    (fun s => (s.threads true).pc=.loadDepth ∧ (s.threads true).exclusives=1) rfl (by decide)
  refine ⟨s,hr,he,fun ls s' => hung_forever hr ?_⟩
  simp only [Thread.Nesting,PC.BySlot,Thread.owned,hx,he,true_and]
  omega

end Runs

end Allocators.ContentionFree
