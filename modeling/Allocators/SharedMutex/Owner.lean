import Allocators.SharedMutex.Exclusion

/-! Which thread has the spill lock, and what a thread's place in the code says of its slot. -/

namespace Allocators.SharedMutex

open Lib

namespace PC

/-- The thread has set `spLock` and not reset it. -/
def Owning : PC → Prop
  | .scan _ | .exclusive | .spill => True
  | _ => False

/-- The thread has no slot, or none yet. -/
def Spilling : PC → Prop
  | .registerThread _ _ | .exchangeSpill _ | .spill => True
  | _ => False

/-- The thread goes by its slot. -/
def Reading : PC → Prop
  | .loadSpLock _ | .storeSharedLock | .shared | .unregister => True
  | _ => False

/-- Inside `try_lock_shared`, as far as it does not store `SharedLock`. -/
def Trying : PC → Prop
  | .registerThread tries _ | .loadSpLock tries | .exchangeSpill tries => tries=true
  | _ => False

theorem Owning.ne_shared {p : PC} (h : p.Owning) : p ≠ .shared := by
  rintro rfl
  exact h

theorem Owning.not_reading {p : PC} (h : p.Owning) : ¬ p.Reading := by
  cases p <;> simp_all [Owning,Reading]

end PC

/-- The states the locking code keeps to, with the thread that has set `spLock`. -/
structure Tracked {T : Type} (s : State T) (owner : Option T) : Prop where
  owns : ∀ t, (s.pc t).Owning ↔ owner=some t
  spLock : s.spLock=owner.isSome
  spilling : ∀ t, (s.pc t).Spilling → s.index t=.unregistered
  reading : ∀ t, (s.pc t).Reading → ∃ i, s.index t=.registered i
  slot : ∀ t i, s.index t=.registered i →
    s.flags[i]?=some (if s.pc t=.shared then .sharedLock else .registered)
  unique : ∀ t u i, s.index t=.registered i → s.index u=.registered i → t=u

/-- Who has set `spLock` after a step of `t`. -/
def ownerAfter {T : Type} (s s' : State T) (t : T) (owner : Option T) : Option T :=
  if s'.spLock then if s.spLock then owner else some t else none

variable {T : Type} [DecidableEq T]

/-- What a step of a thread does to `spLock`, its register and its slot, according to its place
before and after. -/
inductive Acts (s : State T) (t : T) : State T → Prop
  | stays : Acts s t s
  | goes {p} : s.pc t ≠ .shared → p ≠ .shared → (p.Owning ↔ (s.pc t).Owning) →
      (p.Spilling → s.index t=.unregistered) → (p.Reading → ∃ i, s.index t=.registered i) →
      Acts s t (s.setPC t p)
  | enrolls {r p} : (∀ i, s.index t ≠ .registered i) → (∀ i, r ≠ .registered i) →
      ¬ (s.pc t).Owning → ¬ p.Owning → (p.Spilling → r=.unregistered) → ¬ p.Reading →
      Acts s t ((s.setIndex t r).setPC t p)
  | claims {i p} : s.flags[i]?=some .unregistered → s.index t=.unregistered →
      ¬ (s.pc t).Owning → ¬ p.Owning → ¬ p.Spilling → p ≠ .shared →
      Acts s t (((s.setFlag i .registered).setIndex t (.registered i)).setPC t p)
  | stores {i} : s.index t=.registered i → ¬ (s.pc t).Owning →
      Acts s t ((s.setFlag i .sharedLock).setPC t .shared)
  | releases {i} : s.index t=.registered i → ¬ (s.pc t).Owning →
      Acts s t ((s.setFlag i .registered).setPC t .idle)
  | leaves {i} : s.index t=.registered i → ¬ (s.pc t).Owning →
      Acts s t (((s.setFlag i .unregistered).setIndex t .absent).setPC t .exited)
  | takes {p} : s.spLock=false → s.pc t ≠ .shared → p.Owning →
      (p.Spilling → s.index t=.unregistered) → Acts s t ((s.setSpLock true).setPC t p)
  | frees : (s.pc t).Owning → Acts s t ((s.setSpLock false).setPC t .idle)

/-- The step is no compare-exchange of `try_lock_shared` on `spLock`. -/
def State.SparesSpLock (s : State T) : T × Act → Prop
  | (t,.advance) => s.pc t ≠ .exchangeSpill true
  | _ => True

instance (s : State T) : (l : T × Act) → Decidable (s.SparesSpLock l)
  | (t,.advance) => inferInstanceAs (Decidable (s.pc t ≠ .exchangeSpill true))
  | (_,.lockShared) | (_,.tryLockShared) | (_,.unlockShared) | (_,.lock) | (_,.unlock)
  | (_,.exit) => inferInstanceAs (Decidable True)

namespace Tracked

variable {s s' : State T} {owner : Option T} {t : T}

theorem acts_beginShared (hp : s.pc t=.idle) (tries : Bool) : Acts s t (s.beginShared t tries) := by
  cases hi : s.index t with
  | absent =>
    simp only [State.beginShared,hi]
    apply Acts.enrolls <;> simp [PC.Owning,PC.Reading,hp,hi]
  | unregistered =>
    simp only [State.beginShared,hi]
    apply Acts.goes <;> simp [PC.Owning,PC.Reading,hp,hi]
  | registered i =>
    simp only [State.beginShared,hi]
    apply Acts.goes <;> simp [PC.Owning,PC.Spilling,hp,hi]

theorem acts_unlockShared (h : Tracked s owner) (hp : s.pc t=.shared ∨ s.pc t=.spill) :
    Acts s t (s.unlockShared t) := by
  cases hp with
  | inl hp =>
    obtain ⟨i,hi⟩ := h.reading t (by simp [PC.Reading,hp])
    simp only [State.unlockShared,hi]
    exact .releases hi (by simp [PC.Owning,hp])
  | inr hp =>
    have hi := h.spilling t (by simp [PC.Spilling,hp])
    simp only [State.unlockShared,hi]
    exact .frees (by simp [PC.Owning,hp])

theorem acts_exit (hp : s.pc t=.idle) : Acts s t (s.exit t) := by
  cases hi : s.index t with
  | registered i =>
    simp only [State.exit,hi]
    apply Acts.goes <;> simp [PC.Owning,PC.Spilling,hp,hi]
  | absent =>
    simp only [State.exit,hi]
    apply Acts.enrolls <;> simp [PC.Owning,PC.Spilling,PC.Reading,hp,hi]
  | unregistered =>
    simp only [State.exit,hi]
    apply Acts.enrolls <;> simp [PC.Owning,PC.Spilling,PC.Reading,hp,hi]

theorem acts_advance (h : Tracked s owner) (hg : s.pc t ≠ .exchangeSpill true)
    (ha : Advances s t s') : Acts s t s' := by
  cases ha with
  | spins => exact .stays
  | claims hp hf =>
    have hi := h.spilling t (by simp [PC.Spilling,hp])
    apply Acts.claims hf hi <;> simp [PC.Owning,PC.Spilling,hp]
  | skips hp _ _ =>
    have hi := h.spilling t (by simp [PC.Spilling,hp])
    apply Acts.goes <;> simp [PC.Owning,PC.Reading,hp,hi]
  | overflows hp _ =>
    have hi := h.spilling t (by simp [PC.Spilling,hp])
    apply Acts.goes <;> simp [PC.Owning,PC.Reading,hp,hi]
  | refuses hp _ => apply Acts.goes <;> simp [PC.Owning,PC.Spilling,PC.Reading,hp]
  | passes hp _ =>
    obtain ⟨i,hi⟩ := h.reading t (by simp [PC.Reading,hp])
    apply Acts.goes <;> simp [PC.Owning,PC.Spilling,hp,hi]
  | stores hp hi => exact .stores hi (by simp [PC.Owning,hp])
  | fails hp _ => exact absurd hp hg
  | slips hp _ => exact absurd hp hg
  | spills hp hl =>
    have hi := h.spilling t (by simp [PC.Spilling,hp])
    apply Acts.takes <;> simp [PC.Owning,hp,hi,hl]
  | locks hp hl => apply Acts.takes <;> simp [PC.Owning,PC.Spilling,hp,hl]
  | scans hp _ _ => apply Acts.goes <;> simp [PC.Owning,PC.Spilling,PC.Reading,hp]
  | enters hp _ => apply Acts.goes <;> simp [PC.Owning,PC.Spilling,PC.Reading,hp]
  | leaves hp hi _ => exact .leaves hi (by simp [PC.Owning,hp])

theorem acts_next {a : Act} (h : Tracked s owner) (hg : s.SparesSpLock (t,a))
    (hn : s.next t a=some s') : Acts s t s' := by
  cases a with
  | advance => exact h.acts_advance hg (advances_of_some hn)
  | lockShared =>
    simp only [State.next] at hn
    split_ifs at hn with hp
    cases hn
    exact acts_beginShared hp false
  | tryLockShared =>
    simp only [State.next] at hn
    split_ifs at hn with hp
    cases hn
    exact acts_beginShared hp true
  | unlockShared =>
    simp only [State.next] at hn
    split_ifs at hn with hp
    cases hn
    exact h.acts_unlockShared hp
  | lock =>
    simp only [State.next] at hn
    split_ifs at hn with hp
    cases hn
    apply Acts.goes <;> simp [PC.Owning,PC.Spilling,PC.Reading,hp]
  | unlock =>
    simp only [State.next] at hn
    split_ifs at hn with hp
    cases hn
    exact .frees (by simp [PC.Owning,hp])
  | exit =>
    simp only [State.next] at hn
    split_ifs at hn with hp
    cases hn
    exact acts_exit hp

omit [DecidableEq T] in
/-- Only what concerns the thread that steps has to be looked at. -/
theorem update {owner' : Option T} (h : Tracked s owner) (hpc : ∀ u ≠ t, s'.pc u=s.pc u)
    (hindex : ∀ u ≠ t, s'.index u=s.index u)
    (hflags : ∀ u ≠ t, ∀ i, s.index u=.registered i → s'.flags[i]?=s.flags[i]?)
    (howner : ∀ u ≠ t, owner'=some u ↔ owner=some u)
    (howns : (s'.pc t).Owning ↔ owner'=some t) (hlock : s'.spLock=owner'.isSome)
    (hspill : (s'.pc t).Spilling → s'.index t=.unregistered)
    (hread : (s'.pc t).Reading → ∃ i, s'.index t=.registered i)
    (hslot : ∀ i, s'.index t=.registered i →
      s'.flags[i]?=some (if s'.pc t=.shared then .sharedLock else .registered) ∧
        ∀ u ≠ t, s.index u ≠ .registered i) : Tracked s' owner' := by
  refine ⟨?_,hlock,?_,?_,?_,?_⟩
  · intro u
    by_cases hut : u=t
    · rw [hut]
      exact howns
    · rw [hpc u hut,howner u hut]
      exact h.owns u
  · intro u hu
    by_cases hut : u=t
    · rw [hut] at hu ⊢
      exact hspill hu
    · rw [hpc u hut] at hu
      rw [hindex u hut]
      exact h.spilling u hu
  · intro u hu
    by_cases hut : u=t
    · rw [hut] at hu ⊢
      exact hread hu
    · rw [hpc u hut] at hu
      rw [hindex u hut]
      exact h.reading u hu
  · intro u i hi
    by_cases hut : u=t
    · rw [hut] at hi ⊢
      exact (hslot i hi).1
    · rw [hindex u hut] at hi
      rw [hpc u hut,hflags u hut i hi]
      exact h.slot u i hi
  · intro u v i hu hv
    by_cases hut : u=t
    · by_cases hvt : v=t
      · exact hut.trans hvt.symm
      · rw [hut] at hu
        rw [hindex v hvt] at hv
        exact absurd hv ((hslot i hu).2 v hvt)
    · rw [hindex u hut] at hu
      by_cases hvt : v=t
      · rw [hvt] at hv
        exact absurd hu ((hslot i hv).2 u hut)
      · rw [hindex v hvt] at hv
        exact h.unique u v i hu hv

omit [DecidableEq T] in
/-- A step that leaves `spLock` as it is leaves it to its owner. -/
theorem ownerAfter_same (h : Tracked s owner) (he : s'.spLock=s.spLock) :
    ownerAfter s s' t owner=owner := by
  have hl := h.spLock
  unfold ownerAfter
  rw [he]
  cases owner with
  | none =>
    rw [Option.isSome_none] at hl
    simp [hl]
  | some u =>
    rw [Option.isSome_some] at hl
    simp [hl]

omit [DecidableEq T] in
theorem same (h : Tracked s owner) (h' : Tracked s' owner) (he : s'.spLock=s.spLock) :
    Tracked s' (ownerAfter s s' t owner) := by
  rw [h.ownerAfter_same he]
  exact h'

omit [DecidableEq T] in
/-- The slot of one thread is not that of another. -/
theorem not_registered (h : Tracked s owner) {u : T} {i : Nat} (hi : s.index t=.registered i)
    (hu : u ≠ t) : s.index u ≠ .registered i :=
  fun hk => hu (h.unique u t i hk hi)

/-- `spLock` and the thread change, no flag does. -/
theorem turn {owner' : Option T} {l : Bool} {r : ThreadRegister} {p : PC} (h : Tracked s owner)
    (howner : ∀ u ≠ t, owner'=some u ↔ owner=some u) (howns : p.Owning ↔ owner'=some t)
    (hlock : l=owner'.isSome) (hspill : p.Spilling → r=.unregistered)
    (hread : p.Reading → ∃ i, r=.registered i)
    (hslot : ∀ i, r=.registered i → s.index t=.registered i ∧ s.pc t ≠ .shared ∧ p ≠ .shared) :
    Tracked (((s.setSpLock l).setIndex t r).setPC t p) owner' := by
  apply h.update (t := t)
  · intro u hut
    simp [State.pc_setPC,hut]
  · intro u hut
    simp [State.index_setIndex,hut]
  · intro u _ i _
    rfl
  · exact howner
  · simpa [State.pc_setPC] using howns
  · exact hlock
  · simpa [State.pc_setPC,State.index_setIndex] using hspill
  · simpa [State.pc_setPC,State.index_setIndex] using hread
  · intro i hi
    obtain ⟨hold,hpc,hp⟩ := hslot i (by simpa [State.index_setIndex] using hi)
    have hflag := h.slot t i hold
    rw [if_neg hpc] at hflag
    exact ⟨by simpa [State.pc_setPC,hp] using hflag,fun u hut => h.not_registered hold hut⟩

/-- A thread that does not own `spLock` writes the flag of a slot that no other thread has. -/
theorem write {i : Nat} {f g : Flag} {r : ThreadRegister} {p : PC} (h : Tracked s owner)
    (hg : s.flags[i]?=some g) (hfree : ∀ u ≠ t, s.index u ≠ .registered i)
    (hn : ¬ (s.pc t).Owning) (hp : ¬ p.Owning) (hspill : ¬ p.Spilling)
    (hread : p.Reading → ∃ k, r=.registered k)
    (hr : ∀ k, r=.registered k → i=k ∧ f=if p=.shared then .sharedLock else .registered) :
    Tracked (((s.setFlag i f).setIndex t r).setPC t p) owner := by
  have hnone : owner ≠ some t := fun ho => hn ((h.owns t).mpr ho)
  apply h.update (t := t)
  · intro u hut
    simp [State.pc_setPC,hut]
  · intro u hut
    simp [State.index_setIndex,hut]
  · intro u hut k hk
    have hne : k ≠ i := by
      rintro rfl
      exact hfree u hut hk
    simp [List.getElem?_set_ne hne.symm]
  · intro u _
    exact Iff.rfl
  · simp [State.pc_setPC,hp,hnone]
  · exact h.spLock
  · simp [State.pc_setPC,hspill]
  · simpa [State.pc_setPC,State.index_setIndex] using hread
  · intro k hk
    obtain ⟨rfl,hf⟩ := hr k (by simpa [State.index_setIndex] using hk)
    refine ⟨?_,hfree⟩
    rw [State.flags_setPC,State.flags_setIndex,State.flags_setFlag,getElem?_set_of_some hg]
    simp [State.pc_setPC,hf]

/-- A thread writes the flag of its own slot, which it keeps. -/
theorem writeOwn {i : Nat} {f : Flag} {p : PC} (h : Tracked s owner)
    (hi : s.index t=.registered i) (hn : ¬ (s.pc t).Owning) (hp : ¬ p.Owning)
    (hspill : ¬ p.Spilling) (hf : f=if p=.shared then .sharedLock else .registered) :
    Tracked ((s.setFlag i f).setPC t p) owner := by
  have hself : (s.setFlag i f).setIndex t (s.index t)=s.setFlag i f :=
    State.setIndex_self (s.setFlag i f) t
  rw [← hself]
  apply h.write (h.slot t i hi) (fun u hut => h.not_registered hi hut) hn hp hspill
  · intro _
    exact ⟨i,hi⟩
  · intro k hk
    exact ⟨ThreadRegister.registered.inj (hi.symm.trans hk),hf⟩

theorem step (h : Tracked s owner) (ha : Acts s t s') : Tracked s' (ownerAfter s s' t owner) := by
  cases ha with
  | stays => exact h.same h rfl
  | @goes p hold hp ho hs hr =>
    refine h.same ?_ rfl
    have hself : s.setPC t p=((s.setSpLock s.spLock).setIndex t (s.index t)).setPC t p := by simp
    rw [hself]
    refine h.turn ?_ (ho.trans (h.owns t)) h.spLock hs hr ?_
    · intro u _
      exact Iff.rfl
    · intro i hi
      exact ⟨hi,hold,hp⟩
  | @enrolls r p hold hr hn hp hs hread =>
    have hnone : owner ≠ some t := fun ho => hn ((h.owns t).mpr ho)
    refine h.same ?_ rfl
    have hself : (s.setIndex t r).setPC t p=((s.setSpLock s.spLock).setIndex t r).setPC t p := rfl
    rw [hself]
    refine h.turn ?_ (by simp [hp,hnone]) h.spLock hs (fun hp => absurd hp hread) ?_
    · intro u _
      exact Iff.rfl
    · intro i hi
      exact absurd hi (hr i)
  | @claims i p hf hi hn hp hs hne =>
    have hfree : ∀ u, s.index u ≠ .registered i := by
      intro u hu
      have hslot := h.slot u i hu
      rw [hf] at hslot
      split_ifs at hslot <;> simp at hslot
    refine h.same ?_ rfl
    apply h.write hf (fun u _ => hfree u) hn hp hs
    · intro _
      exact ⟨i,rfl⟩
    · intro k hk
      exact ⟨ThreadRegister.registered.inj hk,by rw [if_neg hne]⟩
  | @stores i hi hn =>
    exact h.same (h.writeOwn hi hn (by simp [PC.Owning]) (by simp [PC.Spilling]) rfl) rfl
  | @releases i hi hn =>
    exact h.same (h.writeOwn hi hn (by simp [PC.Owning]) (by simp [PC.Spilling]) (by simp)) rfl
  | @leaves i hi hn =>
    refine h.same ?_ rfl
    apply h.write (h.slot t i hi) (fun u hut => h.not_registered hi hut) hn
    · simp [PC.Owning]
    · simp [PC.Spilling]
    · simp [PC.Reading]
    · simp
  | @takes p hl hold hp hs =>
    have hfree : owner=none := by
      have := h.spLock
      rw [hl] at this
      exact Option.not_isSome_iff_eq_none.mp (by simp [← this])
    have hafter : ownerAfter s ((s.setSpLock true).setPC t p) t owner=some t := by
      simp [ownerAfter,State.setPC,State.setSpLock,hl]
    have hself : (s.setSpLock true).setPC t p=
        ((s.setSpLock true).setIndex t (s.index t)).setPC t p :=
      congrArg (·.setPC t p) (State.setIndex_self (s.setSpLock true) t).symm
    rw [hafter,hself]
    refine h.turn ?_ (by simp [hp]) rfl hs (fun hr => absurd hr hp.not_reading) ?_
    · intro u hut
      simp [hfree,Ne.symm hut]
    · intro i hi
      exact ⟨hi,hold,hp.ne_shared⟩
  | frees hp =>
    have hafter : ownerAfter s ((s.setSpLock false).setPC t .idle) t owner=none := by
      simp [ownerAfter,State.setPC,State.setSpLock]
    have hmine := (h.owns t).mp hp
    have hself : (s.setSpLock false).setPC t .idle=
        ((s.setSpLock false).setIndex t (s.index t)).setPC t .idle :=
      congrArg (·.setPC t .idle) (State.setIndex_self (s.setSpLock false) t).symm
    rw [hafter,hself]
    refine h.turn ?_ (by simp [PC.Owning]) rfl (by simp [PC.Spilling]) (by simp [PC.Reading]) ?_
    · intro u hut
      simp [hmine,Ne.symm hut]
    · intro i hi
      exact ⟨hi,hp.ne_shared,by simp⟩

end Tracked

end Allocators.SharedMutex
