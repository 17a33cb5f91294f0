import Allocators.SharedMutex.Sections

/-! When `try_lock_shared` reports what it did. -/

namespace Allocators.SharedMutex

open Lib

/-- Inside `lock`, or back from it. -/
def PC.Writing : PC → Prop
  | .scan _ | .exclusive => True
  | _ => False

theorem PC.Owning.spill_of_not_writing {p : PC} (h : p.Owning) (hw : ¬ p.Writing) : p=.spill := by
  cases p with
  | spill => rfl
  | scan i => exact absurd trivial hw
  | exclusive => exact absurd trivial hw
  | _ => exact h.elim

section States

variable {T : Type}

/-- The lock that the thread's `unlock_shared` releases is a shared lock of its own. -/
def State.OwnsShared (s : State T) (owner : Option T) (t : T) : Prop :=
  match s.index t with
  | .registered i => s.flags[i]?=some .sharedLock ∧ ∀ u, s.index u=.registered i → u=t
  | _ => s.spLock=true ∧ owner=some t ∧ ¬ (s.pc t).Writing

/-- The threads that came back with a shared lock are those that have one: `try_lock_shared`
returns `true` to where the thread is in the section, and `false` to where it is idle. -/
def Truthful (s : State T) (owner : Option T) : Prop :=
  ∀ t, s.InShared t ↔ s.OwnsShared owner t

/-- The mutex is as it was, up to a slot that the thread now has. -/
def State.Leaves (s s' : State T) (t : T) : Prop :=
  s'.spLock=s.spLock ∧ ∀ i, s'.flags[i]?=s.flags[i]? ∨
    s'.index t=.registered i ∧ s.flags[i]?=some .unregistered ∧ s'.flags[i]?=some .registered

/-- `try_lock_shared` leaves the mutex as it is until it returns `true`, and `unlock_shared`
releases no lock of another thread. -/
def Answers (p p' : State T × Option T) : T × Act → Prop
  | (t,.tryLockShared) => p.1.Leaves p'.1 t
  | (t,.advance) => (p.1.pc t).Trying → ¬ p'.1.InShared t → p.1.Leaves p'.1 t
  | (t,.unlockShared) => ∀ u ≠ t, (p.2=some u → p'.2=some u) ∧
      ∀ i, p.1.index u=.registered i → p'.1.flags[i]?=p.1.flags[i]?
  | _ => True

section

variable {s : State T} {owner : Option T} {t : T}

/-- Without a slot, a thread is back from `lock_shared` or `try_lock_shared` with `spLock`. -/
theorem Tracked.truthful_spill (h : Tracked s owner) (hn : ∀ i, s.index t ≠ .registered i) :
    s.InShared t ↔ s.spLock=true ∧ owner=some t ∧ ¬ (s.pc t).Writing := by
  constructor
  · intro ht
    cases ht with
    | inl hp =>
      obtain ⟨i,hi⟩ := h.reading t (by simp [PC.Reading,hp])
      exact absurd hi (hn i)
    | inr hp =>
      have ho := (h.owns t).mp (by simp [PC.Owning,hp])
      refine ⟨?_,ho,by simp [PC.Writing,hp]⟩
      rw [h.spLock,ho]
      rfl
  · rintro ⟨_,ho,hw⟩
    exact .inr (((h.owns t).mpr ho).spill_of_not_writing hw)

theorem Tracked.truthful (h : Tracked s owner) : Truthful s owner := by
  intro t
  cases hi : s.index t with
  | registered i =>
    simp only [State.OwnsShared,hi]
    constructor
    · intro ht
      exact ⟨h.flag ht hi,fun u hu => h.unique u t i hu hi⟩
    · rintro ⟨hf,_⟩
      have hslot := h.slot t i hi
      split_ifs at hslot with hp
      · exact .inl hp
      · rw [hf] at hslot
        cases hslot
  | absent =>
    simp only [State.OwnsShared,hi]
    exact h.truthful_spill (by simp [hi])
  | unregistered =>
    simp only [State.OwnsShared,hi]
    exact h.truthful_spill (by simp [hi])

theorem leaves_of_eq {s' : State T} (hl : s'.spLock=s.spLock) (hf : s'.flags=s.flags) :
    s.Leaves s' t :=
  ⟨hl,fun i => .inl (congrArg (·[i]?) hf)⟩

end

end States

/-- The mutex and who has set `spLock`. -/
def owned (T : Type) [DecidableEq T] (threads : Nat) :
    Machine (State T × Option T) (T × Act) where
  start p := p=(initial T threads,none)
  next p l := (p.1.next l.1 l.2).map fun s' => (s',ownerAfter p.1 s' l.1 p.2)

variable {T : Type} [DecidableEq T]

section Steps

variable {s s' : State T} {owner : Option T} {t : T}

theorem leaves_beginShared (s : State T) (t : T) (tries : Bool) :
    s.Leaves (s.beginShared t tries) t := by
  cases hi : s.index t with
  | absent =>
    simp only [State.beginShared,hi]
    exact leaves_of_eq rfl rfl
  | unregistered =>
    simp only [State.beginShared,hi]
    exact leaves_of_eq rfl rfl
  | registered i =>
    simp only [State.beginShared,hi]
    exact leaves_of_eq rfl rfl

/-- Up to its store, `try_lock_shared` takes a slot at most. -/
theorem leaves_advance (ht : (s.pc t).Trying) (hg : s.pc t ≠ .exchangeSpill true)
    (h : Advances s t s') : s.Leaves s' t := by
  cases h with
  | spins => exact leaves_of_eq rfl rfl
  | @claims tries i hp hf =>
    refine ⟨rfl,?_⟩
    intro k
    by_cases hk : k=i
    · subst hk
      right
      refine ⟨by simp [State.index_setIndex],hf,?_⟩
      simpa using getElem?_set_of_some hf
    · left
      simp [List.getElem?_set_ne (Ne.symm hk)]
  | skips _ _ _ => exact leaves_of_eq rfl rfl
  | overflows _ _ => exact leaves_of_eq rfl rfl
  | refuses _ _ => exact leaves_of_eq rfl rfl
  | passes _ _ => exact leaves_of_eq rfl rfl
  | fails hp _ => exact absurd hp hg
  | slips hp _ => exact absurd hp hg
  | stores hp _ => simp [PC.Trying,hp] at ht
  | spills hp _ => simp [PC.Trying,hp] at ht
  | locks hp _ => simp [PC.Trying,hp] at ht
  | scans hp _ _ => simp [PC.Trying,hp] at ht
  | enters hp _ => simp [PC.Trying,hp] at ht
  | leaves hp _ _ => simp [PC.Trying,hp] at ht

/-- What `unlock_shared` releases is the thread's own. -/
theorem Tracked.unlockShared (h : Tracked s owner) (hp : s.InShared t) {u : T} (hu : u ≠ t) :
    (owner=some u → ownerAfter s (s.unlockShared t) t owner=some u) ∧
      ∀ i, s.index u=.registered i → (s.unlockShared t).flags[i]?=s.flags[i]? := by
  cases hp with
  | inl hp =>
    obtain ⟨i,hi⟩ := h.reading t (by simp [PC.Reading,hp])
    simp only [State.unlockShared,hi]
    constructor
    · intro ho
      exact (h.ownerAfter_same rfl).trans ho
    · intro k hk
      have hki : k ≠ i := by
        rintro rfl
        exact h.not_registered hi hu hk
      simp [List.getElem?_set_ne hki.symm]
  | inr hp =>
    have hi := h.spilling t (by simp [PC.Spilling,hp])
    have ht := (h.owns t).mp (by simp [PC.Owning,hp])
    simp only [State.unlockShared,hi]
    constructor
    · intro ho
      exact absurd (Option.some.inj (ho.symm.trans ht)) hu
    · intro k _
      rfl

theorem Tracked.answers {l : T × Act} (h : Tracked s owner) (hg : s.SparesSpLock l)
    (hn : s.next l.1 l.2=some s') :
    Answers (s,owner) (s',ownerAfter s s' l.1 owner) l := by
  obtain ⟨t,a⟩ := l
  cases a with
  | tryLockShared =>
    simp only [State.next] at hn
    split_ifs at hn
    cases hn
    exact leaves_beginShared s t true
  | advance =>
    intro ht _
    exact leaves_advance ht hg (advances_of_some hn)
  | unlockShared =>
    simp only [State.next] at hn
    split_ifs at hn with hp
    cases hn
    exact fun u hu => h.unlockShared hp hu
  | _ => trivial

/-- The compare-exchange of `try_lock_shared` on a free `spLock` sets it and returns `false`, on
one that is set it returns `true`. -/
theorem Tracked.not_truthful (h : Tracked s owner) (hp : s.pc t=.exchangeSpill true)
    (hn : s.advance t=some s') : ¬ Truthful s' (ownerAfter s s' t owner) := by
  have hi := h.spilling t (by simp [PC.Spilling,hp])
  simp only [State.advance,hp] at hn
  intro htrue
  have ht := htrue t
  split_ifs at hn with hl
  · cases hn
    have ho : owner ≠ some t := fun ho => by
      have hown := (h.owns t).mpr ho
      rw [hp] at hown
      exact hown
    have hsame : ownerAfter s (s.setPC t .spill) t owner=owner := h.ownerAfter_same rfl
    rw [hsame] at ht
    simp [State.InShared,State.OwnsShared,State.pc_setPC,hi,ho] at ht
  · cases hn
    have ho : ownerAfter s ((s.setSpLock true).setPC t .idle) t owner=some t := by
      simp [ownerAfter,State.setPC,State.setSpLock,hl]
    rw [ho] at ht
    simp [State.InShared,State.OwnsShared,State.setPC,State.setSpLock,PC.Writing,hi] at ht

end Steps

section Runs

variable {threads : Nat}

/-- A thread owns what it returned with, `try_lock_shared` leaves the mutex as it is where it does
not return `true`, and `unlock_shared` releases the thread's own lock: as long as no
`try_lock_shared` comes to its compare-exchange on `spLock`, and only so long. -/
theorem truthful_iff_sparesSpLock {h : List ((State T × Option T) × (T × Act))}
    {p : State T × Option T} (r : (owned T threads).Run h p) :
    ((∀ q ∈ Machine.visited h p, Truthful q.1 q.2) ∧
      ∀ e ∈ h, ∀ q, (owned T threads).next e.1 e.2=some q → Answers e.1 q e.2) ↔
      ∀ e ∈ h, e.1.1.SparesSpLock e.2 := by
  have h0 : ∀ q, (owned T threads).start q → Tracked q.1 q.2 := by
    rintro _ rfl
    exact tracked_initial threads
  have hstep : ∀ q l q', Tracked q.1 q.2 → q.1.SparesSpLock l →
      (owned T threads).next q l=some q' → Tracked q'.1 q'.2 := by
    rintro ⟨s,owner⟩ ⟨t,a⟩ q' hq hg hn
    obtain ⟨s',hs',rfl⟩ := Option.map_eq_some_iff.mp hn
    exact hq.step (hq.acts_next hg hs')
  have hbad : ∀ q l q', Tracked q.1 q.2 → ¬ q.1.SparesSpLock l →
      (owned T threads).next q l=some q' → ¬ Truthful q'.1 q'.2 := by
    rintro ⟨s,owner⟩ ⟨t,a⟩ q' hq hg hn
    obtain ⟨s',hs',rfl⟩ := Option.map_eq_some_iff.mp hn
    cases a with
    | advance =>
      have hp : s.pc t=.exchangeSpill true := by_contra hg
      exact hq.not_truthful hp hs'
    | _ => exact absurd trivial hg
  have hiff : (∀ q ∈ Machine.visited h p, Truthful q.1 q.2) ↔ ∀ e ∈ h, e.1.1.SparesSpLock e.2 :=
    r.always_iff h0 hstep (fun _ hq => hq.truthful) hbad
  constructor
  · rintro ⟨hgood,_⟩
    exact hiff.mp hgood
  · intro hg
    refine ⟨hiff.mpr hg,?_⟩
    intro e he q hn
    have hq := r.always h0 hstep hg e.1 (Machine.mem_visited.mpr (.inr ⟨e,he,rfl⟩))
    obtain ⟨s',hs',rfl⟩ := Option.map_eq_some_iff.mp hn
    exact hq.answers (hg e he) hs'

/-- A `try_lock_shared` in a slot, and one that a writer turns away. -/
theorem truthful_iff_sparesSpLock_refused :
    ∃ (h : List ((State Bool × Option Bool) × (Bool × Act))) (p : State Bool × Option Bool),
      (p.2=some true ∧ p.1.pc false=.idle ∧ p.1.index false=.registered 0) ∧
        (∀ q ∈ Machine.visited h p, Truthful q.1 q.2) ∧
        ∀ e ∈ h, ∀ q, (owned Bool 1).next e.1 e.2=some q → Answers e.1 q e.2 := by
  let M := (owned Bool 1).restrict fun p l => p.1.SparesSpLock l
  obtain ⟨p,⟨h,r⟩,hp⟩ := Machine.reachable_of_runFrom M (initial Bool 1,none)
    [(false,.tryLockShared),(false,.advance),(false,.advance),(false,.advance),
      (false,.unlockShared),(true,.lock),(true,.advance),(false,.tryLockShared),(false,.advance)]
    (fun p => p.2=some true ∧ p.1.pc false=.idle ∧ p.1.index false=.registered 0) rfl (by decide)
  obtain ⟨hr,hg⟩ := r.of_restrict
  exact ⟨h,p,hp,(truthful_iff_sparesSpLock hr).mpr hg⟩

/-- Without a slot, `try_lock_shared` takes the free `spLock` and returns `false`. -/
theorem try_lock_shared_keeps_spLock :
    ∃ p, (owned Bool 0).Reachable p ∧ p.1.pc false=.idle ∧ p.2=some false ∧
      ¬ Truthful p.1 p.2 := by
  obtain ⟨p,hr,hp,ho,hl,hi⟩ := Machine.reachable_of_runFrom (owned Bool 0)
    (initial Bool 0,none) [(false,.tryLockShared),(false,.advance),(false,.advance)]
    (fun p => p.1.pc false=.idle ∧ p.2=some false ∧ p.1.spLock=true ∧
      p.1.index false=.unregistered) rfl (by decide)
  refine ⟨p,hr,hp,ho,?_⟩
  intro htrue
  have ht := htrue false
  simp [State.InShared,State.OwnsShared,PC.Writing,hp,ho,hl,hi] at ht

end Runs

end Allocators.SharedMutex
