import Allocators.Lib.Vector
import Allocators.SharedMutex.Mutex
import Mathlib.Data.Fintype.Basic

/-! When readers and writers of a `SharedMutex` keep each other out. -/

namespace Allocators.SharedMutex

open Lib

/-- A writer that has looked at slot `i` and found no reader there. -/
def PC.Past : PC → Nat → Prop
  | .scan j,i => i < j
  | .exclusive,_ => True
  | _,_ => False

instance : (p : PC) → (i : Nat) → Decidable (p.Past i)
  | .scan j,i => inferInstanceAs (Decidable (i < j))
  | .exclusive,_ => inferInstanceAs (Decidable True)
  | .idle,_ | .registerThread _ _,_ | .loadSpLock _,_ | .storeSharedLock,_ | .shared,_
  | .exchangeSpill _,_ | .spill,_ | .exchangeLock,_ | .unregister,_ | .exited,_ =>
    inferInstanceAs (Decidable False)

namespace State

variable {T : Type}

/-- No thread reads while one writes. -/
def Excludes (s : State T) : Prop := ∀ w r, s.pc w=.exclusive → s.pc r ≠ .shared

/-- Some writer has looked at the thread's slot already. -/
def Overtaken (s : State T) (t : T) : Prop :=
  ∃ w i, s.index t=.registered i ∧ (s.pc w).Past i

/-- The step is no store of `SharedLock` into a slot that a writer has looked at already. -/
def StoresUnscanned (s : State T) : T × Act → Prop
  | (t,.advance) => s.pc t=.storeSharedLock → ¬ s.Overtaken t
  | _ => True

instance [Fintype T] (s : State T) (t : T) : Decidable (s.Overtaken t) :=
  match h : s.index t with
  | .registered i => decidable_of_iff (∃ w, (s.pc w).Past i) (by simp [Overtaken,h])
  | .absent | .unregistered => isFalse (by simp [Overtaken,h])

instance [Fintype T] (s : State T) : (l : T × Act) → Decidable (s.StoresUnscanned l)
  | (t,.advance) => inferInstanceAs (Decidable (s.pc t=.storeSharedLock → ¬ s.Overtaken t))
  | (_,.lockShared) | (_,.tryLockShared) | (_,.unlockShared) | (_,.lock) | (_,.unlock)
  | (_,.exit) => inferInstanceAs (Decidable True)

end State

section States

variable {T : Type} {s : State T} {t : T}

/-- Threads and slots: a slot in use has one thread, and a reader's says so. -/
structure Slots (s : State T) : Prop where
  claimed : ∀ t i, s.index t=.registered i → ∃ f, s.flags[i]?=some f ∧ f ≠ .unregistered
  unique : ∀ t u i, s.index t=.registered i → s.index u=.registered i → t=u
  held : ∀ t, s.pc t=.shared → ∃ i, s.index t=.registered i ∧ s.flags[i]?=some .sharedLock

/-- No reader is in a slot that a writer has looked at. -/
def Scanned (s : State T) : Prop := ∀ w i, (s.pc w).Past i → s.flags[i]? ≠ some .sharedLock

theorem slots_initial (threads : Nat) : Slots (initial T threads) :=
  ⟨by simp [initial],by simp [initial],by simp [initial]⟩

theorem scanned_initial (threads : Nat) : Scanned (initial T threads) := by
  intro w i h
  exact h.elim

theorem getElem?_set_of_some {fs : List Flag} {i : Nat} {f g : Flag} (h : fs[i]?=some g) :
    (fs.set i f)[i]?=some f := by
  rw [List.getElem?_set_self',h]
  rfl

/-- The slot of another thread is another slot. -/
theorem Slots.other (h : Slots s) {u : T} {i k : Nat} (ht : s.index t=.registered i)
    (hu : s.index u=.registered k) (hne : u ≠ t) : k ≠ i := by
  rintro rfl
  exact hne (h.unique u t k hu ht)

/-- A writer inside has looked at every slot, a reader is in one. -/
theorem excludes_of_scanned (h : Slots s) (hs : Scanned s) : s.Excludes := by
  intro w r hw hr
  obtain ⟨i,_,hi⟩ := h.held r hr
  apply hs w i _ hi
  rw [hw]
  trivial

/-- A writer looks at one slot after the other. -/
theorem past_scan_succ {f : Flag} {i : Nat} (hp : s.pc t=.scan i) (hf : s.flags[i]?=some f)
    (hne : f ≠ .sharedLock) (k : Nat) (hk : PC.Past (.scan (i+1)) k) :
    (s.pc t).Past k ∨ s.flags[k]? ≠ some .sharedLock := by
  rcases Nat.lt_succ_iff_lt_or_eq.mp hk with hlt | rfl
  · left
    rw [hp]
    exact hlt
  · right
    rw [hf]
    simpa using hne

/-- Behind the last slot there is none left to look at. -/
theorem past_exclusive {i : Nat} (hp : s.pc t=.scan i) (hf : s.flags[i]?=none) (k : Nat) :
    (s.pc t).Past k ∨ s.flags[k]? ≠ some .sharedLock := by
  by_cases hk : k < i
  · left
    rw [hp]
    exact hk
  · right
    have hle := List.getElem?_eq_none_iff.mp hf
    rw [List.getElem?_eq_none (by omega)]
    simp

end States

variable {T : Type} [DecidableEq T]

/-- What a step of a thread can change: `spLock` and where it is, the register of a thread without
a slot, or the flag of one slot. -/
inductive Moves (s : State T) (t : T) : State T → Prop
  | spins : Moves s t s
  | passes {p spLock} : p ≠ .shared →
      (∀ i, p.Past i → (s.pc t).Past i ∨ s.flags[i]? ≠ some .sharedLock) →
      Moves s t ((s.setSpLock spLock).setPC t p)
  | enrolls {r p} : (∀ i, r ≠ .registered i) → p ≠ .shared → (∀ i, ¬ p.Past i) →
      Moves s t ((s.setIndex t r).setPC t p)
  | claims {i p} : s.flags[i]?=some .unregistered → p ≠ .shared → (∀ i, ¬ p.Past i) →
      Moves s t (((s.setFlag i .registered).setIndex t (.registered i)).setPC t p)
  | stores {i} : s.index t=.registered i → s.pc t=.storeSharedLock →
      Moves s t ((s.setFlag i .sharedLock).setPC t .shared)
  | releases {i} : s.index t=.registered i →
      Moves s t ((s.setFlag i .registered).setPC t .idle)
  | leaves {i} : s.index t=.registered i →
      Moves s t (((s.setFlag i .unregistered).setIndex t .absent).setPC t .exited)

section Steps

variable {s s' : State T} {t : T}

theorem moves_beginShared (s : State T) (t : T) (tries : Bool) : Moves s t (s.beginShared t tries) := by
  cases h : s.index t with
  | absent =>
    simp only [State.beginShared,h]
    exact .enrolls (by simp) (by simp) (by simp [PC.Past])
  | unregistered =>
    simp only [State.beginShared,h]
    exact .passes (by simp) (by simp [PC.Past])
  | registered i =>
    simp only [State.beginShared,h]
    exact .passes (by simp) (by simp [PC.Past])

theorem moves_unlockShared (s : State T) (t : T) : Moves s t (s.unlockShared t) := by
  cases h : s.index t with
  | registered i =>
    simp only [State.unlockShared,h]
    exact .releases h
  | absent =>
    simp only [State.unlockShared,h]
    exact .passes (by simp) (by simp [PC.Past])
  | unregistered =>
    simp only [State.unlockShared,h]
    exact .passes (by simp) (by simp [PC.Past])

theorem moves_exit (s : State T) (t : T) : Moves s t (s.exit t) := by
  cases h : s.index t with
  | registered i =>
    simp only [State.exit,h]
    exact .passes (by simp) (by simp [PC.Past])
  | absent =>
    simp only [State.exit,h]
    exact .enrolls (by simp) (by simp) (by simp [PC.Past])
  | unregistered =>
    simp only [State.exit,h]
    exact .enrolls (by simp) (by simp) (by simp [PC.Past])

theorem moves_advance (h : Advances s t s') : Moves s t s' := by
  cases h with
  | spins => exact .spins
  | claims _ hf => exact .claims hf (by simp) (by simp [PC.Past])
  | skips _ _ _ => exact .passes (by simp) (by simp [PC.Past])
  | overflows _ _ => exact .passes (by simp) (by simp [PC.Past])
  | refuses _ _ => exact .passes (by simp) (by simp [PC.Past])
  | passes _ _ => exact .passes (by simp) (by simp [PC.Past])
  | stores hp hi => exact .stores hi hp
  | fails _ _ => exact .passes (by simp) (by simp [PC.Past])
  | slips _ _ => exact .passes (by simp) (by simp [PC.Past])
  | spills _ _ => exact .passes (by simp) (by simp [PC.Past])
  | locks _ _ => exact .passes (by simp) (by simp [PC.Past])
  | scans hp hf hs => exact .passes (by simp) (past_scan_succ hp hf hs)
  | enters hp hf => exact .passes (by simp) fun k _ => past_exclusive hp hf k
  | leaves _ hi _ => exact .leaves hi

theorem moves_next {a : Act} (h : s.next t a=some s') : Moves s t s' := by
  cases a with
  | advance => exact moves_advance (advances_of_some h)
  | lockShared =>
    simp only [State.next] at h
    split_ifs at h
    cases h
    exact moves_beginShared s t false
  | tryLockShared =>
    simp only [State.next] at h
    split_ifs at h
    cases h
    exact moves_beginShared s t true
  | unlockShared =>
    simp only [State.next] at h
    split_ifs at h
    cases h
    exact moves_unlockShared s t
  | lock =>
    simp only [State.next] at h
    split_ifs at h
    cases h
    exact .passes (by simp) (by simp [PC.Past])
  | unlock =>
    simp only [State.next] at h
    split_ifs at h
    cases h
    exact .passes (by simp) (by simp [PC.Past])
  | exit =>
    simp only [State.next] at h
    split_ifs at h
    cases h
    exact moves_exit s t

end Steps

section Keeps

variable {s s' : State T} {t : T}

/-- A thread that did not become a reader is not the one that reads. -/
theorem reads_before {u : T} {p : PC} (hp : p ≠ .shared) (h : (s.setPC t p).pc u=.shared) :
    u ≠ t ∧ s.pc u=.shared := by
  rw [State.pc_setPC] at h
  split_ifs at h with hut
  · exact absurd h hp
  · exact ⟨hut,h⟩

/-- A thread writes the flag of its own slot. -/
theorem Slots.write (h : Slots s) {i : Nat} {f : Flag} {p : PC} (ht : s.index t=.registered i)
    (hf : f ≠ .unregistered) (hp : p=.shared → f=.sharedLock) :
    Slots ((s.setFlag i f).setPC t p) := by
  have hown : (s.flags.set i f)[i]?=some f := by
    obtain ⟨g,hg,_⟩ := h.claimed t i ht
    exact getElem?_set_of_some hg
  refine ⟨?_,h.unique,?_⟩
  · intro u k hu
    by_cases hk : k=i
    · subst hk
      exact ⟨f,hown,hf⟩
    · obtain ⟨g,hg,hne⟩ := h.claimed u k hu
      exact ⟨g,by simpa [List.getElem?_set_ne (Ne.symm hk)] using hg,hne⟩
  · intro u hu
    rw [State.pc_setPC] at hu
    split_ifs at hu with hut
    · subst hut
      refine ⟨i,ht,?_⟩
      rw [← hp hu]
      exact hown
    · obtain ⟨k,hk,hg⟩ := h.held u hu
      have hne := h.other ht hk hut
      exact ⟨k,hk,by simpa [List.getElem?_set_ne hne.symm] using hg⟩

theorem Slots.moves (h : Slots s) (hm : Moves s t s') : Slots s' := by
  cases hm with
  | spins => exact h
  | @passes p b hp _ =>
    exact ⟨h.claimed,h.unique,fun u hu => h.held u (reads_before hp hu).2⟩
  | @enrolls r p hr hp _ =>
    have hold : ∀ u k, (s.setIndex t r).index u=.registered k → s.index u=.registered k := by
      intro u k hu
      rw [State.index_setIndex] at hu
      split_ifs at hu
      · exact absurd hu (hr k)
      · exact hu
    refine ⟨fun u k hu => h.claimed u k (hold u k hu),
      fun u v k hu hv => h.unique u v k (hold u k hu) (hold v k hv),?_⟩
    intro u hu
    obtain ⟨hut,hu⟩ := reads_before hp hu
    obtain ⟨k,hk,hg⟩ := h.held u hu
    exact ⟨k,by simpa [State.index_setIndex,hut] using hk,hg⟩
  | @claims i p hf hp _ =>
    have hfree : ∀ u k, s.index u=.registered k → k ≠ i := by
      rintro u k hu rfl
      obtain ⟨g,hg,hne⟩ := h.claimed u k hu
      exact hne (Option.some.inj (hg.symm.trans hf))
    refine ⟨?_,?_,?_⟩
    · intro u k hu
      simp only [State.index_setPC,State.index_setIndex] at hu
      split_ifs at hu with hut
      · obtain rfl := ThreadRegister.registered.inj hu
        exact ⟨.registered,getElem?_set_of_some hf,by simp⟩
      · obtain ⟨g,hg,hne⟩ := h.claimed u k hu
        exact ⟨g,by simpa [List.getElem?_set_ne (hfree u k hu).symm] using hg,hne⟩
    · intro u v k hu hv
      simp only [State.index_setPC,State.index_setIndex] at hu hv
      split_ifs at hu hv with hut hvt hvt
      · exact hut.trans hvt.symm
      · obtain rfl := ThreadRegister.registered.inj hu
        exact absurd rfl (hfree v _ hv)
      · obtain rfl := ThreadRegister.registered.inj hv
        exact absurd rfl (hfree u _ hu)
      · exact h.unique u v k hu hv
    · intro u hu
      obtain ⟨hut,hu⟩ := reads_before hp hu
      obtain ⟨k,hk,hg⟩ := h.held u hu
      refine ⟨k,by simpa [State.index_setIndex,hut] using hk,?_⟩
      simpa [List.getElem?_set_ne (hfree u k hk).symm] using hg
  | @stores i hi hp => exact h.write hi (by simp) fun _ => rfl
  | @releases i hi => exact h.write hi (by simp) (by simp)
  | @leaves i hi =>
    have hold : ∀ u k, ((s.setFlag i .unregistered).setIndex t .absent).index u=.registered k →
        s.index u=.registered k ∧ k ≠ i := by
      intro u k hu
      rw [State.index_setIndex] at hu
      split_ifs at hu with hut
      exact ⟨hu,h.other hi hu hut⟩
    refine ⟨?_,
      fun u v k hu hv => h.unique u v k (hold u k hu).1 (hold v k hv).1,?_⟩
    · intro u k hu
      obtain ⟨hk,hne⟩ := hold u k hu
      obtain ⟨g,hg,hgne⟩ := h.claimed u k hk
      exact ⟨g,by simpa [List.getElem?_set_ne hne.symm] using hg,hgne⟩
    · intro u hu
      obtain ⟨hut,hu⟩ := reads_before (by simp) hu
      obtain ⟨k,hk,hg⟩ := h.held u hu
      have hne := h.other hi hk hut
      refine ⟨k,by simpa [State.index_setIndex,hut] using hk,?_⟩
      simpa [List.getElem?_set_ne hne.symm] using hg

/-- A step that leaves the thread before its scan and sets no flag to `SharedLock`. -/
theorem Scanned.write (h : Scanned s) {i : Nat} {f : Flag} {p : PC} (hf : f ≠ .sharedLock)
    (hp : ∀ k, ¬ p.Past k) : Scanned ((s.setFlag i f).setPC t p) := by
  intro w k hk hs
  rw [State.pc_setPC] at hk
  split_ifs at hk
  · exact hp k hk
  · rcases Vector.getElem?_set_cases hs with ⟨_,he⟩ | ⟨_,he⟩
    · exact hf he.symm
    · exact h w k hk he

theorem Scanned.moves (h : Scanned s) (hm : Moves s t s')
    (hg : s.pc t=.storeSharedLock → ¬ s.Overtaken t) : Scanned s' := by
  cases hm with
  | spins => exact h
  | @passes p b _ hp =>
    intro w k hk hs
    rw [State.pc_setPC] at hk
    split_ifs at hk with hwt
    · rcases hp k hk with hk | hne
      · exact h t k hk hs
      · exact hne hs
    · exact h w k hk hs
  | @enrolls r p _ _ hp =>
    intro w k hk hs
    rw [State.pc_setPC] at hk
    split_ifs at hk
    · exact hp k hk
    · exact h w k hk hs
  | @claims i p _ _ hp => exact h.write (by simp) hp
  | @stores i hi hpc =>
    intro w k hk hs
    rw [State.pc_setPC] at hk
    split_ifs at hk
    · exact hk
    · rcases Vector.getElem?_set_cases hs with ⟨rfl,_⟩ | ⟨_,he⟩
      · exact hg hpc ⟨w,k,hi,hk⟩
      · exact h w k hk he
  | @releases i hi => exact h.write (by simp) (by simp [PC.Past])
  | @leaves i hi => exact h.write (by simp) (by simp [PC.Past])

end Keeps

section Runs

variable {threads : Nat} {allowed : Act → Prop} [DecidablePred allowed]

theorem next_of_machine {s s' : State T} {l : T × Act}
    (hn : (machine T threads allowed).next s l=some s') : s.next l.1 l.2=some s' := by
  change (if allowed l.2 then s.next l.1 l.2 else none)=some s' at hn
  split_ifs at hn
  exact hn

/-- A thread at its store can do nothing else. -/
theorem advances_of_store {s s' : State T} {t : T} {a : Act} (h : s.next t a=some s')
    (hp : s.pc t=.storeSharedLock) : a=.advance := by
  cases a with
  | advance => rfl
  | lockShared => simp [State.next,hp] at h
  | tryLockShared => simp [State.next,hp] at h
  | unlockShared => simp [State.next,hp] at h
  | lock => simp [State.next,hp] at h
  | unlock => simp [State.next,hp] at h
  | exit => simp [State.next,hp] at h

theorem inv_next {s s' : State T} {l : T × Act} (h : Slots s ∧ Scanned s)
    (hg : s.StoresUnscanned l) (hn : (machine T threads allowed).next s l=some s') :
    Slots s' ∧ Scanned s' := by
  obtain ⟨t,a⟩ := l
  have hn := next_of_machine hn
  have hm := moves_next hn
  refine ⟨h.1.moves hm,h.2.moves hm ?_⟩
  intro hp
  obtain rfl := advances_of_store hn hp
  exact hg hp

/-- In a run where no reader stores `SharedLock` into a slot that a writer has looked at already,
no thread reads while one writes. -/
theorem excludes_of_storesUnscanned {h : List (State T × (T × Act))} {s : State T}
    (r : (machine T threads allowed).Run h s) (hg : ∀ e ∈ h, e.1.StoresUnscanned e.2) :
    ∀ t ∈ Machine.visited h s, t.Excludes := by
  intro t ht
  have hinv : ∀ t ∈ Machine.visited h s, Slots t ∧ Scanned t :=
    r.always (fun s hs => hs ▸ ⟨slots_initial threads,scanned_initial threads⟩)
      (fun _ _ _ hi hg hn => inv_next hi hg hn) hg
  obtain ⟨hs,hc⟩ := hinv t ht
  exact excludes_of_scanned hs hc

/-- A reader in its slot, and a writer that waits for it. -/
theorem excludes_of_storesUnscanned_waiting :
    ∃ (h : List (State Bool × (Bool × Act))) (s : State Bool),
      (s.pc true=.exclusive ∧ s.index false=.registered 0) ∧
        ∀ t ∈ Machine.visited h s, t.Excludes := by
  let M := (machine Bool 1 Act.Locks).restrict fun s l => s.StoresUnscanned l
  obtain ⟨s,⟨h,r⟩,hs⟩ := Machine.reachable_of_runFrom M (initial Bool 1)
    [(false,.lockShared),(false,.advance),(false,.advance),(false,.advance),(true,.lock),
      (true,.advance),(true,.advance),(false,.unlockShared),(true,.advance),(true,.advance)]
    (fun s => s.pc true=.exclusive ∧ s.index false=.registered 0) rfl (by decide)
  obtain ⟨hr,hg⟩ := r.of_restrict
  exact ⟨h,s,hs,excludes_of_storesUnscanned hr hg⟩

/-- A reader that has seen `spLock` free stores after a writer has looked at its slot. -/
theorem late_store_overlaps : ∃ s, (machine Bool 1 Act.Locks).Reachable s ∧ ¬ s.Excludes := by
  obtain ⟨s,hr,hw,hs⟩ := Machine.reachable_of_runFrom (machine Bool 1 Act.Locks) (initial Bool 1)
    [(false,.lockShared),(false,.advance),(false,.advance),(true,.lock),(true,.advance),
      (true,.advance),(true,.advance),(false,.advance)]
    (fun s => s.pc true=.exclusive ∧ s.pc false=.shared) rfl (by decide)
  exact ⟨s,hr,fun h => h true false hw hs⟩

end Runs

end Allocators.SharedMutex
