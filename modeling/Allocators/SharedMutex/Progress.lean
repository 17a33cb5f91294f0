import Allocators.SharedMutex.Sections
import Mathlib.Algebra.Order.BigOperators.Group.Finset
import Mathlib.Data.Fintype.BigOperators

/-! No deadlock: what the threads inside a `SharedMutex` have begun they can bring to an end. -/

namespace Allocators.SharedMutex

open Lib

/-- The steps that begin no call. -/
def Act.Ends : Act → Prop
  | .advance | .unlock | .unlockShared => True
  | _ => False

/-- How many steps a thread is from its last unlock, at most, with `n` slots. -/
def PC.distance (n : Nat) : PC → Nat
  | .idle | .exited => 0
  | .shared | .spill | .exclusive | .unregister => 1
  | .storeSharedLock | .exchangeSpill _ => 2
  | .loadSpLock _ => 3
  | .registerThread _ i => 4+(n-i)
  | .scan i => 2+(n-i)
  | .exchangeLock => 3+n

section States

variable {T : Type} {s s' : State T} {owner : Option T} {t : T}

/-- A slot says `SharedLock` for a reader only. -/
def Backed (s : State T) : Prop :=
  ∀ i, s.flags[i]?=some .sharedLock → ∃ t, s.pc t=.shared ∧ s.index t=.registered i

theorem backed_initial (threads : Nat) : Backed (initial T threads) := by
  intro i hi
  simp [initial,List.getElem?_replicate] at hi

/-- The threads of two slots are two threads. -/
theorem ne_of_slot {u : T} {i k : Nat} (ht : s.index t=.registered i) (hu : s.index u=.registered k)
    (hne : k ≠ i) : u ≠ t := by
  rintro rfl
  exact hne (ThreadRegister.registered.inj (hu.symm.trans ht))

end States

section Steps

variable {T : Type} [DecidableEq T] {s s' : State T} {owner : Option T} {t : T}

omit [DecidableEq T] in
/-- A step of a thread that is not a reader, and becomes none. -/
theorem Backed.keep (h : Backed s) (hp : s.pc t ≠ .shared)
    (hf : ∀ i : Nat, s'.flags[i]?=some Flag.sharedLock → s.flags[i]?=some Flag.sharedLock)
    (ho : ∀ u, u ≠ t → s'.pc u=s.pc u ∧ s'.index u=s.index u) : Backed s' := by
  intro i hi
  obtain ⟨u,hu,hui⟩ := h i (hf i hi)
  have hut : u ≠ t := by
    rintro rfl
    exact hp hu
  obtain ⟨hpc,hidx⟩ := ho u hut
  exact ⟨u,hpc.trans hu,hidx.trans hui⟩

theorem Backed.step (h : Backed s) (htr : Tracked s owner) (ha : Acts s t s') : Backed s' := by
  cases ha with
  | stays => exact h
  | goes hold _ _ _ _ =>
    refine Backed.keep h hold (fun _ hi => hi) ?_
    intro u hu
    simp [State.pc_setPC,hu]
  | enrolls hr _ _ _ _ _ =>
    refine Backed.keep (t := t) h ?_ (fun _ hi => hi) ?_
    · intro hp
      obtain ⟨i,hi⟩ := htr.reading t (by simp [PC.Reading,hp])
      exact hr i hi
    · intro u hu
      simp [State.pc_setPC,State.index_setIndex,hu]
  | @claims i p hf hi _ _ _ _ =>
    refine Backed.keep (t := t) h ?_ ?_ ?_
    · intro hp
      obtain ⟨k,hk⟩ := htr.reading t (by simp [PC.Reading,hp])
      rw [hi] at hk
      cases hk
    · intro k hk
      rcases Vector.getElem?_set_cases hk with ⟨_,he⟩ | ⟨_,he⟩
      · cases he
      · exact he
    · intro u hu
      simp [State.pc_setPC,State.index_setIndex,hu]
  | @stores i hi _ =>
    intro k hk
    rcases Vector.getElem?_set_cases hk with ⟨rfl,_⟩ | ⟨hne,he⟩
    · exact ⟨t,by simp [State.pc_setPC],hi⟩
    · obtain ⟨u,hu,hui⟩ := h k he
      have hut := ne_of_slot hi hui hne
      exact ⟨u,by simpa [State.pc_setPC,hut] using hu,hui⟩
  | @releases i hi _ =>
    intro k hk
    rcases Vector.getElem?_set_cases hk with ⟨_,he⟩ | ⟨hne,he⟩
    · cases he
    · obtain ⟨u,hu,hui⟩ := h k he
      have hut := ne_of_slot hi hui hne
      exact ⟨u,by simpa [State.pc_setPC,hut] using hu,hui⟩
  | @leaves i hi _ =>
    intro k hk
    rcases Vector.getElem?_set_cases hk with ⟨_,he⟩ | ⟨hne,he⟩
    · cases he
    · obtain ⟨u,hu,hui⟩ := h k he
      have hut := ne_of_slot hi hui hne
      exact ⟨u,by simpa [State.pc_setPC,hut] using hu,by simpa [State.index_setIndex,hut] using hui⟩
  | takes _ hold _ _ =>
    refine Backed.keep h hold (fun _ hi => hi) ?_
    intro u hu
    simp [State.pc_setPC,hu]
  | frees hown =>
    refine Backed.keep h hown.ne_shared (fun _ hi => hi) ?_
    intro u hu
    simp [State.pc_setPC,hu]

theorem length_next {a : Act} (hn : s.next t a=some s') : s'.flags.length=s.flags.length := by
  cases moves_next hn <;> simp

/-- A step that changes the state brings the thread nearer to its last unlock. -/
theorem distance_advances (ha : Advances s t s') :
    s'=s ∨ (s'.pc t).distance s.flags.length < (s.pc t).distance s.flags.length := by
  cases ha with
  | spins => exact .inl rfl
  | skips hp hf _ =>
    have hlt := (List.getElem?_eq_some_iff.mp hf).1
    right
    simp only [State.pc_setPC,if_pos,hp,PC.distance]
    omega
  | scans hp hf _ =>
    have hlt := (List.getElem?_eq_some_iff.mp hf).1
    right
    simp only [State.pc_setPC,if_pos,hp,PC.distance]
    omega
  | claims hp | overflows hp | refuses hp | passes hp | stores hp | fails hp | slips hp | spills hp
  | locks hp | enters hp | leaves hp =>
    right
    simp only [State.pc_setPC,if_pos,hp,PC.distance]
    omega

theorem distance_unlockShared (hp : s.pc t=.shared ∨ s.pc t=.spill) :
    ((s.unlockShared t).pc t).distance s.flags.length < (s.pc t).distance s.flags.length := by
  have hpc : (s.unlockShared t).pc t=.idle := by
    rw [State.unlockShared]
    split <;> simp [State.pc_setPC]
  rw [hpc]
  rcases hp with hp | hp <;> simp [hp,PC.distance]

theorem distance_next {a : Act} (ha : a.Ends) (hn : s.next t a=some s') :
    s'=s ∨ (s'.pc t).distance s.flags.length < (s.pc t).distance s.flags.length := by
  cases a with
  | advance => exact distance_advances (advances_of_some hn)
  | unlock =>
    simp only [State.next] at hn
    split_ifs at hn with hp
    obtain rfl := Option.some.inj hn
    exact .inr (by simp [State.pc_setPC,hp,PC.distance])
  | unlockShared =>
    simp only [State.next] at hn
    split_ifs at hn with hp
    obtain rfl := Option.some.inj hn
    exact .inr (distance_unlockShared hp)
  | lockShared | tryLockShared | lock | exit => cases ha

/-- Some thread is nearer to its last unlock after a step of its own. -/
def Lowers (s : State T) : Prop :=
  ∃ t a s', a.Ends ∧ s.next t a=some s' ∧
    (s'.pc t).distance s.flags.length < (s.pc t).distance s.flags.length

theorem lowers_of_next {a : Act} (hn : s.next t a=some s') (ha : a.Ends)
    (hlt : (s'.pc t).distance s.flags.length < (s.pc t).distance s.flags.length) : Lowers s :=
  ⟨t,a,s',ha,hn,hlt⟩

/-- A reader unlocks. -/
theorem lowers_reader (hp : s.pc t=.shared ∨ s.pc t=.spill) : Lowers s := by
  have hn : s.next t .unlockShared=some (s.unlockShared t) := by simp [State.next,hp]
  exact lowers_of_next hn trivial (distance_unlockShared hp)

/-- The thread that has set `spLock` unlocks, or looks at the next slot, or waits for a reader. -/
theorem lowers_owner (htr : Tracked s (some t)) (hb : Backed s) : Lowers s := by
  have hown := (htr.owns t).mpr rfl
  cases hp : s.pc t with
  | spill => exact lowers_reader (.inr hp)
  | exclusive =>
    have hn : s.next t .unlock=some ((s.setSpLock false).setPC t .idle) := by
      simp [State.next,hp]
    exact lowers_of_next hn trivial (by simp [State.pc_setPC,hp,PC.distance])
  | scan i =>
    cases hf : s.flags[i]? with
    | none =>
      have hn : s.next t .advance=some (s.setPC t .exclusive) := by
        simp [State.next,State.advance,hp,hf]
      refine lowers_of_next hn trivial ?_
      simp only [State.pc_setPC,if_pos,hp,PC.distance]
      omega
    | some f =>
      by_cases hs : f=.sharedLock
      · obtain ⟨u,hu,_⟩ := hb i (hs ▸ hf)
        exact lowers_reader (.inl hu)
      · have hn : s.next t .advance=some (s.setPC t (.scan (i+1))) := by
          simp [State.next,State.advance,hp,hf,hs]
        have hlt := (List.getElem?_eq_some_iff.mp hf).1
        refine lowers_of_next hn trivial ?_
        simp only [State.pc_setPC,if_pos,hp,PC.distance]
        omega
  | _ => simp [PC.Owning,hp] at hown

/-- A thread that waits for `spLock` waits for another one that can go on. -/
theorem lowers_of_spLock {owner : Option T} (htr : Tracked s owner) (hb : Backed s)
    (hl : s.spLock=true) : Lowers s := by
  cases owner with
  | none =>
    rw [htr.spLock] at hl
    cases hl
  | some u => exact lowers_owner htr hb

theorem lowers_of_distance (hs : Settled s) (hb : Backed s)
    (hd : (s.pc t).distance s.flags.length ≠ 0) : Lowers s := by
  obtain ⟨⟨owner,htr⟩,hno⟩ := hs
  have htry := hno t
  by_cases hl : s.spLock=true
  · exact lowers_of_spLock htr hb hl
  · have hl : s.spLock=false := by simpa using hl
    cases hp : s.pc t with
    | idle => simp [hp,PC.distance] at hd
    | exited => simp [hp,PC.distance] at hd
    | shared => exact lowers_reader (.inl hp)
    | spill => exact lowers_reader (.inr hp)
    | exclusive =>
      have hn : s.next t .unlock=some ((s.setSpLock false).setPC t .idle) := by
        simp [State.next,hp]
      exact lowers_of_next hn trivial (by simp [State.pc_setPC,hp,PC.distance])
    | scan i =>
      have hown := (htr.owns t).mp (by simp [PC.Owning,hp])
      exact lowers_owner (hown ▸ htr) hb
    | unregister =>
      obtain ⟨i,hi⟩ := htr.reading t (by simp [PC.Reading,hp])
      have hf := htr.slot t i hi
      have hn : s.next t .advance=
          some (((s.setFlag i .unregistered).setIndex t .absent).setPC t .exited) := by
        simp [State.next,State.advance,hp,hi,hf]
      exact lowers_of_next hn trivial (by simp [State.pc_setPC,hp,PC.distance])
    | storeSharedLock =>
      obtain ⟨i,hi⟩ := htr.reading t (by simp [PC.Reading,hp])
      have hn : s.next t .advance=some ((s.setFlag i .sharedLock).setPC t .shared) := by
        simp [State.next,State.advance,hp,hi]
      exact lowers_of_next hn trivial (by simp [State.pc_setPC,hp,PC.distance])
    | loadSpLock tries =>
      have hn : s.next t .advance=some (s.setPC t .storeSharedLock) := by
        simp [State.next,State.advance,hp,hl]
      exact lowers_of_next hn trivial (by simp [State.pc_setPC,hp,PC.distance])
    | exchangeSpill tries =>
      cases tries with
      | true => simp [PC.Trying,hp] at htry
      | false =>
        have hn : s.next t .advance=some ((s.setSpLock true).setPC t .spill) := by
          simp [State.next,State.advance,hp,hl]
        exact lowers_of_next hn trivial (by simp [State.pc_setPC,hp,PC.distance])
    | exchangeLock =>
      have hn : s.next t .advance=some ((s.setSpLock true).setPC t (.scan 0)) := by
        simp [State.next,State.advance,hp,hl]
      refine lowers_of_next hn trivial ?_
      simp only [State.pc_setPC,if_pos,hp,PC.distance]
      omega
    | registerThread tries i =>
      cases hf : s.flags[i]? with
      | none =>
        have hn : s.next t .advance=some (s.setPC t (.exchangeSpill tries)) := by
          simp [State.next,State.advance,hp,hf]
        refine lowers_of_next hn trivial ?_
        simp only [State.pc_setPC,if_pos,hp,PC.distance]
        omega
      | some f =>
        have hlt := (List.getElem?_eq_some_iff.mp hf).1
        by_cases hu : f=.unregistered
        · have hn : s.next t .advance=some (((s.setFlag i .registered).setIndex t
              (.registered i)).setPC t (.loadSpLock tries)) := by
            simp [State.next,State.advance,hp,hf,hu]
          refine lowers_of_next hn trivial ?_
          simp only [State.pc_setPC,if_pos,hp,PC.distance]
          omega
        · have hn : s.next t .advance=some (s.setPC t (.registerThread tries (i+1))) := by
            simp [State.next,State.advance,hp,hf,hu]
          refine lowers_of_next hn trivial ?_
          simp only [State.pc_setPC,if_pos,hp,PC.distance]
          omega

end Steps

section Runs

variable {T : Type} [DecidableEq T] [Fintype T] {s s' : State T} {threads : Nat}

/-- The steps that are left, at most. -/
def remaining (s : State T) : Nat := ∑ t, (s.pc t).distance s.flags.length

theorem remaining_lt {t : T} {a : Act} (hn : s.next t a=some s')
    (hlt : (s'.pc t).distance s.flags.length < (s.pc t).distance s.flags.length) :
    remaining s' < remaining s := by
  have hlen := length_next hn
  rw [remaining,remaining,hlen]
  refine Finset.sum_lt_sum ?_ ⟨t,Finset.mem_univ t,hlt⟩
  intro u _
  by_cases hu : u=t
  · subst hu
    exact hlt.le
  · rw [pc_other (moves_next hn) hu]

/-- Nothing is locked, and no thread is inside a call. -/
structure Quiet (s : State T) : Prop where
  spLock : s.spLock=false
  pc : ∀ t, s.pc t=.idle ∨ s.pc t=.exited
  flags : ∀ i : Nat, s.flags[i]? ≠ some .sharedLock

omit [DecidableEq T] in
theorem quiet_of_remaining (hs : Settled s) (hb : Backed s) (hz : remaining s=0) : Quiet s := by
  obtain ⟨owner,htr⟩ := hs.1
  have hpc : ∀ t, s.pc t=.idle ∨ s.pc t=.exited := by
    intro t
    have ht := Finset.sum_eq_zero_iff.mp hz t (Finset.mem_univ t)
    cases hp : s.pc t <;> simp [PC.distance,hp] at ht ⊢
  refine ⟨?_,hpc,?_⟩
  · cases owner with
    | none => exact htr.spLock
    | some t =>
      have hown := (htr.owns t).mpr rfl
      rcases hpc t with hp | hp <;> simp [PC.Owning,hp] at hown
  · intro i hi
    obtain ⟨t,ht,_⟩ := hb i hi
    rcases hpc t with hp | hp <;> simp [hp] at ht

/-- From every reachable state, whatever threads do next but begin calls: only so many of their
steps change the state, and until all are outside and nothing is locked some thread has such a step.
-/
theorem drains (h : (machine T threads Act.Blocking).Reachable s) :
    ∃ n, ∀ ls s', (∀ l ∈ ls, l.2.Ends) → (machine T threads Act.Blocking).Strides s ls s' →
      ls.length ≤ n ∧ (Quiet s' ∨ ∃ l s'', l.2.Ends ∧
        (machine T threads Act.Blocking).next s' l=some s'' ∧ s'' ≠ s') := by
  let M := machine T threads Act.Blocking
  let Inv := fun s : State T => Settled s ∧ Backed s
  have h0 : ∀ s, M.start s → Inv s := by
    rintro s rfl
    exact ⟨settled_initial threads,backed_initial threads⟩
  have hnext : ∀ s l s', Inv s → M.next s l=some s' → Inv s' := by
    rintro s ⟨t,a⟩ s' ⟨hs,hb⟩ hn
    obtain ⟨owner,htr⟩ := hs.1
    have ha := htr.acts_next (sparesSpLock_of_not_trying (hs.2 t)) (next_of_machine hn)
    exact ⟨hs.next hn,Backed.step hb htr ha⟩
  have hlower : ∀ s l s', Inv s → l.2.Ends → M.next s l=some s' →
      s'=s ∨ remaining s' < remaining s := by
    rintro s ⟨t,a⟩ s' _ ha hn
    have hn := next_of_machine hn
    exact (distance_next ha hn).imp_right (remaining_lt hn)
  refine ⟨remaining s,fun ls s' hls hr => ?_⟩
  obtain ⟨⟨hs,hb⟩,hle⟩ := hr.length_le (fun s l s' hi _ => hnext s l s' hi) hlower hls
    (h.invariant h0 hnext)
  refine ⟨by omega,?_⟩
  by_cases hz : remaining s'=0
  · exact .inl (quiet_of_remaining hs hb hz)
  · obtain ⟨t,_,ht⟩ := Finset.exists_ne_zero_of_sum_ne_zero hz
    obtain ⟨u,a,s'',ha,hn,hlt⟩ := lowers_of_distance hs hb ht
    have hblock : a.Blocking := by cases a <;> trivial
    refine .inr ⟨(u,a),s'',ha,?_,?_⟩
    · change (if a.Blocking then s'.next u a else none)=some s''
      rw [if_pos hblock,hn]
    · rintro rfl
      exact Nat.lt_irrefl _ hlt

/-- A writer that waits for a reader, and one more reader that waits for the writer. -/
theorem drains_waiting : ∃ s : State (Fin 3),
    (s.pc 0=.shared ∧ s.pc 1=.scan 0 ∧ s.pc 2=.loadSpLock false) ∧
    ∃ n, ∀ ls s', (∀ l ∈ ls, l.2.Ends) → (machine (Fin 3) 2 Act.Blocking).Strides s ls s' →
      ls.length ≤ n ∧ (Quiet s' ∨ ∃ l s'', l.2.Ends ∧
        (machine (Fin 3) 2 Act.Blocking).next s' l=some s'' ∧ s'' ≠ s') := by
  obtain ⟨s,hr,hs⟩ := Machine.reachable_of_runFrom (machine (Fin 3) 2 Act.Blocking)
    (initial (Fin 3) 2)
    [(0,.lockShared),(0,.advance),(0,.advance),(0,.advance),(1,.lock),(1,.advance),
      (2,.lockShared),(2,.advance),(2,.advance)]
    (fun s => s.pc 0=.shared ∧ s.pc 1=.scan 0 ∧ s.pc 2=.loadSpLock false) rfl (by decide)
  exact ⟨s,hs,drains hr⟩

end Runs

end Allocators.SharedMutex
