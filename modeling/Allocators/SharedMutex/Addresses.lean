import Allocators.SharedMutex.Sections

/-! Mutexes that are built and destroyed, at addresses that the threads' `tmap` keeps. -/

namespace Allocators.SharedMutex

open Lib

/-- What is at an address: no mutex, one, or one that another was move-constructed from. -/
inductive Phase
  | vacant
  | live
  | movedFrom
  deriving DecidableEq, Repr

/-- An address: its mutex, and the `tmap` entries for it, which outlive the mutex. -/
structure Place (T : Type) where
  phase : Phase
  mutex : State T
  /-- The thread's index is of an earlier mutex. -/
  stale : T → Bool
  /-- The slots claimed so far in the flags array that is here. -/
  claimed : List (T × Nat)

/-- A mutex comes and goes, or a thread steps in one. -/
inductive Event (A T : Type)
  | construct (a : A)
  | moveConstruct (a other : A)
  | destroy (a : A)
  | act (a : A) (t : T) (call : Act)
  deriving DecidableEq, Repr

def ThreadRegister.isRegistered : ThreadRegister → Bool
  | .registered _ => true
  | _ => false

/-- The calls that begin with the thread's index. -/
def Act.ByIndex : Act → Prop
  | .lockShared | .tryLockShared | .exit => True
  | _ => False

instance : DecidablePred Act.ByIndex
  | .lockShared | .tryLockShared | .exit => inferInstanceAs (Decidable True)
  | .unlockShared | .lock | .unlock | .advance => inferInstanceAs (Decidable False)

/-- Outside, or in the calls that do not look at the thread's index. -/
def PC.Aside : PC → Prop
  | .idle | .exchangeLock | .scan _ | .exclusive | .exited => True
  | _ => False

theorem PC.Reading.not_aside {p : PC} (h : p.Reading) : ¬ p.Aside := by
  cases p <;> simp_all [PC.Reading,PC.Aside]

theorem PC.Aside.ne_shared {p : PC} (h : p.Aside) : p ≠ .shared := by
  rintro rfl
  exact h

namespace State

variable {T : Type}

/-- No thread is in the mutex. -/
def Unlocked (s : State T) : Prop := s.spLock=false ∧ ∀ t, s.pc t=.idle ∨ s.pc t=.exited

instance [Fintype T] (s : State T) : Decidable s.Unlocked :=
  inferInstanceAs (Decidable (s.spLock=false ∧ ∀ t, s.pc t=.idle ∨ s.pc t=.exited))

/-- The mutex without the entries of an earlier one. -/
def mask (s : State T) (stale : T → Bool) : State T :=
  { s with index := fun t => if stale t then .absent else s.index t }

@[simp] theorem mask_setFlag (s : State T) (i : Nat) (f : Flag) (stale : T → Bool) :
    (s.setFlag i f).mask stale=(s.mask stale).setFlag i f := rfl

@[simp] theorem mask_setSpLock (s : State T) (b : Bool) (stale : T → Bool) :
    (s.setSpLock b).mask stale=(s.mask stale).setSpLock b := rfl

@[simp] theorem mask_setPC [DecidableEq T] (s : State T) (t : T) (p : PC) (stale : T → Bool) :
    (s.setPC t p).mask stale=(s.mask stale).setPC t p := rfl

theorem index_mask {s : State T} {stale : T → Bool} {t : T} (ht : stale t=false) :
    (s.mask stale).index t=s.index t := by
  simp [mask,ht]

theorem mask_setIndex [DecidableEq T] (s : State T) {t : T} (r : ThreadRegister)
    {stale : T → Bool} (ht : stale t=false) :
    (s.setIndex t r).mask stale=(s.mask stale).setIndex t r := by
  unfold mask setIndex
  congr 1
  funext u
  by_cases hu : u=t
  · subst hu
    simp [ht]
  · simp [hu]

end State

/-- The claim a step of `t` makes, if any. -/
def claims {T : Type} (s s' : State T) (t : T) (claimed : List (T × Nat)) : List (T × Nat) :=
  match s'.index t with
  | .registered i => if s.index t=.registered i then claimed else (t,i) :: claimed
  | _ => claimed

namespace Place

variable {T : Type}

/-- A mutex with these members, where `tmap` is what it was. -/
def build (p : Place T) (spLock : Bool) (flags : List Flag) (claimed : List (T × Nat)) : Place T :=
  ⟨.live,⟨spLock,flags,p.mutex.index,p.mutex.pc⟩,fun t => (p.mutex.index t).isRegistered,claimed⟩

def construct (p : Place T) (threads : Nat) : Place T :=
  p.build false (List.replicate threads .unregistered) []

def moveConstruct (p other : Place T) : Place T :=
  p.build other.mutex.spLock other.mutex.flags other.claimed

def setPhase (p : Place T) (phase : Phase) : Place T := { p with phase := phase }

def act [DecidableEq T] (p : Place T) (t : T) (call : Act) : Option (Place T) :=
  (p.mutex.next t call).map fun s' =>
    { p with mutex := s', claimed := claims p.mutex s' t p.claimed }

/-- Every thread that goes by its slot has claimed it in the array that is here, and no two have
the same. -/
def OwnSlots (p : Place T) : Prop :=
  ∀ t i, (p.mutex.pc t).Reading → p.mutex.index t=.registered i →
    (t,i) ∈ p.claimed ∧ (∃ f, p.mutex.flags[i]?=some f ∧ f ≠ .unregistered) ∧
      ∀ u, (p.mutex.pc u).Reading → p.mutex.index u=.registered i → u=t

end Place

/-- The places with their mutexes gone, and threads that have used none. -/
def unused (A T : Type) : A → Place T :=
  fun _ => ⟨.vacant,initial T 0,fun _ => false,[]⟩

/-- Mutexes are built where there is none, and moved from and destroyed while unlocked. Threads
step in those that are there; one that was moved from is only destroyed. -/
def addresses (A T : Type) [DecidableEq A] [DecidableEq T] [DecidablePred (@State.Unlocked T)]
    (threads : Nat) : Machine (A → Place T) (Event A T) where
  start s := s=unused A T
  next s
    | .construct a =>
      if (s a).phase=.vacant then some (Function.update s a ((s a).construct threads)) else none
    | .moveConstruct a other =>
      if (s a).phase=.vacant ∧ (s other).phase=.live ∧ (s other).mutex.Unlocked then
        some (Function.update (Function.update s other ((s other).setPhase .movedFrom)) a
          ((s a).moveConstruct (s other)))
      else none
    | .destroy a =>
      if (s a).phase ≠ .vacant ∧ (s a).mutex.Unlocked then
        some (Function.update s a ((s a).setPhase .vacant))
      else none
    | .act a t call =>
      if (s a).phase=.live then ((s a).act t call).map (Function.update s a) else none

/-- The step is no call that begins with an index of an earlier mutex at the address. -/
def Present {A T : Type} (s : A → Place T) : Event A T → Prop
  | .act a t call => call.ByIndex → (s a).stale t=false
  | _ => True

instance {A T : Type} (s : A → Place T) : (e : Event A T) → Decidable (Present s e)
  | .act a t call => inferInstanceAs (Decidable (call.ByIndex → (s a).stale t=false))
  | .construct _ | .moveConstruct _ _ | .destroy _ => inferInstanceAs (Decidable True)

/-- What holds at an address: the entries made since the mutex was built are claims, and a thread
with an older one keeps out of the calls that look at it. -/
structure Place.Kept {T : Type} (p : Place T) : Prop where
  slots : Slots (p.mutex.mask p.stale)
  claimed : ∀ t i, p.stale t=false → p.mutex.index t=.registered i → (t,i) ∈ p.claimed
  aside : ∀ t, p.stale t=true → (p.mutex.pc t).Aside
  out : p.phase ≠ .live → ∀ t, p.mutex.pc t=.idle ∨ p.mutex.pc t=.exited

section Places

variable {T : Type} {p : Place T}

theorem aside_of_out {q : PC} (h : q=.idle ∨ q=.exited) : q.Aside := by
  cases h with
  | inl h => simp [h,PC.Aside]
  | inr h => simp [h,PC.Aside]

theorem Place.Kept.ownSlots (h : p.Kept) : p.OwnSlots := by
  have hindex : ∀ t i, (p.mutex.pc t).Reading → p.mutex.index t=.registered i →
      p.stale t=false ∧ (p.mutex.mask p.stale).index t=.registered i := by
    intro t i ht hi
    have hs : p.stale t=false := by
      apply Bool.eq_false_iff.mpr
      intro hs
      exact ht.not_aside (h.aside t hs)
    exact ⟨hs,by simp [State.mask,hs,hi]⟩
  intro t i ht hi
  obtain ⟨hs,hm⟩ := hindex t i ht hi
  refine ⟨h.claimed t i hs hi,h.slots.claimed t i hm,?_⟩
  intro u hu hui
  exact h.slots.unique u t i (hindex u i hu hui).2 hm

/-- A mutex is built with no entry of its own. -/
theorem Place.Kept.build (h : p.Kept) (hp : p.phase=.vacant) (spLock : Bool) (flags : List Flag)
    (claimed : List (T × Nat)) : (p.build spLock flags claimed).Kept := by
  have hout := h.out (by simp [hp])
  have hmask : ∀ t i, ¬ ((p.build spLock flags claimed).mutex.mask
      (p.build spLock flags claimed).stale).index t=.registered i := by
    intro t i hi
    cases hr : p.mutex.index t <;>
      simp [State.mask,Place.build,ThreadRegister.isRegistered,hr] at hi
  constructor
  · constructor
    · intro t i hi
      exact absurd hi (hmask t i)
    · intro t u i hi _
      exact absurd hi (hmask t i)
    · intro t ht
      exact absurd ht (aside_of_out (hout t)).ne_shared
  · intro t i hs hi
    have hi : p.mutex.index t=.registered i := hi
    simp [Place.build,ThreadRegister.isRegistered,hi] at hs
  · intro t _
    exact aside_of_out (hout t)
  · intro hne
    exact absurd rfl hne

theorem Place.Kept.setPhase (h : p.Kept) (hu : p.mutex.Unlocked) (phase : Phase) :
    (p.setPhase phase).Kept :=
  ⟨h.slots,h.claimed,h.aside,fun _ => hu.2⟩

theorem kept_unused (A : Type) (a : A) : (unused A T a).Kept := by
  refine ⟨⟨?_,?_,?_⟩,?_,?_,?_⟩ <;> simp [unused,initial,State.mask]

end Places

variable {T : Type} [DecidableEq T]

section Steps

variable {s s' : State T} {t : T}

theorem index_other (h : Moves s t s') {u : T} (hu : u ≠ t) : s'.index u=s.index u := by
  cases h with
  | spins => rfl
  | passes _ _ => rfl
  | enrolls _ _ _ => simp [State.index_setIndex,hu]
  | claims _ _ _ => simp [State.index_setIndex,hu]
  | stores _ _ => rfl
  | releases _ => rfl
  | leaves _ => simp [State.index_setIndex,hu]

/-- A thread without an older entry does not see that others have some. -/
theorem moves_mask {stale : T → Bool} (ht : stale t=false) (h : Moves s t s') :
    Moves (s.mask stale) t (s'.mask stale) := by
  have hindex : ∀ {i}, s.index t=.registered i → (s.mask stale).index t=.registered i :=
    fun hi => (State.index_mask ht).trans hi
  cases h with
  | spins => exact .spins
  | passes hp hpast =>
    rw [State.mask_setPC,State.mask_setSpLock]
    exact .passes hp hpast
  | enrolls hr hp hpast =>
    rw [State.mask_setPC,State.mask_setIndex _ _ ht]
    exact .enrolls hr hp hpast
  | claims hf hp hpast =>
    rw [State.mask_setPC,State.mask_setIndex _ _ ht,State.mask_setFlag]
    exact .claims hf hp hpast
  | stores hi hp => exact .stores (hindex hi) hp
  | releases hi => exact .releases (hindex hi)
  | leaves hi =>
    rw [State.mask_setPC,State.mask_setIndex _ _ ht,State.mask_setFlag]
    exact .leaves (hindex hi)

/-- A thread that does not look at its index changes no entry and no flag. -/
theorem next_aside {a : Act} (hp : (s.pc t).Aside) (ha : ¬ a.ByIndex) (h : s.next t a=some s') :
    ∃ b p, s'=(s.setSpLock b).setPC t p ∧ p.Aside := by
  have hself : s=(s.setSpLock s.spLock).setPC t (s.pc t) := by
    simp [State.setSpLock,State.setPC]
  cases a with
  | lockShared => exact absurd trivial ha
  | tryLockShared => exact absurd trivial ha
  | exit => exact absurd trivial ha
  | unlockShared =>
    simp only [State.next] at h
    split_ifs at h with hs
    cases hs with
    | inl hs =>
      rw [hs] at hp
      exact hp.elim
    | inr hs =>
      rw [hs] at hp
      exact hp.elim
  | lock =>
    simp only [State.next] at h
    split_ifs at h
    cases h
    exact ⟨s.spLock,.exchangeLock,rfl,trivial⟩
  | unlock =>
    simp only [State.next] at h
    split_ifs at h
    cases h
    exact ⟨false,.idle,rfl,trivial⟩
  | advance =>
    cases advances_of_some h with
    | spins => exact ⟨_,_,hself,hp⟩
    | locks _ _ => exact ⟨true,.scan 0,rfl,trivial⟩
    | @scans i _ _ _ _ => exact ⟨s.spLock,.scan (i+1),rfl,trivial⟩
    | enters _ _ => exact ⟨s.spLock,.exclusive,rfl,trivial⟩
    | claims hpc _ => simp [PC.Aside,hpc] at hp
    | skips hpc _ _ => simp [PC.Aside,hpc] at hp
    | overflows hpc _ => simp [PC.Aside,hpc] at hp
    | refuses hpc _ => simp [PC.Aside,hpc] at hp
    | passes hpc _ => simp [PC.Aside,hpc] at hp
    | stores hpc _ => simp [PC.Aside,hpc] at hp
    | fails hpc _ => simp [PC.Aside,hpc] at hp
    | slips hpc _ => simp [PC.Aside,hpc] at hp
    | spills hpc _ => simp [PC.Aside,hpc] at hp
    | leaves hpc _ _ => simp [PC.Aside,hpc] at hp

omit [DecidableEq T] in
theorem mem_claims {claimed : List (T × Nat)} {u : T} {i : Nat} (h : (u,i) ∈ claimed) :
    (u,i) ∈ claims s s' t claimed := by
  unfold claims
  split
  · split_ifs
    · exact h
    · exact List.mem_cons_of_mem _ h
  · exact h

omit [DecidableEq T] in
/-- A thread that has an index now has it from a claim, now or before. -/
theorem mem_claims_self {claimed : List (T × Nat)} {i : Nat} (hi : s'.index t=.registered i)
    (h : s.index t=.registered i → (t,i) ∈ claimed) : (t,i) ∈ claims s s' t claimed := by
  unfold claims
  simp only [hi]
  split_ifs with hs
  · exact h hs
  · exact List.mem_cons_self

end Steps

section Kept

variable {p p' : Place T} {t : T} {call : Act}

theorem Place.Kept.act (h : p.Kept) (hl : p.phase=.live) (hg : call.ByIndex → p.stale t=false)
    (hn : p.act t call=some p') : p'.Kept := by
  obtain ⟨s',hs',rfl⟩ := Option.map_eq_some_iff.mp hn
  have hm := moves_next hs'
  have haside : ∀ u ≠ t, p.stale u=true → (s'.pc u).Aside := by
    intro u hu hs
    rw [pc_other hm hu]
    exact h.aside u hs
  have hclaimed : ∀ u ≠ t, ∀ i, p.stale u=false → s'.index u=.registered i →
      (u,i) ∈ claims p.mutex s' t p.claimed := by
    intro u hu i hs hi
    rw [index_other hm hu] at hi
    exact mem_claims (h.claimed u i hs hi)
  cases ht : p.stale t with
  | false =>
    refine ⟨h.slots.moves (moves_mask ht hm),?_,?_,
      fun hne => absurd hl hne⟩
    · intro u i hs hi
      by_cases hu : u=t
      · subst hu
        exact mem_claims_self hi (h.claimed u i hs)
      · exact hclaimed u hu i hs hi
    · intro u hs
      by_cases hu : u=t
      · subst hu
        exact absurd (ht.symm.trans hs) (by simp)
      · exact haside u hu hs
  | true =>
    have hcall : ¬ call.ByIndex := fun hc => by simp [hg hc] at ht
    obtain ⟨b,q,rfl,hq⟩ := next_aside (h.aside t ht) hcall hs'
    refine ⟨⟨h.slots.claimed,h.slots.unique,?_⟩,?_,?_,
      fun hne => absurd hl hne⟩
    · intro u hu
      exact h.slots.held u (reads_before (s := p.mutex.mask p.stale) hq.ne_shared hu).2
    · intro u i hs hi
      exact mem_claims (h.claimed u i hs hi)
    · intro u hs
      by_cases hu : u=t
      · subst hu
        simpa [State.pc_setPC] using hq
      · exact haside u hu hs

end Kept

section Runs

variable {A : Type} [DecidableEq A]

omit [DecidableEq T] in
theorem kept_update {s : A → Place T} (h : ∀ a, (s a).Kept) {a : A} {p : Place T} (hp : p.Kept) :
    ∀ b, (Function.update s a p b).Kept := by
  intro b
  by_cases hb : b=a
  · subst hb
    simpa using hp
  · simpa [hb] using h b

variable [DecidablePred (@State.Unlocked T)] {threads : Nat}

theorem kept_next {s s' : A → Place T} {e : Event A T} (h : ∀ a, (s a).Kept) (hg : Present s e)
    (hn : (addresses A T threads).next s e=some s') : ∀ a, (s' a).Kept := by
  cases e with
  | construct a =>
    simp only [addresses] at hn
    split_ifs at hn with hp
    cases hn
    exact kept_update h ((h a).build hp false _ [])
  | moveConstruct a other =>
    simp only [addresses] at hn
    split_ifs at hn with hp
    cases hn
    exact kept_update (kept_update h ((h other).setPhase hp.2.2 .movedFrom))
      ((h a).build hp.1 _ _ _)
  | destroy a =>
    simp only [addresses] at hn
    split_ifs at hn with hp
    cases hn
    exact kept_update h ((h a).setPhase hp.2 .vacant)
  | act a t call =>
    simp only [addresses] at hn
    split_ifs at hn with hl
    obtain ⟨p,hp,rfl⟩ := Option.map_eq_some_iff.mp hn
    exact kept_update h ((h a).act hl hg hp)

/-- Where no thread takes an index of an earlier mutex to a later one at the same address, every
thread goes by a slot that it has claimed in the array that is there, and none by another's. -/
theorem ownSlots_of_present {h : List ((A → Place T) × Event A T)} {s : A → Place T}
    (r : (addresses A T threads).Run h s) (hg : ∀ e ∈ h, Present e.1 e.2) :
    ∀ q ∈ Machine.visited h s, ∀ a, (q a).OwnSlots := by
  intro q hq a
  have hkept : ∀ q ∈ Machine.visited h s, ∀ a, (q a).Kept :=
    r.always (fun s hs => hs ▸ kept_unused A) (fun _ _ _ hi hg hn => kept_next hi hg hn) hg
  exact (hkept q hq a).ownSlots

/-- One mutex after the other at an address, with a thread of its own each, and a third that the
second is moved to. -/
theorem ownSlots_of_present_rebuilt :
    ∃ (h : List ((Bool → Place Bool) × Event Bool Bool)) (s : Bool → Place Bool),
      ((s false).stale false=true ∧ (s true).mutex.pc false=.shared ∧
        (s true).mutex.index false=.registered 1) ∧
        ∀ q ∈ Machine.visited h s, ∀ a, (q a).OwnSlots := by
  let M := (addresses Bool Bool 2).restrict Present
  obtain ⟨s,⟨h,r⟩,hs⟩ := Machine.reachable_of_runFrom M (unused Bool Bool)
    [.construct false,.act false false .lockShared,.act false false .advance,
      .act false false .advance,.act false false .advance,.act false false .unlockShared,
      .destroy false,.construct false,.act false true .lockShared,.act false true .advance,
      .act false true .advance,.act false true .advance,.act false true .unlockShared,
      .moveConstruct true false,.destroy false,.act true false .lockShared,
      .act true false .advance,.act true false .advance,.act true false .advance,
      .act true false .advance]
    (fun s => (s false).stale false=true ∧ (s true).mutex.pc false=.shared ∧
      (s true).mutex.index false=.registered 1) rfl (by decide)
  obtain ⟨hr,hg⟩ := r.of_restrict
  exact ⟨h,s,hs,ownSlots_of_present hr hg⟩

/-- A thread takes the index it had at the first mutex to the second, where another thread has
claimed the slot. -/
theorem stale_index_shares_slot :
    ∃ s, (addresses Unit Bool 1).Reachable s ∧ (s ()).mutex.pc false=.shared ∧
      (s ()).mutex.pc true=.shared ∧ ¬ (s ()).OwnSlots := by
  obtain ⟨s,hr,hf,ht,hi,hj⟩ := Machine.reachable_of_runFrom (addresses Unit Bool 1)
    (unused Unit Bool)
    [.construct (),.act () false .lockShared,.act () false .advance,.act () false .advance,
      .act () false .advance,.act () false .unlockShared,.destroy (),.construct (),
      .act () true .lockShared,.act () true .advance,.act () true .advance,
      .act () true .advance,.act () false .lockShared,.act () false .advance,
      .act () false .advance]
    (fun s => (s ()).mutex.pc false=.shared ∧ (s ()).mutex.pc true=.shared ∧
      (s ()).mutex.index false=.registered 0 ∧ (s ()).mutex.index true=.registered 0) rfl
    (by decide)
  refine ⟨s,hr,hf,ht,?_⟩
  intro hown
  obtain ⟨_,_,hone⟩ := hown false 0 (by simp [hf,PC.Reading]) hi
  have := hone true (by simp [ht,PC.Reading]) hj
  cases this

end Runs

end Allocators.SharedMutex
