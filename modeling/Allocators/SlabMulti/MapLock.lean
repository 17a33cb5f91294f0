import Allocators.Lib.Pending
import Allocators.SharedMutex.Exclusion
import Allocators.SharedMutex.Sections
import Allocators.SlabMulti.Overlapping
import Allocators.SlabMulti.Visits

/-! The threads of `SlabMulti` over the `SharedMutex` of their map. What several threads do under the
shared lock overlaps: a thread goes into a bucket, works on it and leaves it again. -/

namespace Allocators.SlabMulti

open Lib

namespace Phase

variable {T : Type}

/-- Outside of a call. -/
def rests : Phase T → Bool
  | .idle => true
  | _ => false

/-- Before the `emplace`. -/
def writes : Phase T → Bool
  | .emplacing _ _ => true
  | _ => false

end Phase

/-- The thread `id` in the bucket at `it`, with what it has made of the bucket. -/
structure Visit (T : Type) where
  id : T
  it : Nat
  pair : T × Bucket

/-- The threads with the mutex of the map. A thread that is in a bucket has read it when it went in;
what it does there is in `crowd` once it leaves. `done` tells who has done what it took the lock
for. -/
structure Locked (T : Type) where
  mutex : SharedMutex.State T
  crowd : Crowd T
  visits : List (Visit T)
  done : T → Bool

/-- A thread begins a call, takes a step of the mutex, goes into the bucket it is to work on, does what
it took the lock for, or leaves the bucket. -/
inductive Turn (T : Type)
  | begin (m : Move T)
  | lock (a : SharedMutex.Act)
  | enter
  | work (answers : List Nat)
  | leave

/-- The `emplace` of `registerThread`, whoever else is at the map. -/
def Crowd.emplaced {T : Type} [DecidableEq T] (w : Crowd T) (id : T) (b : Bucket)
    (next : Option (Nat × Nat)) : Crowd T :=
  { w with
    buckets := SmpMap.emplace w.buckets id b
    made := w.made.erase (id,b) }.goto id (.after next)

namespace Locked

variable {T : Type} [DecidableEq T]

def visit (w : Locked T) (id : T) : Option (Visit T) := w.visits.find? fun v => decide (v.id=id)

def otherVisits (w : Locked T) (id : T) : List (Visit T) :=
  w.visits.eraseP fun v => decide (v.id=id)

/-- The steps of the mutex that `findDo`, `iterate` and `emplace` take, in their order; a thread
exits outside of its calls. -/
def Allows (w : Locked T) (id : T) : SharedMutex.Act → Prop
  | .lockShared => (w.crowd.phase id).reads=true
  | .lock => (w.crowd.phase id).writes=true
  | .unlockShared | .unlock => w.done id=true ∧ w.visit id=none
  | .exit => (w.crowd.phase id).rests=true
  | .advance => True
  | .tryLockShared => False

instance (w : Locked T) (id : T) : (a : SharedMutex.Act) → Decidable (w.Allows id a)
  | .lockShared => inferInstanceAs (Decidable (_=true))
  | .lock => inferInstanceAs (Decidable (_=true))
  | .unlockShared | .unlock =>
    match h : w.visit id with
    | none => decidable_of_iff (w.done id=true) (by simp [Allows,h])
    | some v => isFalse (by simp [Allows,h])
  | .exit => inferInstanceAs (Decidable (_=true))
  | .advance => inferInstanceAs (Decidable True)
  | .tryLockShared => inferInstanceAs (Decidable False)

/-- A thread goes into the bucket that its next step is about, whoever else is in there. -/
def enter (w : Locked T) (id : T) : Option (Locked T) :=
  match w.visit id,w.crowd.place id with
  | none,some it =>
    if (w.mutex.pc id=.shared ∨ w.mutex.pc id=.spill) ∧ w.done id=false then
      (w.crowd.buckets[it]?).map fun pair => { w with visits := ⟨id,it,pair⟩ :: w.visits }
    else none
  | _,_ => none

/-- A thread under the shared lock works on its copy of the bucket it is in, or on none. -/
def read (w : Locked T) (id : T) (answers : List Nat) : Option (Locked T) :=
  match w.crowd.place id,w.visit id with
  | none,none => (w.crowd.next (id,.advance answers)).map fun crowd =>
    { w with
      crowd := crowd
      done := Function.update w.done id (!(crowd.phase id).searches) }
  | some it,some v =>
    if v.it=it then
      let view : Crowd T := { w.crowd with buckets := w.crowd.buckets.set it v.pair }
      match view.next (id,.advance answers) with
      | none => none
      | some crowd => (crowd.buckets[it]?).map fun pair =>
        { w with
          crowd := { crowd with buckets := w.crowd.buckets }
          visits := ⟨id,it,pair⟩ :: w.otherVisits id
          done := Function.update w.done id (!(crowd.phase id).searches) }
    else none
  | _,_ => none

def work (w : Locked T) (id : T) (answers : List Nat) : Option (Locked T) :=
  match w.crowd.phase id with
  | .idle => none
  | .building _ =>
    if w.mutex.pc id=.idle then
      (w.crowd.next (id,.advance answers)).map fun crowd => { w with crowd := crowd }
    else none
  | .emplacing b next =>
    if w.mutex.pc id=.exclusive ∧ w.done id=false then
      some { w with
        crowd := (w.crowd.put (w.crowd.interface.supply answers)).emplaced id b next
        done := Function.update w.done id true }
    else none
  | _ =>
    if (w.mutex.pc id=.shared ∨ w.mutex.pc id=.spill) ∧ w.done id=false then w.read id answers
    else none

/-- The thread is through with the bucket it is in. -/
def leave (w : Locked T) (id : T) : Option (Locked T) :=
  match w.visit id with
  | none => none
  | some v =>
    if w.done id=true ∨ w.crowd.place id ≠ some v.it then
      some { w with
        crowd := { w.crowd with buckets := w.crowd.buckets.set v.it v.pair }
        visits := w.otherVisits id }
    else none

def next (w : Locked T) : T × Turn T → Option (Locked T)
  | (_,.begin (.advance _)) => none
  | (id,.begin m) =>
    if w.mutex.pc id=.idle then
      (w.crowd.next (id,m)).map fun crowd => { w with crowd := crowd }
    else none
  | (id,.lock a) =>
    if w.Allows id a then
      (w.mutex.next id a).map fun mutex =>
        { w with mutex := mutex, done := Function.update w.done id false }
    else none
  | (id,.enter) => w.enter id
  | (id,.work answers) => w.work id answers
  | (id,.leave) => w.leave id

/-- A mutex with `threads` slots. -/
def machine (T : Type) [DecidableEq T] (threads : Nat) : Machine (Locked T) (T × Turn T) where
  start w := w.mutex=SharedMutex.initial T threads ∧ (Crowd.machine T).start w.crowd ∧
    w.visits=[] ∧ w.done=fun _ => false
  next := next

omit [DecidableEq T] in
/-- The step is no store of `SharedLock` into a slot that a writer has looked at already. -/
def StoresInTime (w : Locked T) : T × Turn T → Prop
  | (id,.lock a) => w.mutex.StoresUnscanned (id,a)
  | _ => True

instance [Fintype T] (w : Locked T) : (i : T × Turn T) → Decidable (w.StoresInTime i)
  | (id,.lock a) => inferInstanceAs (Decidable (w.mutex.StoresUnscanned (id,a)))
  | (_,.begin _) | (_,.enter) | (_,.work _) | (_,.leave) => inferInstanceAs (Decidable True)

/-- The step does not take a thread into a bucket that another one is in. -/
def EntersAlone (w : Locked T) : T × Turn T → Prop
  | (id,.enter) => ∀ v ∈ w.visits, w.crowd.place id ≠ some v.it
  | _ => True

instance (w : Locked T) : (i : T × Turn T) → Decidable (w.EntersAlone i)
  | (id,.enter) => inferInstanceAs (Decidable (∀ v ∈ w.visits, w.crowd.place id ≠ some v.it))
  | (_,.begin _) | (_,.lock _) | (_,.work _) | (_,.leave) => inferInstanceAs (Decidable True)

omit [DecidableEq T] in
/-- The threads when all that are in a bucket have left it. -/
def settled (w : Locked T) : Crowd T :=
  { w.crowd with
    buckets := Pending.settle w.crowd.buckets (w.visits.map fun v => (v.it,v.pair)) }

end Locked

/-- What a step is for threads whose sections are one step each. -/
def Turn.move {T : Type} : T × Turn T → Option (T × Move T)
  | (id,.begin m) => some (id,m)
  | (_,.lock _) | (_,.enter) | (_,.leave) => none
  | (id,.work answers) => some (id,.advance answers)

section Visits

variable {T : Type} [DecidableEq T] {w w' : Locked T} {id : T} {v : Visit T}

theorem Locked.visit_ne_none (h : v ∈ w.visits) : w.visit v.id ≠ none := by
  intro hn
  exact absurd (decide_eq_true rfl) (List.find?_eq_none.mp hn v h)

/-- The visit of a thread among those of the others. -/
theorem Locked.visit_mid (h : w.visit id=some v) : ∃ lo hi, w.visits=lo ++ v :: hi ∧ v.id=id ∧
    w.otherVisits id=lo ++ hi := by
  obtain ⟨hid,lo,hi,hs,hlo⟩ := List.find?_eq_some_iff_append.mp h
  refine ⟨lo,hi,hs,of_decide_eq_true hid,?_⟩
  have hlo : ∀ x ∈ lo, ¬ decide (x.id=id)=true := fun x hx => by simpa using hlo x hx
  rw [Locked.otherVisits,hs,List.eraseP_append_right _ hlo]
  congr 1
  exact List.eraseP_cons_of_pos hid

theorem Locked.mem_otherVisits {u : Visit T} (h : u ∈ w.otherVisits id) : u ∈ w.visits :=
  List.mem_of_mem_eraseP h

/-- The ways a thread does what it took the lock for. -/
inductive Locked.Works (w : Locked T) (id : T) (answers : List Nat) : Locked T → Prop
  | emplaces {b : Bucket} {next : Option (Nat × Nat)} : w.crowd.phase id=.emplacing b next →
      w.mutex.pc id=.exclusive → w.Works id answers { w with
        crowd := (w.crowd.put (w.crowd.interface.supply answers)).emplaced id b next
        done := Function.update w.done id true }
  | builds {next : Option (Nat × Nat)} {crowd : Crowd T} : w.crowd.phase id=.building next →
      w.crowd.next (id,.advance answers)=some crowd →
      w.Works id answers { w with crowd := crowd }
  | outside {crowd : Crowd T} : (w.crowd.phase id).reads=true → w.mutex.InShared id →
      w.crowd.place id=none → w.crowd.next (id,.advance answers)=some crowd →
      w.Works id answers { w with
        crowd := crowd
        done := Function.update w.done id (!(crowd.phase id).searches) }
  | inside {v : Visit T} {crowd : Crowd T} {pair : T × Bucket} :
      (w.crowd.phase id).reads=true → w.mutex.InShared id →
      w.crowd.place id=some v.it → w.visit id=some v →
      Crowd.next { w.crowd with buckets := w.crowd.buckets.set v.it v.pair }
        (id,.advance answers)=some crowd →
      crowd.buckets[v.it]?=some pair → w.Works id answers { w with
        crowd := { crowd with buckets := w.crowd.buckets }
        visits := ⟨id,v.it,pair⟩ :: w.otherVisits id
        done := Function.update w.done id (!(crowd.phase id).searches) }

theorem Locked.works_of_read {answers : List Nat} (hr : (w.crowd.phase id).reads=true)
    (h : (if (w.mutex.pc id=.shared ∨ w.mutex.pc id=.spill) ∧ w.done id=false then
      w.read id answers else none)=some w') : w.Works id answers w' := by
  split_ifs at h with hin
  rw [Locked.read] at h
  split at h
  · next hplace hvisit =>
    obtain ⟨crowd,hc,rfl⟩ := Option.map_eq_some_iff.mp h
    exact .outside hr hin.1 hplace hc
  · next it v hplace hvisit =>
    split_ifs at h with hit
    subst hit
    simp only at h
    split at h
    · cases h
    · next crowd hc =>
      obtain ⟨pair,hpair,rfl⟩ := Option.map_eq_some_iff.mp h
      exact .inside hr hin.1 hplace hvisit hc hpair
  · cases h

theorem Locked.works_of_work {answers : List Nat} (h : w.work id answers=some w') :
    w.Works id answers w' := by
  rw [Locked.work] at h
  cases hp : w.crowd.phase id with
  | idle => simp [hp] at h
  | building next =>
    simp only [hp] at h
    split_ifs at h
    obtain ⟨crowd,hc,rfl⟩ := Option.map_eq_some_iff.mp h
    exact .builds hp hc
  | emplacing b next =>
    simp only [hp] at h
    split_ifs at h with hin
    obtain rfl := Option.some.inj h
    exact .emplaces hp hin.1
  | finding _ _ | retrying _ _ | freeing _ | seeking _ _ | searching _ _ _ =>
    simp only [hp] at h
    exact Locked.works_of_read (by rw [hp]; rfl) h

end Visits

section Locks

variable {T : Type} [DecidableEq T] {threads : Nat} {w w' : Locked T} {id t : T}

/-- What the mutex keeps up as long as no reader stores too late and no two threads are in one
bucket, and where the readers are. -/
structure Locked.Sheltered (w : Locked T) : Prop where
  settled : SharedMutex.Settled w.mutex
  slots : SharedMutex.Slots w.mutex
  scanned : SharedMutex.Scanned w.mutex
  reading : w.crowd.Reading
  inside : ∀ t, (w.crowd.phase t).searches=true → w.mutex.InShared t ∧ w.done t=false
  visiting : ∀ v ∈ w.visits, w.mutex.InShared v.id
  apart : (w.visits.map Visit.it).Nodup
  keys : ∀ v ∈ w.visits, w.crowd.keys[v.it]?=some v.pair.1

/-- Inside a shared section, and not done in it or still in a bucket, a thread leaves the mutex
alone. -/
theorem Locked.next_mutex_inside {a : SharedMutex.Act} (hin : w.mutex.InShared id)
    (hd : w.done id=false ∨ w.visit id ≠ none) (hallow : w.Allows id a) :
    w.mutex.next id a=none := by
  have hidle : w.mutex.pc id ≠ .idle := by
    intro hp
    cases hin with
    | inl hs => cases hp.symm.trans hs
    | inr hs => cases hp.symm.trans hs
  have hstays : ¬ (w.done id=true ∧ w.visit id=none) := by
    rintro ⟨hdone,hvisit⟩
    cases hd with
    | inl hd => exact Bool.false_ne_true (hd.symm.trans hdone)
    | inr hd => exact hd hvisit
  cases a with
  | lockShared | tryLockShared | lock | exit => exact if_neg hidle
  | unlockShared | unlock => exact absurd hallow hstays
  | advance =>
    cases hin with
    | inl hs => simp [SharedMutex.State.next,SharedMutex.State.advance,hs]
    | inr hs => simp [SharedMutex.State.next,SharedMutex.State.advance,hs]

theorem Locked.Sheltered.lock {a : SharedMutex.Act} (h : w.Sheltered)
    (hg : w.StoresInTime (id,.lock a))
    (hn : (Locked.machine T threads).next w (id,.lock a)=some w') : w'.Sheltered := by
  simp only [Locked.machine,Locked.next] at hn
  split_ifs at hn with hallow
  obtain ⟨m,hm,rfl⟩ := Option.map_eq_some_iff.mp hn
  have hblock : a.Blocking := by cases a <;> trivial
  have hstep : (SharedMutex.machine T threads SharedMutex.Act.Blocking).next w.mutex (id,a)=
      some m := by
    change (if a.Blocking then w.mutex.next id a else none)=some m
    rw [if_pos hblock,hm]
  obtain ⟨hslots,hscanned⟩ := SharedMutex.inv_next ⟨h.slots,h.scanned⟩ hg hstep
  -- a thread that has to stay in its section is not the one that steps
  have hstays : ∀ t, w.mutex.InShared t → (w.done t=false ∨ w.visit t ≠ none) →
      t ≠ id ∧ m.InShared t := by
    intro t hin hd
    have ht : t ≠ id := by
      rintro rfl
      rw [Locked.next_mutex_inside hin hd hallow] at hm
      cases hm
    refine ⟨ht,?_⟩
    rw [SharedMutex.State.InShared,SharedMutex.pc_other (SharedMutex.moves_next hm) ht]
    exact hin
  refine ⟨h.settled.next hstep,hslots,hscanned,h.reading,?_,?_,h.apart,h.keys⟩
  · intro t ht
    obtain ⟨hin,hdone⟩ := h.inside t ht
    obtain ⟨hid,hin'⟩ := hstays t hin (.inl hdone)
    exact ⟨hin',by simpa [Function.update_of_ne hid] using hdone⟩
  · intro v hv
    exact (hstays v.id (h.visiting v hv) (.inr (Locked.visit_ne_none hv))).2

theorem Locked.begins {m : Move T}
    (hn : (Locked.machine T threads).next w (id,.begin m)=some w') :
    ∃ crowd, (∀ answers, m ≠ .advance answers) ∧ w.crowd.next (id,m)=some crowd ∧
      w'={ w with crowd := crowd } := by
  have hn : w.next (id,.begin m)=some w' := hn
  cases m with
  | advance answers => cases hn
  | allocate _ _ | deallocate _ =>
    simp only [Locked.next] at hn
    split_ifs at hn
    obtain ⟨crowd,hc,rfl⟩ := Option.map_eq_some_iff.mp hn
    exact ⟨crowd,nofun,hc,rfl⟩

theorem Locked.Sheltered.begin {m : Move T} (h : w.Sheltered)
    (hn : (Locked.machine T threads).next w (id,.begin m)=some w') : w'.Sheltered := by
  obtain ⟨crowd,hm,hc,rfl⟩ := Locked.begins hn
  obtain ⟨p,hs,hidle,hphase,hreaders⟩ := Crowd.begin_phase hm hc
  have hp : p.searches=(w.crowd.phase id).searches := by rw [hs,hidle]; rfl
  obtain ⟨ho,hr⟩ := Crowd.rereads_keeps hphase hreaders hp
  have hkeys : crowd.keys=w.crowd.keys :=
    congrArg (List.map Prod.fst) (Crowd.local_begin hm hc w.crowd.buckets).1
  refine ⟨h.settled,h.slots,h.scanned,h.reading.step ho hr,?_,h.visiting,h.apart,?_⟩
  · intro t ht
    by_cases hid : t=id
    · subst hid
      rw [hphase,Function.update_self,hs] at ht
      cases ht
    · rw [ho t hid] at ht
      exact h.inside t ht
  · intro v hv
    rw [hkeys]
    exact h.keys v hv

/-- A thread does what it took the lock for. -/
theorem Locked.Sheltered.worked {crowd : Crowd T} {b : Bool} {visits : List (Visit T)}
    (h : w.Sheltered) (hp : (crowd.phase id).searches=true → w.mutex.InShared id ∧ b=false)
    (ho : ∀ t, t ≠ id → crowd.phase t=w.crowd.phase t) (hr : w.crowd.Rereads id crowd)
    (hv : ∀ v ∈ visits, w.mutex.InShared v.id) (ha : (visits.map Visit.it).Nodup)
    (hk : ∀ v ∈ visits, crowd.keys[v.it]?=some v.pair.1) :
    Locked.Sheltered ⟨w.mutex,crowd,visits,Function.update w.done id b⟩ := by
  refine ⟨h.settled,h.slots,h.scanned,h.reading.step ho hr,?_,hv,ha,hk⟩
  intro t ht
  by_cases hid : t=id
  · subst hid
    simpa using hp ht
  · simp only [ho t hid] at ht
    simpa [Function.update_of_ne hid] using h.inside t ht

omit [DecidableEq T] in
/-- Who puts a bucket into the map is alone there. -/
theorem Locked.Sheltered.alone (h : w.Sheltered) (hpc : w.mutex.pc id=.exclusive) (u : T) :
    ¬ w.mutex.InShared u := by
  intro hin
  cases hin with
  | inl hshared => exact SharedMutex.excludes_of_scanned h.slots h.scanned id u hpc hshared
  | inr hspill =>
    obtain ⟨owner,ho⟩ := h.settled.1
    obtain rfl := ho.guarded.one id u (.inl hpc) (.inr hspill)
    cases hpc.symm.trans hspill

omit [DecidableEq T] in
theorem Locked.Sheltered.nobody (h : w.Sheltered) (hpc : w.mutex.pc id=.exclusive) :
    w.crowd.readers=[] ∧ w.visits=[] := by
  constructor
  · refine List.eq_nil_iff_forall_not_mem.mpr fun u hu => ?_
    exact h.alone hpc u (h.inside u (h.reading.searches u hu)).1
  · exact List.eq_nil_iff_forall_not_mem.mpr fun v hv => h.alone hpc v.id (h.visiting v hv)

omit [DecidableEq T] in
/-- The visits to come do not change whose bucket is where. -/
theorem Locked.Sheltered.keys_settled (h : w.Sheltered) : w.settled.keys=w.crowd.keys := by
  refine Pending.map_settle ?_
  intro x hx
  obtain ⟨v,hv,rfl⟩ := List.mem_map.mp hx
  exact h.keys v hv

omit [DecidableEq T] in
/-- Nor does one of them. -/
theorem Locked.Sheltered.keys_set {v : Visit T} (h : w.Sheltered) (hm : v ∈ w.visits) :
    (w.crowd.buckets.set v.it v.pair).map Prod.fst=w.crowd.keys := by
  obtain ⟨hi,he⟩ := List.getElem?_eq_some_iff.mp (h.keys v hm)
  rw [List.map_set,← he]
  exact List.set_getElem_self hi

/-- The bucket a thread is in, when all have left theirs. -/
theorem Locked.Sheltered.settled_mid {v : Visit T} (h : w.Sheltered) (hv : w.visit id=some v) :
    v ∈ w.visits ∧ v.id=id ∧ (∀ u ∈ w.otherVisits id, u.it ≠ v.it) ∧
    ((w.otherVisits id).map Visit.it).Nodup ∧
    w.settled.buckets=(Pending.settle w.crowd.buckets
      ((w.otherVisits id).map fun u => (u.it,u.pair))).set v.it v.pair := by
  obtain ⟨lo,hi,hs,hid,hother⟩ := Locked.visit_mid hv
  have hnodup := h.apart
  rw [hs,List.map_append,List.map_cons] at hnodup
  have hperm : (lo.map Visit.it ++ v.it :: hi.map Visit.it).Perm
      (v.it :: (lo ++ hi).map Visit.it) := by
    rw [List.map_append]
    exact List.perm_middle
  obtain ⟨hnot,hrest⟩ := List.nodup_cons.mp (hperm.nodup_iff.mp hnodup)
  have hne : ∀ u ∈ lo ++ hi, u.it ≠ v.it := fun u hu he => hnot (he ▸ List.mem_map_of_mem hu)
  refine ⟨hs ▸ List.mem_append_right _ List.mem_cons_self,hid,?_,?_,?_⟩
  · rw [hother]
    exact hne
  · rw [hother]
    exact hrest
  · simp only [Locked.settled]
    rw [hother,hs,List.map_append,List.map_cons,List.map_append]
    refine Pending.settle_mid ?_
    intro x hx
    obtain ⟨u,hu,rfl⟩ := List.mem_map.mp hx
    exact hne u (List.mem_append_left _ hu)

theorem Locked.Sheltered.enter (h : w.Sheltered) (hg : w.EntersAlone (id,.enter))
    (hn : w.enter id=some w') : w'.Sheltered ∧ w'.settled=w.settled := by
  rw [Locked.enter] at hn
  split at hn
  · next it _ hplace =>
    split_ifs at hn with hin
    obtain ⟨pair,hpair,rfl⟩ := Option.map_eq_some_iff.mp hn
    have hne : ∀ v ∈ w.visits, v.it ≠ it := fun v hv he => hg v hv (he ▸ hplace)
    have hkey : w.crowd.keys[it]?=some pair.1 := by
      rw [Crowd.keys,List.getElem?_map,hpair,Option.map_some]
    refine ⟨⟨h.settled,h.slots,h.scanned,h.reading,h.inside,?_,?_,?_⟩,?_⟩
    · exact List.forall_mem_cons.mpr ⟨hin.1,h.visiting⟩
    · refine List.nodup_cons.mpr ⟨?_,h.apart⟩
      rintro hm
      obtain ⟨v,hv,he⟩ := List.mem_map.mp hm
      exact hne v hv he
    · exact List.forall_mem_cons.mpr ⟨hkey,h.keys⟩
    · simp only [Locked.settled,List.map_cons]
      rw [Pending.settle_same hpair]
      intro x hx
      obtain ⟨v,hv,rfl⟩ := List.mem_map.mp hx
      exact hne v hv
  · cases hn

theorem Locked.Sheltered.leave (h : w.Sheltered) (hn : w.leave id=some w') :
    w'.Sheltered ∧ w'.settled=w.settled := by
  rw [Locked.leave] at hn
  cases hv : w.visit id with
  | none => simp [hv] at hn
  | some v =>
    simp only [hv] at hn
    split_ifs at hn
    obtain rfl := Option.some.inj hn
    obtain ⟨hm,_,hne,hnodup,hsettled⟩ := h.settled_mid hv
    have hkeys := h.keys_set hm
    refine ⟨⟨h.settled,h.slots,h.scanned,⟨h.reading.nodup,h.reading.searches⟩,h.inside,?_,hnodup,
      ?_⟩,?_⟩
    · exact fun u hu => h.visiting u (Locked.mem_otherVisits hu)
    · intro u hu
      change ((w.crowd.buckets.set v.it v.pair).map Prod.fst)[u.it]?=_
      rw [hkeys]
      exact h.keys u (Locked.mem_otherVisits hu)
    · have hset : Pending.settle (w.crowd.buckets.set v.it v.pair)
          ((w.otherVisits id).map fun u => (u.it,u.pair))=w.settled.buckets := by
        rw [hsettled]
        refine Pending.settle_set ?_
        intro x hx
        obtain ⟨u,hu,rfl⟩ := List.mem_map.mp hx
        exact hne u hu
      rw [Locked.settled,hset]
      rfl

/-- A thread works on its copy of a bucket: when all have left theirs, that is a step of threads
whose sections are one step each. -/
theorem Locked.Sheltered.inside_step {v : Visit T} {crowd : Crowd T} {pair : T × Bucket}
    {answers : List Nat} (h : w.Sheltered) (hr : (w.crowd.phase id).reads=true)
    (hplace : w.crowd.place id=some v.it) (hv : w.visit id=some v)
    (hc : Crowd.next { w.crowd with buckets := w.crowd.buckets.set v.it v.pair }
      (id,.advance answers)=some crowd) (hpair : crowd.buckets[v.it]?=some pair) :
    pair.1=v.pair.1 ∧ w.settled.next (id,.advance answers)=some { crowd with
      buckets := Pending.settle w.crowd.buckets
        ((⟨id,v.it,pair⟩ :: w.otherVisits id).map fun u => (u.it,u.pair)) } := by
  obtain ⟨hm,_,hne,_,hsettled⟩ := h.settled_mid hv
  have hkey := h.keys v hm
  have hlt : v.it < w.crowd.buckets.length := by
    obtain ⟨hi,_⟩ := List.getElem?_eq_some_iff.mp hkey
    rwa [Crowd.keys,List.length_map] at hi
  have hkeys := h.keys_set hm
  have hplace' := (Crowd.place_congr hkeys id).trans hplace
  have hview : (w.crowd.buckets.set v.it v.pair)[v.it]?=some v.pair :=
    List.getElem?_set_self hlt
  have hthere : w.settled.buckets[v.it]?=some v.pair := by
    have hlen : w.settled.buckets.length=w.crowd.buckets.length :=
      Crowd.length_of_keys h.keys_settled
    rw [hsettled,List.length_set] at hlen
    rw [hsettled]
    exact List.getElem?_set_self (hlen ▸ hlt)
  have hlocal := Crowd.local_next (w := { w.crowd with
    buckets := w.crowd.buckets.set v.it v.pair }) w.settled.buckets hr
    (h.keys_settled.trans hkeys.symm) (fun it hit => by
      obtain rfl := Option.some.inj (hplace'.symm.trans hit)
      exact hthere.trans hview.symm) hc
  cases hlocal with
  | outside hnone _ _ => cases hnone.symm.trans hplace'
  | @inside it old new hit hold hfst hset hstep =>
    obtain rfl := Option.some.inj (hplace'.symm.trans hit)
    obtain rfl := Option.some.inj (hview.symm.trans hold)
    have hnew : crowd.buckets[v.it]?=some new := by
      rw [hset]
      exact List.getElem?_set_self (by simpa using hlt)
    obtain rfl := Option.some.inj (hnew.symm.trans hpair)
    have hbuckets : w.settled.buckets.set v.it new=Pending.settle w.crowd.buckets
        ((⟨id,v.it,new⟩ :: w.otherVisits id).map fun u => (u.it,u.pair)) := by
      rw [hsettled,List.set_set]
      rfl
    rw [hbuckets] at hstep
    exact ⟨hfst,hstep⟩

/-- What a thread does under its lock is a step of threads whose sections are one step each. -/
theorem Locked.Sheltered.work {answers : List Nat} (h : w.Sheltered)
    (hn : w.work id answers=some w') :
    w'.Sheltered ∧ w.settled.next (id,.advance answers)=some w'.settled := by
  cases Locked.works_of_work hn with
  | @emplaces b next hp hpc =>
    obtain ⟨hreaders,hvisits⟩ := h.nobody hpc
    have hall : w.settled=w.crowd := by simp [Locked.settled,hvisits]
    have hc : w.crowd.next (id,.advance answers)=
        some ((w.crowd.put (w.crowd.interface.supply answers)).emplaced id b next) := by
      simp only [Crowd.next,Crowd.advance,Crowd.put,Crowd.emplaced,hp,hreaders,if_true]
    obtain ⟨ho,hr⟩ := Crowd.rereads_next hc
    refine ⟨h.worked ?_ ho hr h.visiting h.apart (by simp [hvisits]),?_⟩
    · intro hs
      simp [Crowd.emplaced,Crowd.goto,Phase.searches_after] at hs
    · rw [hall,hc]
      simp [Locked.settled,hvisits]
  | @builds next crowd hp hc =>
    obtain ⟨ho,hr⟩ := Crowd.rereads_next hc
    obtain ⟨hsame,hstep⟩ := Crowd.local_building hp hc w.settled.buckets
    have hkeys : crowd.keys=w.crowd.keys := congrArg (List.map Prod.fst) hsame
    have hidle : Function.update w.done id (w.done id)=w.done := Function.update_eq_self _ _
    have hw : Locked.Sheltered ⟨w.mutex,crowd,w.visits,_⟩ := h.worked (b := w.done id)
      (fun hs => by simp [Crowd.searches_of_building hp hc] at hs) ho hr h.visiting h.apart
      (fun v hv => hkeys ▸ h.keys v hv)
    rw [hidle] at hw
    refine ⟨hw,hstep.trans ?_⟩
    simp only [Locked.settled,hsame]
  | @outside crowd hreads hin hplace hc =>
    obtain ⟨ho,hr⟩ := Crowd.rereads_next hc
    have hlocal := Crowd.local_next w.settled.buckets hreads h.keys_settled
      (fun it hit => by cases hplace.symm.trans hit) hc
    cases hlocal with
    | inside _ hit _ _ _ _ => cases hplace.symm.trans hit
    | outside _ hsame hstep =>
      have hkeys : crowd.keys=w.crowd.keys := congrArg (List.map Prod.fst) hsame
      refine ⟨h.worked ?_ ho hr h.visiting h.apart (fun v hv => hkeys ▸ h.keys v hv),
        hstep.trans ?_⟩
      · intro hs
        exact ⟨hin,by rw [hs]; rfl⟩
      · simp only [Locked.settled,hsame]
  | @inside v crowd pair hreads hin hplace hv hc hpair =>
    obtain ⟨hm,hid,hne,hnodup,_⟩ := h.settled_mid hv
    obtain ⟨hfst,hstep⟩ := h.inside_step hreads hplace hv hc hpair
    obtain ⟨ho,hr⟩ := Crowd.rereads_next hc
    refine ⟨h.worked ?_ ho ?_ ?_ ?_ ?_,hstep⟩
    · intro hs
      exact ⟨hin,by rw [hs]; rfl⟩
    · cases hr with
      | keeps he hs => exact .keeps he hs
      | enters he hout hi => exact .enters he hout hi
      | leaves he => exact .leaves he
    · exact List.forall_mem_cons.mpr ⟨hin,fun u hu => h.visiting u (Locked.mem_otherVisits hu)⟩
    · refine List.nodup_cons.mpr ⟨?_,hnodup⟩
      intro hx
      obtain ⟨u,hu,he⟩ := List.mem_map.mp hx
      exact hne u hu he
    · refine List.forall_mem_cons.mpr ⟨?_,fun u hu => h.keys u (Locked.mem_otherVisits hu)⟩
      exact (h.keys v hm).trans (congrArg some hfst.symm)

theorem Locked.sheltered_start (h : (Locked.machine T threads).start w) : w.Sheltered := by
  obtain ⟨hm,⟨_,_,_,hc⟩,hv,_⟩ := h
  refine ⟨hm ▸ SharedMutex.settled_initial threads,hm ▸ SharedMutex.slots_initial threads,
    hm ▸ SharedMutex.scanned_initial threads,⟨?_,?_⟩,?_,?_,?_,?_⟩
  all_goals simp [hc,hv,Phase.searches]

theorem Locked.Sheltered.next {i : T × Turn T} (h : w.Sheltered)
    (hg : w.StoresInTime i ∧ w.EntersAlone i)
    (hn : (Locked.machine T threads).next w i=some w') : w'.Sheltered := by
  obtain ⟨id,turn⟩ := i
  cases turn with
  | begin m => exact h.begin hn
  | lock a => exact h.lock hg.1 hn
  | enter => exact (h.enter hg.2 hn).1
  | work answers => exact (h.work hn).1
  | leave => exact (h.leave hn).1

/-- A step of a call is one of threads whose sections are one step each; the others leave what will be
when all have left their buckets as it is. -/
theorem Locked.Sheltered.abstracts {i : T × Turn T} (h : w.Sheltered) (hg : w.EntersAlone i)
    (hn : (Locked.machine T threads).next w i=some w') :
    (Turn.move i).elim (w'.settled=w.settled) fun k =>
      (Crowd.machine T).next w.settled k=some w'.settled := by
  obtain ⟨id,turn⟩ := i
  cases turn with
  | begin m =>
    obtain ⟨crowd,hm,hc,rfl⟩ := Locked.begins hn
    obtain ⟨hsame,hstep⟩ := Crowd.local_begin hm hc w.settled.buckets
    refine hstep.trans ?_
    simp only [Locked.settled,hsame]
  | lock a =>
    simp only [Locked.machine,Locked.next] at hn
    split_ifs at hn
    obtain ⟨_,_,rfl⟩ := Option.map_eq_some_iff.mp hn
    rfl
  | enter => exact (h.enter hg hn).2
  | work answers => exact (h.work hn).2
  | leave => exact (h.leave hn).2

/-- What is kept in a run, and what it is a run of. -/
theorem Locked.refines {h : List (Locked T × (T × Turn T))}
    (r : (Locked.machine T threads).Run h w) (hg : ∀ e ∈ h, e.1.StoresInTime e.2)
    (ha : ∀ e ∈ h, e.1.EntersAlone e.2) :
    (∀ t ∈ Machine.visited h w, t.Sheltered) ∧
    (Crowd.machine T).Run (h.filterMap fun e => (Turn.move e.2).map fun k => (e.1.settled,k))
      w.settled := by
  classical
  let guard (s : Locked T) (i : T × Turn T) : Prop := s.StoresInTime i ∧ s.EntersAlone i
  let M := (Locked.machine T threads).restrict guard
  have hguard : ∀ e ∈ h, guard e.1 e.2 := fun e he => ⟨hg e he,ha e he⟩
  have hgood : ∀ t ∈ Machine.visited h w, t.Sheltered :=
    r.always (fun _ => Locked.sheltered_start)
      (fun _ _ _ hi hg hn => hi.next hg hn) hguard
  have hstart : ∀ w, M.start w → (Crowd.machine T).start w.settled := by
    rintro w ⟨_,hc,hv,_⟩
    rwa [Locked.settled,hv]
  have hstep : ∀ s i s', s.Sheltered → M.next s i=some s' → (Turn.move i).elim (s'.settled=s.settled)
      fun k => (Crowd.machine T).next s.settled k=some s'.settled := by
    intro s i s' hi hn
    obtain ⟨hx,hn⟩ := Machine.restrict_next.mp hn
    exact hi.abstracts hx.2 hn
  exact ⟨hgood,Machine.Run.refines hstart hstep (r.restrict hguard) hgood⟩

/-- Under the mutex of the map, where no reader stores `SharedLock` too late and no thread goes into a
bucket that another one is in, sections that overlap do what sections of one step each do, once
all threads have left their buckets. Who has the exclusive lock finds no thread in a section. -/
theorem sections_refine {h : List (Locked T × (T × Turn T))}
    (r : (Locked.machine T threads).Run h w) (hg : ∀ e ∈ h, e.1.StoresInTime e.2)
    (ha : ∀ e ∈ h, e.1.EntersAlone e.2) :
    (Crowd.machine T).Run (h.filterMap fun e => (Turn.move e.2).map fun k => (e.1.settled,k))
      w.settled ∧
    ∀ t ∈ Machine.visited h w, ∀ id, t.mutex.pc id=.exclusive →
      t.visits=[] ∧ ∀ u, ¬ t.mutex.InShared u := by
  obtain ⟨hgood,hrun⟩ := Locked.refines r hg ha
  refine ⟨hrun,?_⟩
  intro t ht id hpc
  exact ⟨((hgood t ht).nobody hpc).2,(hgood t ht).alone hpc⟩

end Locks

namespace Locked

/-- Three threads, a mutex with two slots, and four superblocks. -/
def first : Locked (Fin 3) where
  mutex := SharedMutex.initial (Fin 3) 2
  crowd := ⟨(GlobalDispatch.make ⟨[2^20,2^21,3*2^20,2^22],[],[]⟩).1,[],[],[],fun _ => .idle,
    [],[],[],[]⟩
  visits := []
  done := fun _ => false

theorem start_first : (machine (Fin 3) 2).start first :=
  ⟨rfl,⟨_,_,Prod.ext rfl (by decide +kernel),rfl⟩,rfl,rfl⟩

/-- The first section of the thread `t`, which registers with the mutex in it and finds no bucket. -/
def lookup (t : Fin 3) (n : Nat) : List (Fin 3 × Turn (Fin 3)) :=
  (t,.lock .lockShared) :: List.replicate n (t,.lock .advance) ++
    [(t,.work []),(t,.lock .unlockShared)]

/-- `registerThread`. -/
def register (t : Fin 3) : List (Fin 3 × Turn (Fin 3)) :=
  (t,.work []) :: (t,.lock .lock) :: List.replicate 4 (t,.lock .advance) ++
    [(t,.work []),(t,.lock .unlock)]

/-- A section in the bucket of the thread. -/
def visitOwn (t : Fin 3) : List (Fin 3 × Turn (Fin 3)) :=
  [(t,.lock .lockShared),(t,.lock .advance),(t,.lock .advance),(t,.enter),(t,.work []),(t,.leave),
    (t,.lock .unlockShared)]

/-- Up to the first bucket of `iterate`. -/
def seek (t : Fin 3) : List (Fin 3 × Turn (Fin 3)) :=
  [(t,.lock .lockShared),(t,.lock .advance),(t,.lock .advance),(t,.work [])]

/-- Threads 0 and 1 with a block each, and both about to give back that of the other. -/
def crossing : List (Fin 3 × Turn (Fin 3)) :=
  (0,.begin (.allocate 48 2)) :: lookup 0 3 ++ register 0 ++ visitOwn 0 ++
    (1,.begin (.allocate 8 1)) :: lookup 1 4 ++ register 1 ++ visitOwn 1 ++
    (2,.begin (.allocate 24 1)) :: lookup 2 4 ++ [(2,.work [])] ++
    (0,.begin (.deallocate ⟨5095424,1,8,1⟩)) :: visitOwn 0 ++
    (1,.begin (.deallocate ⟨5210112,0,48,2⟩)) :: visitOwn 1 ++
    seek 0 ++ [(0,.work []),(0,.enter)] ++ seek 1 ++ [(1,.enter)]

/-- Each of the two is in the bucket of the other, where one is done, and a third thread waits for
both with a bucket of its own. -/
theorem run_crossing : ∃ (h : List (Locked (Fin 3) × (Fin 3 × Turn (Fin 3)))) (w : Locked (Fin 3)),
    (machine (Fin 3) 2).Run h w ∧ (∀ e ∈ h, e.1.StoresInTime e.2) ∧
    (∀ e ∈ h, e.1.EntersAlone e.2) ∧ w.visits.map (fun v => (v.id,v.it))=[(0,1),(1,0)] ∧
    w.crowd.leaving=[⟨5210112,0,48,2⟩] ∧ (w.crowd.phase 2).writes=true ∧ w.mutex.pc 2=.scan 0 := by
  let M := (machine (Fin 3) 2).restrict fun w i => w.StoresInTime i ∧ w.EntersAlone i
  obtain ⟨w,⟨h,r⟩,hw⟩ := Machine.reachable_of_runFrom M first
    (crossing ++ [(2,.lock .lock),(2,.lock .advance),(2,.lock .advance),(0,.work [])])
    (fun w => w.visits.map (fun v => (v.id,v.it))=[(0,1),(1,0)] ∧
      w.crowd.leaving=[⟨5210112,0,48,2⟩] ∧ (w.crowd.phase 2).writes=true ∧ w.mutex.pc 2=.scan 0)
    start_first (by decide +kernel)
  obtain ⟨hr,hg⟩ := r.of_restrict
  exact ⟨h,w,hr,fun e he => (hg e he).1,fun e he => (hg e he).2,hw⟩

end Locked

theorem sections_refine_waiting : ∃ (h : List (Locked (Fin 3) × (Fin 3 × Turn (Fin 3))))
    (w : Locked (Fin 3)),
    (w.visits.map (fun v => (v.id,v.it))=[(0,1),(1,0)] ∧ (w.crowd.phase 2).writes=true ∧
      w.mutex.pc 2=.scan 0) ∧
    (Crowd.machine (Fin 3)).Run
      (h.filterMap fun e => (Turn.move e.2).map fun k => (e.1.settled,k)) w.settled := by
  obtain ⟨h,w,r,hg,ha,hv,_,hw⟩ := Locked.run_crossing
  exact ⟨h,w,⟨hv,hw⟩,(sections_refine r hg ha).1⟩

/-- When a thread stores after another has looked at its slot, the `emplace` of that one goes ahead
in the middle of the `iterate`. -/
theorem late_store_emplaces : ∃ w : Locked (Fin 3), (Locked.machine (Fin 3) 2).Reachable w ∧
    w.crowd.readers=[1] ∧ (w.crowd.phase 2).writes=true ∧
    ((Locked.machine (Fin 3) 2).next w (2,.work [])).isSome=true ∧
    ((Crowd.machine (Fin 3)).next w.settled (2,.advance [])).isSome=false :=
  Machine.reachable_of_runFrom (Locked.machine (Fin 3) 2) Locked.first
    ((0,.begin (.allocate 48 2)) :: Locked.lookup 0 3 ++ Locked.register 0 ++ Locked.visitOwn 0 ++
      (1,.begin (.deallocate ⟨5210112,0,48,2⟩)) :: Locked.lookup 1 4 ++
      (2,.begin (.allocate 24 1)) :: Locked.lookup 2 4 ++
      [(2,.work []),(1,.lock .lockShared),(1,.lock .advance),(2,.lock .lock)] ++
      List.replicate 4 (2,.lock .advance) ++ [(1,.lock .advance),(1,.work [])])
    (fun w => w.crowd.readers=[1] ∧ (w.crowd.phase 2).writes=true ∧
      ((Locked.machine (Fin 3) 2).next w (2,.work [])).isSome=true ∧
      ((Crowd.machine (Fin 3)).next w.settled (2,.advance [])).isSome=false)
    Locked.start_first (by decide +kernel)

/-- When a thread goes into the bucket in which another gives back a block, no store is late, and a
block is handed out twice. -/
theorem shared_visit_hands_out_twice : ∃ (h : List (Locked (Fin 3) × (Fin 3 × Turn (Fin 3))))
    (w : Locked (Fin 3)), (Locked.machine (Fin 3) 2).Run h w ∧
    (∀ e ∈ h, e.1.StoresInTime e.2) ∧ w.visits=[] ∧
    w.crowd.live=[⟨5210240,0,48,2⟩,⟨5210240,0,48,2⟩] := by
  let M := (Locked.machine (Fin 3) 2).restrict fun w i => w.StoresInTime i
  obtain ⟨w,⟨h,r⟩,hv,hw⟩ := Machine.reachable_of_runFrom M Locked.first
    ((0,.begin (.allocate 48 2)) :: Locked.lookup 0 3 ++ Locked.register 0 ++ Locked.visitOwn 0 ++
      (1,.begin (.deallocate ⟨5210112,0,48,2⟩)) :: Locked.lookup 1 4 ++ Locked.seek 1 ++ [(1,.enter)] ++
      (0,.begin (.allocate 48 2)) :: Locked.visitOwn 0 ++ [(1,.work []),(1,.leave)] ++
      (0,.begin (.allocate 48 2)) :: Locked.visitOwn 0)
    (fun w => w.visits.length=0 ∧ w.crowd.live=[⟨5210240,0,48,2⟩,⟨5210240,0,48,2⟩])
    Locked.start_first (by decide +kernel)
  obtain ⟨hr,hg⟩ := r.of_restrict
  exact ⟨h,w,hr,hg,List.length_eq_zero_iff.mp hv,hw⟩

end Allocators.SlabMulti
