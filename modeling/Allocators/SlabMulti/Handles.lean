import Allocators.Lib.Vector
import Allocators.Lib.Run
import Mathlib.Tactic.Ring

/-! The `SlabMulti` handles of shared `Interface`s and the count that is to tell how many there
are. `none` is the use of a handle that does not exist or of an `Interface` that was deleted. -/

namespace Allocators.SlabMulti

open Lib Vector

/-- The value an `int` keeps of a number. -/
def toInt (n : Int) : Int := n.bmod (2^32)

/-- What `SlabMulti` sees of an `Interface`, and whether it was deleted. -/
structure Shared where
  refCount : Int
  deleted : Bool
  deriving DecidableEq, Repr

/-- The `Interface`s made so far, which their positions name, and the `interfacePtr` of each
handle. -/
structure Handles where
  interfaces : List Shared
  handles : List Nat
  deriving DecidableEq, Repr

/-- The special members; `rebound` tells the template from the one for the same type. -/
inductive Member
  | make
  | copy (rebound : Bool) (other : Nat)
  | move (rebound : Bool) (other : Nat)
  | copyAssign (rebound : Bool) (this other : Nat)
  | moveAssign (rebound : Bool) (this other : Nat)
  | destroy (this : Nat)
  deriving DecidableEq, Repr

namespace Handles

/-- `incRef`. -/
def incRef (s : Handles) (p : Nat) : Option Handles :=
  match s.interfaces[p]? with
  | some ⟨refCount,false⟩ =>
    some { s with interfaces := s.interfaces.set p ⟨toInt (refCount+1),false⟩ }
  | _ => none

/-- `decRef`, which compares the count from before. -/
def decRef (s : Handles) (p : Nat) : Option Handles :=
  match s.interfaces[p]? with
  | some ⟨refCount,false⟩ =>
    some { s with interfaces := s.interfaces.set p ⟨toInt (refCount-1),decide (refCount < 1)⟩ }
  | _ => none

/-- `SlabMulti()`. -/
def make (s : Handles) : Handles :=
  ⟨s.interfaces ++ [⟨1,false⟩],s.handles ++ [s.interfaces.length]⟩

/-- What all constructors from another handle do. -/
def constructFrom (s : Handles) (other : Nat) : Option Handles :=
  match s.handles[other]? with
  | none => none
  | some p => (s.incRef p).map fun s => { s with handles := s.handles ++ [p] }

/-- What all assignments do. -/
def assignFrom (s : Handles) (this other : Nat) : Option Handles :=
  match s.handles[this]?,s.handles[other]? with
  | some p,some q => (s.decRef p).map fun s => { s with handles := s.handles.set this q }
  | _,_ => none

/-- `SlabMulti(const SlabMulti&)`. -/
def copy (s : Handles) (other : Nat) : Option Handles := s.constructFrom other

/-- `SlabMulti(const SlabMulti<U>&)`. -/
def copyRebound (s : Handles) (other : Nat) : Option Handles := s.constructFrom other

/-- `SlabMulti(SlabMulti&&)`. -/
def move (s : Handles) (other : Nat) : Option Handles := s.constructFrom other

/-- `SlabMulti(SlabMulti<U>&&)`. -/
def moveRebound (s : Handles) (other : Nat) : Option Handles := s.constructFrom other

/-- `operator=(const SlabMulti&)`. -/
def copyAssign (s : Handles) (this other : Nat) : Option Handles := s.assignFrom this other

/-- `operator=(const SlabMulti<U>&)`. -/
def copyAssignRebound (s : Handles) (this other : Nat) : Option Handles := s.assignFrom this other

/-- `operator=(SlabMulti&&)`. -/
def moveAssign (s : Handles) (this other : Nat) : Option Handles := s.assignFrom this other

/-- `operator=(SlabMulti<U>&&)`. -/
def moveAssignRebound (s : Handles) (this other : Nat) : Option Handles := s.assignFrom this other

/-- `~SlabMulti()`. -/
def destroy (s : Handles) (this : Nat) : Option Handles :=
  match s.handles[this]? with
  | none => none
  | some p => (s.decRef p).map fun s => { s with handles := s.handles.eraseIdx this }

def serve (s : Handles) : Member → Option Handles
  | .make => some s.make
  | .copy false other => s.copy other
  | .copy true other => s.copyRebound other
  | .move false other => s.move other
  | .move true other => s.moveRebound other
  | .copyAssign false this other => s.copyAssign this other
  | .copyAssign true this other => s.copyAssignRebound this other
  | .moveAssign false this other => s.moveAssign this other
  | .moveAssign true this other => s.moveAssignRebound this other
  | .destroy this => s.destroy this

def machine : Machine Handles Member where
  start s := s=⟨[],[]⟩
  next := serve

/-- An `Interface` is there exactly as long as a handle points to it. -/
def Owned (s : Handles) : Prop :=
  ∀ (p : Nat) (i : Shared), s.interfaces[p]?=some i → (i.deleted=false ↔ p ∈ s.handles)

/-- The handle whose pointer a member gives up. -/
def released : Member → Option Nat
  | .copyAssign _ this _ | .moveAssign _ this _ | .destroy this => some this
  | _ => none

/-- The pointers that are left. -/
def remaining (s : Handles) : Member → List Nat
  | .copyAssign _ this other | .moveAssign _ this other =>
    match s.handles[other]? with
    | some q => s.handles.set this q
    | none => s.handles
  | .destroy this => s.handles.eraseIdx this
  | _ => s.handles

/-- Where a pointer is given up, the count is at least 1 exactly if a handle is left. -/
def CountsRight (s : Handles) (m : Member) : Prop :=
  ∀ this ∈ released m, ∀ p ∈ s.handles[this]?, ∀ i ∈ s.interfaces[p]?,
    (p ∈ s.remaining m ↔ 1 ≤ i.refCount)

instance (s : Handles) (m : Member) : Decidable (s.CountsRight m) :=
  inferInstanceAs (Decidable (∀ this ∈ _, _))

/-- The member is an assignment that points one more handle to `p`. -/
def Gains (p : Nat) : Handles × Member → Bool
  | (s,.copyAssign _ _ other) | (s,.moveAssign _ _ other) => decide (s.handles[other]?=some p)
  | _ => false

/-- The handles that point to `p`, less the assignments that made one of them. -/
def tally (s : Handles) (h : List (Handles × Member)) (p : Nat) : Int :=
  toInt (s.handles.count p-(h.countP (Gains p) : Nat))

/-- The same with the handles and the assignments so far instead of the count. -/
def Tallies (s : Handles) (h : List (Handles × Member)) (m : Member) : Prop :=
  ∀ this ∈ released m, ∀ p ∈ s.handles[this]?, (p ∈ s.remaining m ↔ 1 ≤ s.tally h p)

/-- The invariant: besides, every pointer is that of an `Interface`. -/
structure Tracked (s : Handles) : Prop where
  owned : s.Owned
  valid : ∀ p ∈ s.handles, p < s.interfaces.length

section Members

variable {s s' : Handles} {p q this other : Nat} {i : Shared} {left : List Nat}

theorem incRef_cases (h : s.incRef p=some s') :
    ∃ r, s.interfaces[p]?=some ⟨r,false⟩ ∧
      s'=⟨s.interfaces.set p ⟨toInt (r+1),false⟩,s.handles⟩ := by
  cases hi : s.interfaces[p]? with
  | none => simp [incRef,hi] at h
  | some i =>
    obtain ⟨r,deleted⟩ := i
    cases deleted with
    | true => simp [incRef,hi] at h
    | false =>
      simp only [incRef,hi,Option.some.injEq] at h
      exact ⟨r,rfl,h.symm⟩

theorem decRef_cases (h : s.decRef p=some s') :
    ∃ r, s.interfaces[p]?=some ⟨r,false⟩ ∧
      s'=⟨s.interfaces.set p ⟨toInt (r-1),decide (r < 1)⟩,s.handles⟩ := by
  cases hi : s.interfaces[p]? with
  | none => simp [decRef,hi] at h
  | some i =>
    obtain ⟨r,deleted⟩ := i
    cases deleted with
    | true => simp [decRef,hi] at h
    | false =>
      simp only [decRef,hi,Option.some.injEq] at h
      exact ⟨r,rfl,h.symm⟩

theorem constructFrom_cases (h : s.constructFrom other=some s') :
    ∃ p r, s.handles[other]?=some p ∧ s.interfaces[p]?=some ⟨r,false⟩ ∧
      s'=⟨s.interfaces.set p ⟨toInt (r+1),false⟩,s.handles ++ [p]⟩ := by
  cases hp : s.handles[other]? with
  | none => simp [constructFrom,hp] at h
  | some p =>
    simp only [constructFrom,hp] at h
    obtain ⟨t,ht,rfl⟩ := Option.map_eq_some_iff.mp h
    obtain ⟨r,hr,rfl⟩ := incRef_cases ht
    exact ⟨p,r,rfl,hr,rfl⟩

theorem assignFrom_cases (h : s.assignFrom this other=some s') :
    ∃ p q r, s.handles[this]?=some p ∧ s.handles[other]?=some q ∧
      s.interfaces[p]?=some ⟨r,false⟩ ∧
      s'=⟨s.interfaces.set p ⟨toInt (r-1),decide (r < 1)⟩,s.handles.set this q⟩ := by
  cases hp : s.handles[this]? with
  | none => simp [assignFrom,hp] at h
  | some p =>
    cases hq : s.handles[other]? with
    | none => simp [assignFrom,hp,hq] at h
    | some q =>
      simp only [assignFrom,hp,hq] at h
      obtain ⟨t,ht,rfl⟩ := Option.map_eq_some_iff.mp h
      obtain ⟨r,hr,rfl⟩ := decRef_cases ht
      exact ⟨p,q,r,rfl,rfl,hr,rfl⟩

theorem destroy_cases (h : s.destroy this=some s') :
    ∃ p r, s.handles[this]?=some p ∧ s.interfaces[p]?=some ⟨r,false⟩ ∧
      s'=⟨s.interfaces.set p ⟨toInt (r-1),decide (r < 1)⟩,s.handles.eraseIdx this⟩ := by
  cases hp : s.handles[this]? with
  | none => simp [destroy,hp] at h
  | some p =>
    simp only [destroy,hp] at h
    obtain ⟨t,ht,rfl⟩ := Option.map_eq_some_iff.mp h
    obtain ⟨r,hr,rfl⟩ := decRef_cases ht
    exact ⟨p,r,rfl,hr,rfl⟩

/-- The three kinds of members: one makes an `Interface`, the others add a pointer to one or give
one up. -/
theorem serve_cases {m : Member} (h : s.serve m=some s') :
    m=.make ∧ s'=s.make ∨
    (released m=none ∧ (∀ p, Gains p (s,m)=false) ∧ ∃ p r, p ∈ s.handles ∧
      s.interfaces[p]?=some ⟨r,false⟩ ∧
      s'=⟨s.interfaces.set p ⟨toInt (r+1),false⟩,s.handles ++ [p]⟩) ∨
    ∃ this p r, released m=some this ∧ s.handles[this]?=some p ∧
      s.interfaces[p]?=some ⟨r,false⟩ ∧
      s'=⟨s.interfaces.set p ⟨toInt (r-1),decide (r < 1)⟩,s.remaining m⟩ ∧
      ((∀ p, Gains p (s,m)=false) ∧ s.remaining m=s.handles.eraseIdx this ∨
        ∃ q ∈ s.handles, (∀ p, Gains p (s,m)=decide (q=p)) ∧ s.remaining m=s.handles.set this q)
    := by
  have construct : ∀ {other : Nat}, s.constructFrom other=some s' → ∃ p r, p ∈ s.handles ∧
      s.interfaces[p]?=some ⟨r,false⟩ ∧
      s'=⟨s.interfaces.set p ⟨toInt (r+1),false⟩,s.handles ++ [p]⟩ := by
    intro other h
    obtain ⟨p,r,hp,hr,rfl⟩ := constructFrom_cases h
    exact ⟨p,r,List.mem_of_getElem? hp,hr,rfl⟩
  have assign : ∀ {this other : Nat}, s.assignFrom this other=some s' → ∃ p r q,
      s.handles[this]?=some p ∧ s.handles[other]?=some q ∧ s.interfaces[p]?=some ⟨r,false⟩ ∧
      s'=⟨s.interfaces.set p ⟨toInt (r-1),decide (r < 1)⟩,s.handles.set this q⟩ := by
    intro this other h
    obtain ⟨p,q,r,hp,hq,hr,rfl⟩ := assignFrom_cases h
    exact ⟨p,r,q,hp,hq,hr,rfl⟩
  cases m with
  | make => exact .inl ⟨rfl,(Option.some.inj h).symm⟩
  | copy rebound other =>
    have hs : s.constructFrom other=some s' := by cases rebound <;> exact h
    exact .inr (.inl ⟨rfl,fun _ => rfl,construct hs⟩)
  | move rebound other =>
    have hs : s.constructFrom other=some s' := by cases rebound <;> exact h
    exact .inr (.inl ⟨rfl,fun _ => rfl,construct hs⟩)
  | copyAssign rebound this other =>
    have hs : s.assignFrom this other=some s' := by cases rebound <;> exact h
    obtain ⟨p,r,q,hp,hq,hr,rfl⟩ := assign hs
    have hrem : s.remaining (.copyAssign rebound this other)=s.handles.set this q := by
      simp only [remaining,hq]
    refine .inr (.inr ⟨this,p,r,rfl,hp,hr,by rw [hrem],.inr ⟨q,List.mem_of_getElem? hq,?_,hrem⟩⟩)
    intro p
    simp [Gains,hq]
  | moveAssign rebound this other =>
    have hs : s.assignFrom this other=some s' := by cases rebound <;> exact h
    obtain ⟨p,r,q,hp,hq,hr,rfl⟩ := assign hs
    have hrem : s.remaining (.moveAssign rebound this other)=s.handles.set this q := by
      simp only [remaining,hq]
    refine .inr (.inr ⟨this,p,r,rfl,hp,hr,by rw [hrem],.inr ⟨q,List.mem_of_getElem? hq,?_,hrem⟩⟩)
    intro p
    simp [Gains,hq]
  | destroy this =>
    obtain ⟨p,r,hp,hr,rfl⟩ := destroy_cases h
    exact .inr (.inr ⟨this,p,r,rfl,hp,hr,rfl,.inl ⟨fun _ => rfl,rfl⟩⟩)

end Members

section Steps

variable {s s' : Handles} {p : Nat} {r : Int} {left : List Nat}

/-- Without one of the handles, or with another pointer in its place, the rest is the same. -/
theorem mem_eraseIdx_of_ne {v : List Nat} {i x : Nat} (h : v[i]?=some p) (hx : x ≠ p) :
    x ∈ v.eraseIdx i ↔ x ∈ v := by
  obtain ⟨lo,hi,rfl,rfl⟩ := eq_mid p h
  simp [hx]

theorem mem_set_of_ne {v : List Nat} {i x q : Nat} (h : v[i]?=some p) (hq : q ∈ v)
    (hx : x ≠ p) : x ∈ v.set i q ↔ x ∈ v := by
  obtain ⟨lo,hi,rfl,rfl⟩ := eq_mid p h
  simp only [set_mid,List.mem_append,List.mem_cons] at hq ⊢
  constructor
  · intro hm
    rcases hm with hm | rfl | hm
    · exact .inl hm
    · exact hq
    · exact .inr (.inr hm)
  · intro hm
    rcases hm with hm | hm | hm
    · exact .inl hm
    · exact absurd hm hx
    · exact .inr (.inr hm)

/-- The other pointers are those of before. -/
theorem mem_remaining {m : Member} {this : Nat} (hp : s.handles[this]?=some p)
    (h : (∀ p, Gains p (s,m)=false) ∧ s.remaining m=s.handles.eraseIdx this ∨
      ∃ q ∈ s.handles, (∀ p, Gains p (s,m)=decide (q=p)) ∧ s.remaining m=s.handles.set this q)
    {x : Nat} (hx : x ≠ p) : x ∈ s.remaining m ↔ x ∈ s.handles := by
  cases h with
  | inl h =>
    rw [h.2]
    exact mem_eraseIdx_of_ne hp hx
  | inr h =>
    obtain ⟨q,hq,_,he⟩ := h
    rw [he]
    exact mem_set_of_ne hp hq hx

/-- A new handle points to the new `Interface`. -/
theorem valid_make (h : ∀ p ∈ s.handles, p < s.interfaces.length) :
    ∀ p ∈ s.make.handles, p < s.make.interfaces.length := by
  intro p hp
  simp only [Handles.make,List.length_append,List.length_singleton] at hp ⊢
  rcases List.mem_append.mp hp with hp | hp
  · have := h p hp
    omega
  · have := List.mem_singleton.mp hp
    omega

theorem Tracked.make (h : Tracked s) : Tracked s.make := by
  constructor
  · intro q i hi
    simp only [Handles.make] at hi ⊢
    rcases getElem?_concat_cases hi with ⟨hq,hi⟩ | ⟨rfl,rfl⟩
    · rw [h.owned q i hi,List.mem_append,List.mem_singleton]
      constructor
      · exact .inl
      · intro hm
        cases hm with
        | inl hm => exact hm
        | inr hm => omega
    · simp
  · exact valid_make h.valid

theorem Tracked.gain (h : Tracked s) (hm : p ∈ s.handles) (n : Int) :
    Tracked ⟨s.interfaces.set p ⟨n,false⟩,s.handles ++ [p]⟩ := by
  constructor
  · intro q i hi
    rcases getElem?_set_cases hi with ⟨rfl,rfl⟩ | ⟨hq,hi⟩
    · simp
    · rw [h.owned q i hi]
      simp [hq]
  · intro q hq
    rw [List.length_set]
    apply h.valid
    rcases List.mem_append.mp hq with hq | hq
    · exact hq
    · exact List.mem_singleton.mp hq ▸ hm

/-- A pointer is given up and the count tells whether it was the last. -/
theorem Tracked.release (h : Tracked s) (hp : p < s.interfaces.length) (n : Int)
    (hl : ∀ x, x ≠ p → (x ∈ left ↔ x ∈ s.handles)) (hc : p ∈ left ↔ 1 ≤ r) :
    Tracked ⟨s.interfaces.set p ⟨n,decide (r < 1)⟩,left⟩ := by
  constructor
  · intro q i hi
    rcases getElem?_set_cases hi with ⟨rfl,rfl⟩ | ⟨hq,hi⟩
    · rw [hc,decide_eq_false_iff_not,not_lt]
    · rw [h.owned q i hi,hl q hq]
  · intro q hq
    rw [List.length_set]
    by_cases hqp : q=p
    · exact hqp ▸ hp
    · exact h.valid q ((hl q hqp).mp hq)

/-- Where it does not, an `Interface` is lost or a pointer to a deleted one is left. -/
theorem release_spoils (hp : p < s.interfaces.length) {n : Int} (hc : ¬ (p ∈ left ↔ 1 ≤ r)) :
    ¬ Owned ⟨s.interfaces.set p ⟨n,decide (r < 1)⟩,left⟩ := by
  intro h
  apply hc
  have hi := h p ⟨n,decide (r < 1)⟩ (by simp [hp])
  rw [← hi,decide_eq_false_iff_not,not_lt]

end Steps

section Runs

variable {s s' : Handles} {m : Member}

/-- The count is right about the one pointer that is given up. -/
theorem countsRight_iff {this p : Nat} {r : Int} (hm : released m=some this)
    (hp : s.handles[this]?=some p) (hr : s.interfaces[p]?=some ⟨r,false⟩) :
    s.CountsRight m ↔ (p ∈ s.remaining m ↔ 1 ≤ r) := by
  simp [CountsRight,hm,hp,hr]

theorem tracked_next (h : Tracked s) (hg : s.CountsRight m) (hn : machine.next s m=some s') :
    Tracked s' := by
  rcases serve_cases hn with ⟨_,rfl⟩ | ⟨_,_,p,r,hp,_,rfl⟩ | ⟨this,p,r,hm,hp,hr,rfl,hrem⟩
  · exact h.make
  · exact h.gain hp _
  · exact h.release (List.getElem?_eq_some_iff.mp hr).1 _ (fun x hx => mem_remaining hp hrem hx)
      ((countsRight_iff hm hp hr).mp hg)

theorem miscounted_next (hg : ¬ s.CountsRight m) (hn : machine.next s m=some s') :
    ¬ s'.Owned := by
  rcases serve_cases hn with ⟨rfl,_⟩ | ⟨hm,_⟩ | ⟨this,p,r,hm,hp,hr,rfl,_⟩
  · exact absurd (by simp [CountsRight,released]) hg
  · exact absurd (by simp [CountsRight,hm]) hg
  · exact release_spoils (List.getElem?_eq_some_iff.mp hr).1
      fun hc => hg ((countsRight_iff hm hp hr).mpr hc)

/-- In every run an `Interface` is deleted exactly when its last handle gives it up, as long as the
count is right wherever a handle gives one up. -/
theorem visited_owned_iff {h : List (Handles × Member)} (r : machine.Run h s) :
    (∀ x ∈ Machine.visited h s, x.Owned) ↔ ∀ e ∈ h, e.1.CountsRight e.2 := by
  refine r.always_iff ?_ (fun _ _ _ hi hg hn => tracked_next hi hg hn)
    (fun _ hi => hi.owned) fun _ _ _ _ hg hn => miscounted_next hg hn
  intro s hs
  obtain rfl := hs
  exact ⟨by simp [Owned],by simp⟩

/-- What a run knows of the counts; an `Interface` that is not yet made has no pointers. -/
structure Counted (h : List (Handles × Member)) (s : Handles) : Prop where
  valid : ∀ p ∈ s.handles, p < s.interfaces.length
  unmade : ∀ p, s.interfaces.length ≤ p → h.countP (Gains p)=0
  counts : ∀ (p : Nat) (i : Shared), s.interfaces[p]?=some i →
    i.refCount=s.tally h p

theorem Counted.make {h : List (Handles × Member)} (hc : Counted h s) :
    Counted ((s,.make) :: h) s.make := by
  have hg : ∀ p, ((s,Member.make) :: h).countP (Gains p)=h.countP (Gains p) := fun p =>
    List.countP_cons_of_neg (by simp [Gains])
  refine ⟨?_,?_,?_⟩
  · exact valid_make hc.valid
  · intro p hp
    simp only [Handles.make,List.length_append,List.length_singleton] at hp
    rw [hg]
    exact hc.unmade p (by omega)
  · intro p i hi
    rw [tally,hg]
    simp only [Handles.make,List.count_append] at hi ⊢
    rcases getElem?_concat_cases hi with ⟨hp,hi⟩ | ⟨rfl,rfl⟩
    · have hne : [s.interfaces.length].count p=0 :=
        List.count_eq_zero.mpr (by simp only [List.mem_singleton]; omega)
      rw [hne,Nat.add_zero]
      exact hc.counts p i hi
    · have hno : s.handles.count s.interfaces.length=0 :=
        List.count_eq_zero.mpr fun hm => Nat.lt_irrefl _ (hc.valid _ hm)
      rw [hno,hc.unmade _ le_rfl]
      simp [toInt]

/-- The count of one `Interface` and the pointers to it change by as much. -/
theorem Counted.change {h : List (Handles × Member)} {e : Handles × Member} (hc : Counted h s)
    {p : Nat} {r d : Int} {deleted deleted' : Bool} {left : List Nat}
    (hr : s.interfaces[p]?=some ⟨r,deleted⟩) (hl : ∀ x ∈ left, x=p ∨ x ∈ s.handles)
    (hg : ∀ x, Gains x e=true → x ∈ s.handles)
    (hd : ∀ x, (left.count x : Int)-([e].countP (Gains x) : Nat)=
      s.handles.count x+(if x=p then d else 0)) :
    Counted (e :: h) ⟨s.interfaces.set p ⟨toInt (r+d),deleted'⟩,left⟩ := by
  have hp := (List.getElem?_eq_some_iff.mp hr).1
  have hcons : ∀ x, (e :: h).countP (Gains x)=[e].countP (Gains x)+h.countP (Gains x) := by
    intro x
    rw [← List.countP_append,List.singleton_append]
  refine ⟨?_,?_,?_⟩
  · intro x hx
    rw [List.length_set]
    rcases hl x hx with rfl | hx
    · exact hp
    · exact hc.valid x hx
  · intro x hx
    rw [List.length_set] at hx
    have hno : ¬ Gains x e=true := fun hgx => by
      have := hc.valid x (hg x hgx)
      omega
    rw [List.countP_cons_of_neg hno]
    exact hc.unmade x hx
  · intro x i hi
    have hsum := hd x
    rw [tally,hcons,Nat.cast_add]
    rcases getElem?_set_cases hi with ⟨rfl,rfl⟩ | ⟨hx,hi⟩
    · rw [if_pos rfl] at hsum
      have hold := hc.counts x _ hr
      simp only [tally] at hold ⊢
      rw [hold,toInt,toInt,Int.bmod_add_bmod,toInt]
      congr 1
      omega
    · rw [if_neg hx] at hsum
      rw [hc.counts x i hi]
      simp only [tally,toInt]
      congr 1
      omega

theorem Counted.next {h : List (Handles × Member)} (hc : Counted h s)
    (hn : machine.next s m=some s') : Counted ((s,m) :: h) s' := by
  rcases serve_cases hn with ⟨rfl,rfl⟩ | ⟨_,hg,p,r,hp,hr,rfl⟩ | ⟨this,p,r,_,hp,hr,rfl,hrem⟩
  · exact hc.make
  · apply hc.change hr (fun x hx => ?_) (fun x hx => ?_) (fun x => ?_)
    · rcases List.mem_append.mp hx with hx | hx
      · exact .inr hx
      · exact .inl (List.mem_singleton.mp hx)
    · rw [hg x] at hx
      cases hx
    · by_cases hx : x=p
      · simp [hx,hg]
      · simp [hx,hg,Ne.symm hx]
  · have hsub : ∀ x ∈ s.remaining m, x=p ∨ x ∈ s.handles := by
      intro x hx
      by_cases hxp : x=p
      · exact .inl hxp
      · exact .inr ((mem_remaining hp hrem hxp).mp hx)
    apply hc.change hr hsub (fun x hx => ?_) (fun x => ?_)
    · rcases hrem with ⟨hg,_⟩ | ⟨q,hq,hg,_⟩
      · rw [hg x] at hx
        cases hx
      · rw [hg x] at hx
        exact of_decide_eq_true hx ▸ hq
    · obtain ⟨lo,hi,he,rfl⟩ := eq_mid p hp
      rcases hrem with ⟨hg,hrem⟩ | ⟨q,_,hg,hrem⟩
      · rw [hrem,he,eraseIdx_mid,List.countP_singleton,hg]
        simp only [List.count_append,List.count_cons,beq_iff_eq,Bool.false_eq_true,if_false]
        by_cases hx : p=x
        · rw [if_pos hx,if_pos hx.symm]
          push_cast
          ring
        · rw [if_neg hx,if_neg (Ne.symm hx)]
          push_cast
          ring
      · rw [hrem,he,set_mid,List.countP_singleton,hg]
        simp only [List.count_append,List.count_cons,beq_iff_eq,decide_eq_true_eq]
        by_cases hx : p=x
        · rw [if_pos hx,if_pos hx.symm]
          push_cast
          ring
        · rw [if_neg hx,if_neg (Ne.symm hx)]
          push_cast
          ring

theorem counted_of_run {h : List (Handles × Member)} (r : machine.Run h s) : Counted h s := by
  induction r with
  | start h0 =>
    obtain rfl := h0
    exact ⟨by simp,by simp,by simp⟩
  | step _ hn ih => exact ih.next hn

/-- The count is the number of handles, less the assignments that made one of them. -/
theorem refCount_eq {h : List (Handles × Member)} (r : machine.Run h s) {p : Nat} {i : Shared}
    (hi : s.interfaces[p]?=some i) : i.refCount=s.tally h p := (counted_of_run r).counts p i hi

/-- The number of handles and assignments tells what the count does. -/
theorem countsRight_iff_tallies {h : List (Handles × Member)} (r : machine.Run h s) :
    s.CountsRight m ↔ s.Tallies h m := by
  have hc := counted_of_run r
  constructor
  · intro hr this hm p hp
    have hlt := hc.valid p (List.mem_of_getElem? hp)
    obtain ⟨i,hi⟩ : ∃ i, s.interfaces[p]?=some i := ⟨_,List.getElem?_eq_getElem hlt⟩
    rw [hr this hm p hp i hi,hc.counts p i hi]
  · intro ht this hm p hp i hi
    rw [ht this hm p hp,hc.counts p i hi]

/-- In every run an `Interface` is deleted exactly when its last handle gives it up, if and only if
wherever a handle gives one up some handle is left just when the number of handles exceeds that of
the assignments from one of them so far. -/
theorem owned_iff_tallies {h : List (Handles × Member)} (r : machine.Run h s) :
    (∀ x ∈ Machine.visited h s, x.Owned) ↔ ∀ e h', e :: h' <:+ h → e.1.Tallies h' e.2 := by
  rw [visited_owned_iff r]
  constructor
  · intro hr e h' hs
    exact (countsRight_iff_tallies (r.of_suffix hs)).mp (hr e (hs.subset List.mem_cons_self))
  · intro ht e he
    obtain ⟨l,h',rfl⟩ := List.append_of_mem he
    have hs : e :: h' <:+ l ++ e :: h' := List.suffix_append l _
    exact (countsRight_iff_tallies (r.of_suffix hs)).mpr (ht e h' hs)

/-- A copy is assigned its own value, and then both handles go. -/
theorem owned_iff_tallies_assigned : ∃ (h : List (Handles × Member)) (s : Handles),
    s=⟨[⟨-1,true⟩],[]⟩ ∧
      ((∀ x ∈ Machine.visited h s, x.Owned) ↔
        ∀ e h', e :: h' <:+ h → e.1.Tallies h' e.2) := by
  obtain ⟨s,⟨h,r⟩,hs⟩ := Machine.reachable_of_runFrom machine ⟨[],[]⟩
    [.make,.copy false 0,.copyAssign false 1 0,.destroy 1,.destroy 0]
    (fun s => s=⟨[⟨-1,true⟩],[]⟩) rfl (by decide)
  exact ⟨h,s,hs,owned_iff_tallies r⟩

/-- The last handle goes and the `Interface` stays. -/
theorem last_handle_deletes_nothing : ∃ s : Handles, machine.Reachable s ∧ ¬ s.Owned := by
  obtain ⟨s,hr,hs⟩ := Machine.reachable_of_runFrom machine ⟨[],[]⟩ [.make,.destroy 0]
    (fun s => s=⟨[⟨0,false⟩],[]⟩) rfl (by decide)
  refine ⟨s,hr,?_⟩
  intro h
  subst hs
  exact List.not_mem_nil ((h 0 ⟨0,false⟩ rfl).mp rfl)

end Runs

end Handles

end Allocators.SlabMulti
