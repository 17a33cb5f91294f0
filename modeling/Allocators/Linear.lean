import Allocators.AllocHelpers
import Allocators.Lib.Extent
import Allocators.Lib.Run

/-! `LStorage` and the allocators that share it. -/

namespace Allocators.Linear

open Lib Extent

/-- The static members of `LStorage<bytes>`; a null pointer is 0. -/
structure LStorage where
  init : Bool
  myBegin : Nat
  myLast : Nat
  deriving DecidableEq, Repr

/-- What `allocate` throws. -/
inductive Failure
  | badAlloc
  | runtimeError
  deriving DecidableEq, Repr

namespace LStorage

/-- The constructor, where `operator new` would return `mem`. -/
def make (s : LStorage) (mem : Nat) : LStorage :=
  if s.init then ⟨false,mem,0⟩ else s

/-- `allocate<T>(count)` for a type of `size` bytes. -/
def allocate (bytes : Nat) (s : LStorage) (size count : Nat) : LStorage × Except Failure Nat :=
  if bytes < toSizeT (toSizeT (count*size)+s.myLast) then (s,.error .badAlloc)
  else if s.init then (s,.error .runtimeError)
  else ({ s with myLast := toSizeT (s.myLast+toSizeT (count*size)) },.ok (s.myBegin+s.myLast))

def reset (_ : LStorage) : LStorage := ⟨true,0,0⟩

end LStorage

/-- The storage and what was returned since the last `reset`, as offsets from `MyBegin` and the
lengths that were asked for. -/
structure Session where
  storage : LStorage
  ranges : List Extent

/-- A construction, for which `operator new` would return `mem`, an `allocate` for some type, a
`reset`. -/
inductive Call
  | make (mem : Nat)
  | allocate (size count : Nat)
  | reset
  deriving DecidableEq

namespace Session

/-- Sizes of types and counts are values of `size_t`. -/
def serve (bytes : Nat) (w : Session) : Call → Option Session
  | .make mem => some { w with storage := w.storage.make mem }
  | .allocate size count =>
    if 0 < size ∧ size < 2^64 ∧ count < 2^64 then
      match w.storage.allocate bytes size count with
      | (s,.ok ptr) => some ⟨s,(ptr-s.myBegin,count*size) :: w.ranges⟩
      | (s,.error _) => some ⟨s,w.ranges⟩
    else none
  | .reset => some ⟨w.storage.reset,[]⟩

def machine (bytes : Nat) : Machine Session Call where
  start w := w=⟨⟨true,0,0⟩,[]⟩
  next := serve bytes

/-- What was returned lies in the storage and apart, and `MyLast` in the storage. -/
def Kept (bytes : Nat) (w : Session) : Prop := Packed bytes w.ranges ∧ w.storage.myLast ≤ bytes

/-- The sum that `allocate` compares does not wrap around, or is too large all the same, or there
is no storage. -/
def SumFits (bytes : Nat) (w : Session) : Call → Prop
  | .allocate size count => count*size+w.storage.myLast < 2^64 ∨
      bytes < toSizeT (count*size+w.storage.myLast) ∨ w.storage.init=true
  | _ => True

instance (bytes : Nat) (w : Session) : (c : Call) → Decidable (w.SumFits bytes c)
  | .allocate _ _ => inferInstanceAs (Decidable (_ ∨ _))
  | .make _ | .reset => inferInstanceAs (Decidable True)

/-- The invariant: what was returned lies before `MyLast`, and there is nothing without storage. -/
structure Bumped (bytes : Nat) (w : Session) : Prop where
  kept : w.Kept bytes
  before : ∀ r ∈ w.ranges, r.1+r.2 ≤ w.storage.myLast
  empty : w.storage.init=true → w.ranges=[] ∧ w.storage.myLast=0

section Calls

variable {bytes : Nat} {w w' : Session} {c : Call}

theorem toSizeT_sum (m n : Nat) : toSizeT (toSizeT m+n)=toSizeT (m+n) := by
  simp [toSizeT]

/-- An `allocate` that throws leaves the storage as it was. -/
theorem allocate_error {s s' : LStorage} {size count : Nat} {f : Failure}
    (h : s.allocate bytes size count=(s',.error f)) : s'=s := by
  rw [LStorage.allocate] at h
  split_ifs at h with hb hi
  · exact (Prod.mk.inj h).1.symm
  · exact (Prod.mk.inj h).1.symm
  · simp at h

/-- An `allocate` moves `MyLast` behind the range it returns, or throws. -/
theorem allocate_cases (bytes : Nat) (s : LStorage) (size count : Nat) :
    (∃ f, s.allocate bytes size count=(s,.error f)) ∨
    s.init=false ∧ toSizeT (count*size+s.myLast) ≤ bytes ∧
      s.allocate bytes size count=
        ({ s with myLast := toSizeT (count*size+s.myLast) },.ok (s.myBegin+s.myLast)) := by
  have hcomm : toSizeT (s.myLast+toSizeT (count*size))=toSizeT (count*size+s.myLast) := by
    rw [Nat.add_comm,toSizeT_sum]
  rw [LStorage.allocate,toSizeT_sum,hcomm]
  split_ifs with hb hi
  · exact .inl ⟨_,rfl⟩
  · exact .inl ⟨_,rfl⟩
  · refine .inr ⟨?_,Nat.le_of_not_lt hb,rfl⟩
    simpa using hi

theorem bumped_start (h : (machine bytes).start w) : w.Bumped bytes := by
  obtain rfl := h
  exact ⟨⟨⟨by simp [Tiled],by simp⟩,by simp⟩,by simp,by simp⟩

/-- A range at `MyLast` that ends in the storage. -/
theorem Bumped.push (h : w.Bumped bytes) {s : LStorage} {n : Nat} (hn : s.myLast=n+w.storage.myLast)
    (hi : s.init=false) (hb : s.myLast ≤ bytes) :
    Bumped bytes ⟨s,(w.storage.myLast,n) :: w.ranges⟩ := by
  refine ⟨⟨packed_cons.mpr ⟨?_,?_,h.kept.1⟩,hb⟩,?_,?_⟩
  · simp only [Within]
    omega
  · intro x hx
    have hle := h.before x hx
    exact apart_iff.mpr (by simp only; omega)
  · intro r hr
    rcases List.mem_cons.mp hr with rfl | hr
    · simp only
      omega
    · have hle := h.before r hr
      simp only
      omega
  · intro hs
    simp only [hi] at hs
    cases hs

/-- A call whose sum fits keeps the invariant. -/
theorem bumped_next (h : w.Bumped bytes) (hg : w.SumFits bytes c)
    (hn : (machine bytes).next w c=some w') : w'.Bumped bytes := by
  change serve bytes w c=some w' at hn
  cases c with
  | make mem =>
    simp only [serve,Option.some.injEq] at hn
    subst hn
    cases hi : w.storage.init with
    | true =>
      obtain ⟨hr,_⟩ := h.empty hi
      simp only [LStorage.make,hi,if_true,hr]
      exact ⟨⟨⟨by simp [Tiled],by simp⟩,by simp⟩,by simp,by simp⟩
    | false =>
      simp only [LStorage.make,hi,Bool.false_eq_true,if_false]
      exact h
  | allocate size count =>
    simp only [serve] at hn
    split_ifs at hn
    rcases allocate_cases bytes w.storage size count with ⟨f,he⟩ | ⟨hi,hle,he⟩
    · simp only [he,Option.some.injEq] at hn
      subst hn
      exact h
    · simp only [he,Nat.add_sub_cancel_left,Option.some.injEq] at hn
      subst hn
      have hlt : count*size+w.storage.myLast < 2^64 := by
        rcases hg with hg | hg | hg
        · exact hg
        · omega
        · rw [hi] at hg
          cases hg
      have hsum : toSizeT (count*size+w.storage.myLast)=count*size+w.storage.myLast :=
        Nat.mod_eq_of_lt hlt
      exact h.push hsum hi hle
  | reset =>
    cases hn
    exact ⟨⟨⟨by simp [Tiled],by simp⟩,by simp [LStorage.reset]⟩,by simp,by simp [LStorage.reset]⟩

/-- Otherwise it returns a range that ends outside. -/
theorem wrapped_next (hb : bytes < 2^64) (hg : ¬ w.SumFits bytes c)
    (hn : (machine bytes).next w c=some w') : ¬ w'.Kept bytes := by
  change serve bytes w c=some w' at hn
  cases c with
  | make mem => exact absurd trivial hg
  | reset => exact absurd trivial hg
  | allocate size count =>
    simp only [SumFits,not_or] at hg
    obtain ⟨hge,hle,hi⟩ := hg
    simp only [serve] at hn
    split_ifs at hn
    have hok : ¬ bytes < toSizeT (toSizeT (count*size)+w.storage.myLast) := by
      rw [toSizeT_sum]
      exact hle
    simp only [LStorage.allocate,if_neg hok,if_neg hi,Nat.add_sub_cancel_left,
      Option.some.injEq] at hn
    subst hn
    intro hk
    have hin := (packed_cons.mp hk.1).1
    simp only [Within] at hin
    omega

end Calls

/-- In every run ranges returned lie in the storage and apart exactly as long as no sum that would
wrap around is taken for one that fits. A throw changes nothing. -/
theorem kept_iff_sumFits {bytes : Nat} (hb : bytes < 2^64) {h : List (Session × Call)}
    {w : Session} (r : (machine bytes).Run h w) :
    ((∀ x ∈ Machine.visited h w, x.Kept bytes) ↔ ∀ e ∈ h, e.1.SumFits bytes e.2) ∧
      ∀ (s s' : LStorage) (size count : Nat) (f : Failure),
        s.allocate bytes size count=(s',.error f) → s'=s :=
  ⟨r.always_iff (fun _ hs => bumped_start hs) (fun _ _ _ hi hg hn => bumped_next hi hg hn)
    (fun _ hi => hi.kept) fun _ _ _ _ hg hn => wrapped_next hb hg hn,
    fun _ _ _ _ _ he => allocate_error he⟩

/-- Four bytes, three of them handed out, and a request that is refused. -/
theorem kept_iff_sumFits_refused : ∃ (h : List (Session × Call)) (w : Session),
    (w.ranges=[(2,1),(0,2)] ∧ w.storage.myLast=3) ∧
      ((∀ x ∈ Machine.visited h w, x.Kept 4) ↔ ∀ e ∈ h, e.1.SumFits 4 e.2) := by
  obtain ⟨w,⟨h,r⟩,hw⟩ := Machine.reachable_of_runFrom (machine 4) ⟨⟨true,0,0⟩,[]⟩
    [.make 100,.allocate 1 2,.allocate 1 1,.allocate 8 1]
    (fun w => w.ranges=[(2,1),(0,2)] ∧ w.storage.myLast=3) rfl (by decide)
  exact ⟨h,w,hw,(kept_iff_sumFits (by decide) r).1⟩

/-- The product for `2^62` objects of four bytes is 0. -/
theorem wrapped_count_is_served : ∃ w : Session, (machine 16).Reachable w ∧ ¬ w.Kept 16 := by
  obtain ⟨w,hr,hw⟩ := Machine.reachable_of_runFrom (machine 16) ⟨⟨true,0,0⟩,[]⟩
    [.make 100,.allocate 4 (2^62)] (fun w => w.ranges=[(0,2^64)]) rfl (by decide)
  refine ⟨w,hr,?_⟩
  intro hk
  rw [Kept,hw] at hk
  have hin := (packed_cons.mp hk.1).1
  simp only [Within] at hin
  omega

end Session

end Allocators.Linear
