import Allocators.Lib.Extent
import Allocators.Lib.Vector

/-! The containers behind the three storage policies of the free list. -/

namespace Allocators.FreeList

open Lib

/-- A pair of `availible`: the first byte of a free chunk, as its offset from `MyBegin`,
and its size. -/
abbrev Entry := Extent

/-- What `PolicyT` uses of a container; iterators are positions, `end` is the length. -/
class Storage (S : Type) where
  clear : S
  entries : S → List Entry
  lowerBound : S → Nat → Nat
  /-- The container and the position of the entry that now has the key. -/
  emplace : S → Nat → Entry → S × Nat
  erase : S → Nat → S
  setSecond : S → Nat → Nat → S

/-- `std::vector` and `std::list`: the order is that of the insertions. -/
structure LinearStore where
  items : List Entry
  deriving DecidableEq, Repr

namespace LinearStore

/-- `lower_bound_linear`. -/
def lowerBoundLinear (c : LinearStore) (ptr : Nat) : Nat :=
  Vector.lowerBound (fun e => decide (e.1 < ptr)) c.items

instance : Storage LinearStore where
  clear := ⟨[]⟩
  entries := items
  lowerBound := lowerBoundLinear
  emplace c it e := (⟨c.items.insertIdx it e⟩,it)
  erase c it := ⟨c.items.eraseIdx it⟩
  setSecond c it n := ⟨c.items.modify it (fun e => (e.1,n))⟩

end LinearStore

/-- The keys grow strictly along the list. -/
def Sorted (l : List Entry) : Prop := l.Pairwise (fun x y => x.1 < y.1)

/-- `std::map`: ordered by construction. -/
structure TreeStore where
  items : List Entry
  sorted : Sorted items

theorem Sorted.eraseIdx {l : List Entry} (h : Sorted l) (i : Nat) : Sorted (l.eraseIdx i) :=
  h.sublist (List.eraseIdx_sublist l i)

theorem modify_keys (l : List Entry) (i n : Nat) :
    (l.modify i (fun e => (e.1,n))).map Prod.fst=l.map Prod.fst := by
  induction l generalizing i with
  | nil => simp
  | cons x l ih => cases i <;> simp [List.modify_succ_cons,ih]

theorem Sorted.modify {l : List Entry} (h : Sorted l) (i n : Nat) :
    Sorted (l.modify i (fun e => (e.1,n))) := by
  have hk : (l.map Prod.fst).Pairwise (· < ·) := List.pairwise_map.mpr h
  rw [← modify_keys l i n] at hk
  exact List.pairwise_map.mp hk

/-- The entries below a key and those from it on. -/
theorem Sorted.split {l : List Entry} (h : Sorted l) (p : Nat) :
    ∃ lo hi, l=lo ++ hi ∧ (∀ x ∈ lo, x.1 < p) ∧ ∀ x ∈ hi, p ≤ x.1 := by
  induction l with
  | nil => exact ⟨[],[],rfl,by simp,by simp⟩
  | cons x l ih =>
    obtain ⟨h1,h2⟩ := List.pairwise_cons.mp h
    by_cases hx : x.1 < p
    · obtain ⟨lo,hi,rfl,hlo,hhi⟩ := ih h2
      exact ⟨x :: lo,hi,rfl,List.forall_mem_cons.mpr ⟨hx,hlo⟩,hhi⟩
    · refine ⟨[],x :: l,rfl,by simp,List.forall_mem_cons.mpr ⟨by omega,?_⟩⟩
      intro y hy
      have := h1 y hy
      omega

/-- The same with the entry that has the key, if there is one, taken out. -/
theorem Sorted.splitKey {l : List Entry} (h : Sorted l) (p : Nat) :
    ∃ lo hi, (∀ x ∈ lo, x.1 < p) ∧ (∀ x ∈ hi, p < x.1) ∧
      (l=lo ++ hi ∨ ∃ e : Entry, e.1=p ∧ l=lo ++ e :: hi) := by
  obtain ⟨lo,hi,he,hlo,hhi⟩ := h.split p
  cases hi with
  | nil => exact ⟨lo,[],hlo,by simp,.inl he⟩
  | cons x hi =>
    have htail := (List.pairwise_cons.mp (List.pairwise_append.mp (he ▸ h)).2.1).1
    have hx := hhi x (by simp)
    by_cases hp : x.1=p
    · exact ⟨lo,hi,hlo,fun y hy => hp ▸ htail y hy,.inr ⟨x,hp,he⟩⟩
    · have hlt : p < x.1 := by omega
      exact ⟨lo,x :: hi,hlo,
        List.forall_mem_cons.mpr ⟨hlt,fun y hy => hlt.trans (htail y hy)⟩,.inl he⟩

theorem Sorted.insert {lo hi : List Entry} {e : Entry} (h : Sorted (lo ++ hi))
    (hlo : ∀ x ∈ lo, x.1 < e.1) (hhi : ∀ x ∈ hi, e.1 < x.1) : Sorted (lo ++ e :: hi) := by
  obtain ⟨h1,h2,h3⟩ := List.pairwise_append.mp h
  refine List.pairwise_append.mpr ⟨h1,List.pairwise_cons.mpr ⟨hhi,h2⟩,?_⟩
  intro a ha
  exact List.forall_mem_cons.mpr ⟨hlo a ha,h3 a ha⟩

namespace TreeStore

/-- `map::lower_bound`: the first key that is not less. -/
def lowerBound (m : TreeStore) (ptr : Nat) : Nat := m.items.findIdx (fun e => !decide (e.1 < ptr))

theorem lowerBound_eq {m : TreeStore} {p : Nat} {lo hi : List Entry} (h : m.items=lo ++ hi)
    (hlo : ∀ x ∈ lo, x.1 < p) (hhi : ∀ x ∈ hi, p ≤ x.1) : m.lowerBound p=lo.length := by
  have hn : lo.findIdx (fun e => !decide (e.1 < p))=lo.length :=
    List.findIdx_eq_length.mpr (fun x hx => by simp [hlo x hx])
  unfold lowerBound
  rw [h,List.findIdx_append,hn,if_neg (by omega)]
  cases hi with
  | nil => simp
  | cons x hi =>
    have hx : ¬ x.1 < p := by
      have := hhi x (by simp)
      omega
    simp [List.findIdx_cons,hx]

theorem sorted_insertIdx (m : TreeStore) (e : Entry)
    (h : ¬ m.items[m.lowerBound e.1]?.any (fun x => decide (x.1=e.1))=true) :
    Sorted (m.items.insertIdx (m.lowerBound e.1) e) := by
  obtain ⟨lo,hi,he,hlo,hhi⟩ := m.sorted.split e.1
  have hs := m.sorted
  rw [lowerBound_eq he hlo hhi] at h ⊢
  rw [he] at h hs ⊢
  rw [Vector.insertIdx_mid]
  refine Sorted.insert hs hlo ?_
  intro x hx
  cases hi with
  | nil => simp at hx
  | cons y hi =>
    have hy : y.1 ≠ e.1 := by
      intro heq
      exact h (by simp [heq])
    have hle := hhi y (by simp)
    rcases List.mem_cons.mp hx with rfl | hx
    · omega
    · have := (List.pairwise_cons.mp (List.pairwise_append.mp hs).2.1).1 x hx
      omega

/-- `map::emplace` looks for the key itself and keeps an entry that already has it. -/
def emplace (m : TreeStore) (e : Entry) : TreeStore × Nat :=
  if h : m.items[m.lowerBound e.1]?.any (fun x => decide (x.1=e.1)) then (m,m.lowerBound e.1)
  else (⟨m.items.insertIdx (m.lowerBound e.1) e,m.sorted_insertIdx e h⟩,m.lowerBound e.1)

instance : Storage TreeStore where
  clear := ⟨[],List.Pairwise.nil⟩
  entries := items
  lowerBound := lowerBound
  emplace m _ e := m.emplace e
  erase m it := ⟨m.items.eraseIdx it,m.sorted.eraseIdx it⟩
  setSecond m it n := ⟨m.items.modify it (fun e => (e.1,n)),m.sorted.modify it n⟩

end TreeStore

/-- The storage policies of the user: `FlatPolicy`, `ListPolicy` and `TreePolicy`. -/
inductive Policy
  | flat
  | list
  | tree
  deriving DecidableEq, Repr

def Policy.Store : Policy → Type
  | flat => LinearStore
  | list => LinearStore
  | tree => TreeStore

instance : (P : Policy) → Storage P.Store
  | .flat => inferInstanceAs (Storage LinearStore)
  | .list => inferInstanceAs (Storage LinearStore)
  | .tree => inferInstanceAs (Storage TreeStore)

/-- What the containers have in common on a list of entries split at a key. -/
class LawfulStorage (S : Type) [Storage S] : Prop where
  entries_clear : Storage.entries (Storage.clear : S)=[]
  lowerBound_split {s : S} {l r : List Entry} {p : Nat} :
    Storage.entries s=l ++ r → (∀ x ∈ l, x.1 < p) → (∀ x ∈ r, p ≤ x.1) →
      Storage.lowerBound s p=l.length
  emplace_split {s : S} {l r : List Entry} {e : Entry} :
    Storage.entries s=l ++ r → (∀ x ∈ l, x.1 < e.1) → (∀ x ∈ r, e.1 < x.1) →
      Storage.entries (Storage.emplace s l.length e).1=l ++ e :: r ∧
        (Storage.emplace s l.length e).2=l.length
  entries_erase (s : S) (it : Nat) :
    Storage.entries (Storage.erase s it)=(Storage.entries s).eraseIdx it
  entries_setSecond (s : S) (it n : Nat) :
    Storage.entries (Storage.setSecond s it n)=
      (Storage.entries s).modify it (fun e => (e.1,n))

instance : LawfulStorage LinearStore where
  entries_clear := rfl
  lowerBound_split {s lo hi p} h hlo hhi := by
    change Vector.lowerBound _ s.items=_
    rw [show s.items=lo ++ hi from h]
    exact Vector.lowerBound_eq (fun x hx => by simpa using hlo x hx)
      (fun x hx => by simpa using hhi x hx)
  emplace_split {s lo hi e} h _ _ := by
    refine ⟨?_,rfl⟩
    change s.items.insertIdx lo.length e=_
    rw [show s.items=lo ++ hi from h,Vector.insertIdx_mid]
  entries_erase _ _ := rfl
  entries_setSecond _ _ _ := rfl

instance : LawfulStorage TreeStore where
  entries_clear := rfl
  lowerBound_split h hlo hhi := TreeStore.lowerBound_eq h hlo hhi
  emplace_split {s lo hi e} h hlo hhi := by
    have hb : s.lowerBound e.1=lo.length :=
      TreeStore.lowerBound_eq h hlo (fun x hx => (hhi x hx).le)
    have hkey : ¬ s.items[s.lowerBound e.1]?.any (fun x => decide (x.1=e.1))=true := by
      rw [hb,show s.items=lo ++ hi from h]
      cases hi with
      | nil => simp
      | cons x hi =>
        have := hhi x (by simp)
        simpa using by omega
    change (s.emplace e).1.items=_ ∧ (s.emplace e).2=_
    unfold TreeStore.emplace
    rw [dif_neg hkey]
    refine ⟨?_,hb⟩
    change s.items.insertIdx (s.lowerBound e.1) e=_
    rw [hb,show s.items=lo ++ hi from h,Vector.insertIdx_mid]
  entries_erase _ _ := rfl
  entries_setSecond _ _ _ := rfl

instance : (P : Policy) → LawfulStorage P.Store
  | .flat => inferInstanceAs (LawfulStorage LinearStore)
  | .list => inferInstanceAs (LawfulStorage LinearStore)
  | .tree => inferInstanceAs (LawfulStorage TreeStore)

end Allocators.FreeList
