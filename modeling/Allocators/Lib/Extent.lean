import Mathlib

namespace Lib

/-- A range of bytes: its first byte and its length. -/
abbrev Extent := Nat × Nat

namespace Extent

def bytes (e : Extent) : Set Nat := Set.Ico e.1 (e.1+e.2)

def Apart (x y : Extent) : Prop := Disjoint x.bytes y.bytes

def Within (n : Nat) (e : Extent) : Prop := e.1+e.2 ≤ n

/-- Some range of the list has the byte. -/
def Covers (l : List Extent) (b : Nat) : Prop := ∃ e ∈ l, b ∈ e.bytes

/-- No byte lies in two of the ranges. -/
def Tiled (l : List Extent) : Prop := l.Pairwise Apart

def total (l : List Extent) : Nat := (l.map Prod.snd).sum

@[simp] theorem mem_bytes {e : Extent} {b : Nat} : b ∈ e.bytes ↔ e.1 ≤ b ∧ b < e.1+e.2 := Iff.rfl

theorem apart_iff {x y : Extent} :
    x.Apart y ↔ x.2=0 ∨ y.2=0 ∨ x.1+x.2 ≤ y.1 ∨ y.1+y.2 ≤ x.1 := by
  unfold Apart bytes
  rw [Set.Ico_disjoint_Ico]
  omega

instance (x y : Extent) : Decidable (x.Apart y) := decidable_of_iff _ apart_iff.symm

instance (n : Nat) (e : Extent) : Decidable (e.Within n) := inferInstanceAs (Decidable (_ ≤ _))

instance (e : Extent) (b : Nat) : Decidable (b ∈ e.bytes) :=
  inferInstanceAs (Decidable (e.1 ≤ b ∧ b < e.1+e.2))

instance (l : List Extent) (b : Nat) : Decidable (Covers l b) :=
  inferInstanceAs (Decidable (∃ e ∈ l, b ∈ e.bytes))

instance (l : List Extent) : Decidable (Tiled l) := inferInstanceAs (Decidable (l.Pairwise _))

theorem Apart.symm {x y : Extent} (h : x.Apart y) : y.Apart x := Disjoint.symm h

theorem Apart.of_subset {x y z : Extent} (h : x.Apart y) (hz : z.bytes ⊆ x.bytes) : z.Apart y :=
  Disjoint.mono_left hz h

theorem bytes_join {x y : Extent} (h : x.1+x.2=y.1) :
    bytes (x.1,x.2+y.2)=x.bytes ∪ y.bytes := by
  ext b
  simp only [mem_bytes,Set.mem_union]
  omega

theorem apart_join {x y z : Extent} (h : x.1+x.2=y.1) :
    Apart (x.1,x.2+y.2) z ↔ x.Apart z ∧ y.Apart z := by
  unfold Apart
  rw [bytes_join h,Set.disjoint_union_left]

theorem apart_of_touch {x y : Extent} (h : x.1+x.2=y.1) : x.Apart y :=
  apart_iff.mpr (by omega)

theorem tiled_perm {l l' : List Extent} (h : l.Perm l') : Tiled l ↔ Tiled l' :=
  h.pairwise_iff Apart.symm

theorem tiled_cons {e : Extent} {l : List Extent} :
    Tiled (e :: l) ↔ (∀ x ∈ l, e.Apart x) ∧ Tiled l := List.pairwise_cons

theorem tiled_append {l k : List Extent} :
    Tiled (l ++ k) ↔ Tiled l ∧ Tiled k ∧ ∀ x ∈ l, ∀ y ∈ k, x.Apart y := List.pairwise_append

/-- Pieces of two different elements have no byte in common. -/
theorem Tiled.apart_of_positions {α : Type*} {l : List α} {f : α → List Extent}
    (h : Tiled (l.flatMap f)) {i j : Nat} {a b : α} (hi : l[i]?=some a) (hj : l[j]?=some b)
    (hne : i ≠ j) {x y : Extent} (hx : x ∈ f a) (hy : y ∈ f b) : x.Apart y := by
  obtain ⟨hlt,rfl⟩ := List.getElem?_eq_some_iff.mp hi
  obtain ⟨hlt',rfl⟩ := List.getElem?_eq_some_iff.mp hj
  have hp := List.pairwise_iff_getElem.mp (List.pairwise_flatMap.mp h).2
  rcases Nat.lt_or_gt_of_ne hne with hij | hij
  · exact hp i j hlt hlt' hij x hx y hy
  · exact (hp j i hlt' hlt hij y hy x hx).symm

/-- Ranges of one key share no byte, nor do two with different keys. -/
theorem tiled_of_keys {α κ : Type*} [DecidableEq κ] (key : α → κ) (f : α → Extent) {l : List α}
    (h : ∀ k, Tiled ((l.filter fun a => decide (key a=k)).map f))
    (hne : ∀ a ∈ l, ∀ b ∈ l, key a ≠ key b → (f a).Apart (f b)) : Tiled (l.map f) := by
  induction l with
  | nil => simp [Tiled]
  | cons a l ih =>
    rw [List.map_cons,tiled_cons]
    refine ⟨?_,ih ?_ ?_⟩
    · intro x hx
      obtain ⟨b,hb,rfl⟩ := List.mem_map.mp hx
      by_cases hk : key a=key b
      · have ht := h (key a)
        rw [List.filter_cons_of_pos (by simp),List.map_cons,tiled_cons] at ht
        refine ht.1 _ (List.mem_map_of_mem (List.mem_filter.mpr ⟨hb,?_⟩))
        exact decide_eq_true hk.symm
      · exact hne a List.mem_cons_self b (List.mem_cons_of_mem _ hb) hk
    · intro k
      exact (h k).sublist (((List.sublist_cons_self a l).filter _).map f)
    · intro x hx y hy
      exact hne x (List.mem_cons_of_mem _ hx) y (List.mem_cons_of_mem _ hy)

@[simp] theorem total_nil : total []=0 := rfl

@[simp] theorem total_cons (e : Extent) (l : List Extent) : total (e :: l)=e.2+total l := by
  simp [total]

@[simp] theorem total_append (l k : List Extent) : total (l ++ k)=total l+total k := by
  simp [total]

theorem total_perm {l l' : List Extent} (h : l.Perm l') : total l=total l' :=
  (h.map _).sum_eq

theorem covers_perm {l l' : List Extent} (h : l.Perm l') {b : Nat} :
    Covers l b ↔ Covers l' b := by
  simp [Covers,h.mem_iff]

@[simp] theorem covers_append {l k : List Extent} {b : Nat} :
    Covers (l ++ k) b ↔ Covers l b ∨ Covers k b := by
  simp only [Covers,List.mem_append,or_and_right,exists_or]

@[simp] theorem covers_cons {e : Extent} {l : List Extent} {b : Nat} :
    Covers (e :: l) b ↔ b ∈ e.bytes ∨ Covers l b := by
  simp only [Covers,List.mem_cons,or_and_right,exists_or,exists_eq_left]

@[simp] theorem covers_nil {b : Nat} : ¬ Covers [] b := by simp [Covers]

/-- The ranges lie in the first `n` bytes and share none of them. -/
def Packed (n : Nat) (l : List Extent) : Prop := Tiled l ∧ ∀ e ∈ l, e.Within n

instance (n : Nat) (l : List Extent) : Decidable (Packed n l) :=
  inferInstanceAs (Decidable (_ ∧ _))

theorem packed_perm {n : Nat} {l l' : List Extent} (h : l.Perm l') : Packed n l ↔ Packed n l' := by
  unfold Packed
  simp only [tiled_perm h,h.mem_iff]

theorem packed_cons {n : Nat} {e : Extent} {l : List Extent} :
    Packed n (e :: l) ↔ e.Within n ∧ (∀ x ∈ l, e.Apart x) ∧ Packed n l := by
  unfold Packed
  rw [tiled_cons,List.forall_mem_cons]
  tauto

theorem Packed.sublist {n : Nat} {l k : List Extent} (h : Packed n k) (hs : l.Sublist k) :
    Packed n l :=
  ⟨h.1.sublist hs,fun e he => h.2 e (hs.subset he)⟩

/-- The bytes of a list of ranges as a finite set. -/
def union (l : List Extent) : Finset Nat := l.foldr (fun e s => Finset.Ico e.1 (e.1+e.2) ∪ s) ∅

theorem mem_union {l : List Extent} {b : Nat} : b ∈ union l ↔ Covers l b := by
  induction l with
  | nil => simp [union]
  | cons e l ih =>
    simp only [union,List.foldr_cons,Finset.mem_union,Finset.mem_Ico,covers_cons,mem_bytes]
    exact or_congr Iff.rfl ih

theorem card_union {l : List Extent} (h : Tiled l) : (union l).card=total l := by
  induction l with
  | nil => rfl
  | cons e l ih =>
    obtain ⟨hap,ht⟩ := tiled_cons.mp h
    have hd : Disjoint (Finset.Ico e.1 (e.1+e.2)) (union l) := by
      rw [Finset.disjoint_left]
      intro b hb hl
      obtain ⟨x,hx,hbx⟩ := mem_union.mp hl
      exact Set.disjoint_left.mp (hap x hx) (by simpa using hb) hbx
    change (Finset.Ico e.1 (e.1+e.2) ∪ union l).card=_
    rw [Finset.card_union_of_disjoint hd,ih ht,Nat.card_Ico,total_cons]
    omega

/-- Ranges that share no byte fit into the space around them. -/
theorem total_le {l : List Extent} {n : Nat} (h : Tiled l) (hw : ∀ e ∈ l, e.Within n) :
    total l ≤ n := by
  rw [← card_union h]
  have hsub : union l ⊆ Finset.range n := by
    intro b hb
    obtain ⟨e,he,hbe⟩ := mem_union.mp hb
    have := hw e he
    simp only [Within,mem_bytes] at this hbe
    exact Finset.mem_range.mpr (by omega)
  simpa using Finset.card_le_card hsub

/-- Ranges that have every byte of a space are at least as long as it. -/
theorem le_total_of_covers {l : List Extent} {n : Nat} (h : Tiled l)
    (hc : ∀ b < n, Covers l b) : n ≤ total l := by
  rw [← card_union h]
  have hsub : Finset.range n ⊆ union l := by
    intro b hb
    exact mem_union.mpr (hc b (Finset.mem_range.mp hb))
  simpa using Finset.card_le_card hsub

/-- The second list is the first with some touching neighbours joined. -/
inductive Coalesces (l : List Extent) : List Extent → Prop
  | refl : Coalesces l l
  | join {p q : List Extent} {x y : Extent} :
      Coalesces l (p ++ x :: y :: q) → x.1+x.2=y.1 → Coalesces l (p ++ (x.1,x.2+y.2) :: q)

namespace Coalesces

variable {l k : List Extent}

theorem covers_iff (h : Coalesces l k) (b : Nat) : Covers k b ↔ Covers l b := by
  induction h with
  | refl => rfl
  | join _ ht ih =>
    rw [← ih]
    simp only [covers_append,covers_cons,bytes_join ht,Set.mem_union,or_assoc]

theorem total_eq (h : Coalesces l k) : total k=total l := by
  induction h with
  | refl => rfl
  | join _ ht ih =>
    rw [← ih]
    simp only [total_append,total_cons]
    omega

/-- Joining neither hides nor makes an overlap, whatever else is around. -/
theorem tiled_iff (h : Coalesces l k) (rest : List Extent) :
    Tiled (k ++ rest) ↔ Tiled (l ++ rest) := by
  induction h with
  | refl => rfl
  | @join lo hi x y _ ht ih =>
    rw [← ih]
    have hl : ((lo ++ (x.1,x.2+y.2) :: hi) ++ rest).Perm ((x.1,x.2+y.2) :: (lo ++ hi ++ rest)) := by
      simp
    have hr : ((lo ++ x :: y :: hi) ++ rest).Perm (x :: y :: (lo ++ hi ++ rest)) := by
      have hx : (lo ++ x :: y :: hi).Perm (x :: (lo ++ y :: hi)) := List.perm_middle
      have hy : (lo ++ y :: hi).Perm (y :: (lo ++ hi)) := List.perm_middle
      have h1 := hx.append_right rest
      have h2 := (hy.cons x).append_right rest
      simpa using h1.trans h2
    rw [tiled_perm hl,tiled_perm hr,tiled_cons,tiled_cons,tiled_cons]
    have hxy : x.Apart y := apart_of_touch ht
    simp only [apart_join ht,List.forall_mem_cons]
    constructor
    · rintro ⟨h1,h2⟩
      exact ⟨⟨hxy,fun z hz => (h1 z hz).1⟩,fun z hz => (h1 z hz).2,h2⟩
    · rintro ⟨⟨_,h1⟩,h2,h3⟩
      exact ⟨fun z hz => ⟨h1 z hz,h2 z hz⟩,h3⟩

theorem within_iff (h : Coalesces l k) (n : Nat) :
    (∀ e ∈ k, e.Within n) ↔ ∀ e ∈ l, e.Within n := by
  induction h with
  | refl => rfl
  | join _ ht ih =>
    rw [← ih]
    simp only [List.forall_mem_append,List.forall_mem_cons,Within]
    constructor
    · rintro ⟨h1,h2,h3⟩
      exact ⟨h1,by omega,by omega,h3⟩
    · rintro ⟨h1,h2,h3,h4⟩
      exact ⟨h1,by omega,h4⟩

theorem packed_iff (h : Coalesces l k) (n : Nat) (rest : List Extent) :
    Packed n (k ++ rest) ↔ Packed n (l ++ rest) := by
  unfold Packed
  simp only [h.tiled_iff rest,List.forall_mem_append,h.within_iff n]

theorem positive (h : Coalesces l k) (hl : ∀ e ∈ l, 0 < e.2) : ∀ e ∈ k, 0 < e.2 := by
  induction h with
  | refl => exact hl
  | join _ _ ih =>
    simp only [List.forall_mem_append,List.forall_mem_cons] at ih ⊢
    obtain ⟨h1,hx,_,h2⟩ := ih
    exact ⟨h1,by omega,h2⟩

theorem sorted (h : Coalesces l k) (hs : l.Pairwise (fun x y => x.1 < y.1)) :
    k.Pairwise (fun x y => x.1 < y.1) := by
  induction h with
  | refl => exact hs
  | join _ _ ih =>
    simp only [List.pairwise_append,List.pairwise_cons,List.forall_mem_cons] at ih ⊢
    obtain ⟨h1,⟨⟨_,hx⟩,_,h2⟩,h3⟩ := ih
    exact ⟨h1,⟨hx,h2⟩,fun a ha => ⟨(h3 a ha).1,(h3 a ha).2.2⟩⟩

end Coalesces

/-- Cutting a range in two. -/
theorem packed_cut {n m c r : Nat} {l : List Extent} (h : r ≤ c) :
    Packed n ((m,c) :: l) ↔ Packed n ((m,r) :: (m+r,c-r) :: l) := by
  have hj : Coalesces ((m,r) :: (m+r,c-r) :: l) ((m,r+(c-r)) :: l) :=
    .join (p := []) .refl rfl
  have hp := hj.packed_iff n []
  simpa [Nat.add_sub_cancel' h] using hp

theorem Packed.shrink {n m c r : Nat} {l : List Extent} (hp : Packed n ((m,c) :: l)) (h : r ≤ c) :
    Packed n ((m,r) :: l) :=
  ((packed_cut h).mp hp).sublist ((List.sublist_cons_self _ _).cons_cons _)

/-- A range of the first `n` bytes with none that the list covers, as far as it goes. -/
structure MaximalRun (n : Nat) (l : List Extent) (e : Extent) : Prop where
  positive : 0 < e.2
  within : e.Within n
  bare : ∀ b ∈ e.bytes, ¬ Covers l b
  left : e.1 ≠ 0 → Covers l (e.1-1)
  right : e.1+e.2 ≠ n → Covers l (e.1+e.2)

/-- Of two runs with a common byte neither begins before the other nor goes on behind it. -/
theorem MaximalRun.bounds_le {n : Nat} {l : List Extent} {x y : Extent} (hx : MaximalRun n l x)
    (hy : MaximalRun n l y) {b : Nat} (hbx : b ∈ x.bytes) (hby : b ∈ y.bytes) :
    x.1 ≤ y.1 ∧ x.1+x.2 ≤ y.1+y.2 := by
  have hw := hx.within
  simp only [mem_bytes,Extent.Within] at hbx hby hw
  constructor
  · by_contra hlt
    exact hy.bare (x.1-1) (by simp only [mem_bytes]; omega) (hx.left (by omega))
  · by_contra hlt
    exact hx.bare (y.1+y.2) (by simp only [mem_bytes]; omega) (hy.right (by omega))

theorem MaximalRun.eq_of_mem {n : Nat} {l : List Extent} {x y : Extent} (hx : MaximalRun n l x)
    (hy : MaximalRun n l y) {b : Nat} (hbx : b ∈ x.bytes) (hby : b ∈ y.bytes) : x=y := by
  obtain ⟨h1,h2⟩ := hx.bounds_le hy hbx hby
  obtain ⟨h3,h4⟩ := hy.bounds_le hx hby hbx
  exact Prod.ext (by omega) (by omega)

end Extent

end Lib
