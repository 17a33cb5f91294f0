import Allocators.FreeList.Policy

/-! What `PolicyT::add` does to the ordered entries, whichever container holds them. -/

namespace Allocators.FreeList

open Lib

variable (bytes : Nat)

/-- `PolicyT.coalesce` on the entries. -/
def coalesceAt (l : List Entry) (i : Nat) : List Entry :=
  match l[i]?,l[i+1]? with
  | some e,some next =>
    if e.1+e.2=next.1 then
      (l.modify i (fun x => (x.1,toSizeType bytes (e.2+next.2)))).eraseIdx (i+1)
    else l
  | _,_ => l

/-- The two joins after an entry was found or put at a position. -/
def coalesceAround (l : List Entry) (i : Nat) : List Entry :=
  if i=0 then coalesceAt bytes l i else coalesceAt bytes (coalesceAt bytes l i) (i-1)

theorem coalesceAt_touch (lo hi : List Entry) (x y : Entry) (h : x.1+x.2=y.1) :
    coalesceAt bytes (lo ++ x :: y :: hi) lo.length=
      lo ++ (x.1,toSizeType bytes (x.2+y.2)) :: hi := by
  simp [coalesceAt,h]

theorem coalesceAt_gap (lo hi : List Entry) (x y : Entry) (h : x.1+x.2 ≠ y.1) :
    coalesceAt bytes (lo ++ x :: y :: hi) lo.length=lo ++ x :: y :: hi := by
  simp [coalesceAt,h]

theorem coalesceAt_last (lo : List Entry) (x : Entry) :
    coalesceAt bytes (lo ++ [x]) lo.length=lo ++ [x] := by
  simp [coalesceAt]

theorem coalesceAt_sorted {l : List Entry} (h : Sorted l) (i : Nat) :
    Sorted (coalesceAt bytes l i) := by
  unfold coalesceAt
  split
  · split_ifs
    · exact (h.modify i _).eraseIdx (i+1)
    · exact h
  · exact h

theorem coalesceAround_sorted {l : List Entry} (h : Sorted l) (i : Nat) :
    Sorted (coalesceAround bytes l i) := by
  unfold coalesceAround
  split_ifs
  · exact coalesceAt_sorted bytes h i
  · exact coalesceAt_sorted bytes (coalesceAt_sorted bytes h i) (i-1)

/-- While the sizes together fit into a `size_type`, a join loses nothing. -/
theorem coalesceAt_coalesces {l k : List Entry} (h : Extent.Coalesces l k)
    (hfit : Extent.total l < 2^sizeBits bytes) (i : Nat) :
    Extent.Coalesces l (coalesceAt bytes k i) := by
  unfold coalesceAt
  split
  · rename_i e next he hn
    split_ifs with ht
    · obtain ⟨hi,hie⟩ := List.getElem?_eq_some_iff.mp he
      obtain ⟨hj,hje⟩ := List.getElem?_eq_some_iff.mp hn
      have hk : k=k.take i ++ e :: next :: k.drop (i+2) := by
        rw [← hie,← hje,← List.drop_eq_getElem_cons hj,← List.drop_eq_getElem_cons hi,
          List.take_append_drop]
      have hl : (k.take i).length=i := by simp; omega
      have hsum : e.2+next.2 < 2^sizeBits bytes := by
        rw [← h.total_eq,hk] at hfit
        simp only [Extent.total_append,Extent.total_cons] at hfit
        omega
      have hfull : (k.modify i (fun x => (x.1,toSizeType bytes (e.2+next.2)))).eraseIdx (i+1)=
          k.take i ++ (e.1,e.2+next.2) :: k.drop (i+2) := by
        have hm := Vector.modify_mid (k.take i) (next :: k.drop (i+2)) e
          (fun x => (x.1,toSizeType bytes (e.2+next.2)))
        rw [hl,← hk] at hm
        have hr := Vector.eraseIdx_mid_succ (k.take i) (k.drop (i+2))
          (e.1,toSizeType bytes (e.2+next.2)) next
        rw [hl,← hm] at hr
        rw [hr,toSizeType,Nat.mod_eq_of_lt hsum]
      rw [hfull]
      exact .join (hk ▸ h) ht
    · exact h
  · exact h

theorem coalesceAround_coalesces {l : List Entry} (hfit : Extent.total l < 2^sizeBits bytes)
    (i : Nat) : Extent.Coalesces l (coalesceAround bytes l i) := by
  unfold coalesceAround
  split_ifs
  · exact coalesceAt_coalesces bytes .refl hfit i
  · exact coalesceAt_coalesces bytes (coalesceAt_coalesces bytes .refl hfit i) hfit (i-1)

section Add

variable {S : Type} [Storage S] [LawfulStorage S] {s : S} {lo hi : List Entry}

open LawfulStorage

theorem entries_coalesce (s : S) (it : Nat) :
    Storage.entries (PolicyT.coalesce bytes s it)=coalesceAt bytes (Storage.entries s) it := by
  unfold PolicyT.coalesce coalesceAt
  cases he : (Storage.entries s)[it]? with
  | none => rfl
  | some e =>
    cases hn : (Storage.entries s)[it+1]? with
    | none => rfl
    | some next =>
      by_cases ht : e.1+e.2=next.1
      · simp only [if_pos ht,entries_erase,entries_setSecond]
      · simp only [if_neg ht]

theorem entries_coalesceAround (s : S) (it : Nat) :
    Storage.entries (if it=0 then PolicyT.coalesce bytes s it
      else PolicyT.coalesce bytes (PolicyT.coalesce bytes s it) (it-1))=
      coalesceAround bytes (Storage.entries s) it := by
  unfold coalesceAround
  split_ifs <;> simp only [entries_coalesce]

/-- The first path: the size is recorded as it is passed. -/
theorem entries_add_empty (h : Storage.entries s=[]) (start size : Nat) :
    Storage.entries (PolicyT.add bytes s start size)=[(start,size)] := by
  have hp := emplace_split (s := s) (l := []) (r := []) (e := (start,size)) h (by simp) (by simp)
  simpa [PolicyT.add,h] using hp.1

/-- The second path: the header is added to the size. -/
theorem entries_add_new (h : Storage.entries s=lo ++ hi) (hne : lo ++ hi ≠ []) {start : Nat}
    (hlo : ∀ x ∈ lo, x.1 < start) (hhi : ∀ x ∈ hi, start < x.1) (size : Nat) :
    Storage.entries (PolicyT.add bytes s start size)=
      coalesceAround bytes (lo ++ (start,toSizeType bytes (size+headerSize bytes)) :: hi)
        lo.length := by
  have hb := lowerBound_split h hlo (fun x hx => (hhi x hx).le)
  have hp := emplace_split (e := (start,toSizeType bytes (size+headerSize bytes))) h hlo hhi
  have hall : (lo ++ hi)[lo.length]?.all (fun e => decide (start < e.1))=true := by
    cases hi with
    | nil => simp
    | cons x hi => simpa using hhi x (by simp)
  unfold PolicyT.add
  rw [if_neg (by simpa [h] using hne)]
  simp only [hb,h,hall,if_true,hp.2]
  rw [← hp.1,← entries_coalesceAround]

/-- The second path where the address is already a key: nothing is recorded. -/
theorem entries_add_old {e : Entry} (h : Storage.entries s=lo ++ e :: hi)
    (hlo : ∀ x ∈ lo, x.1 < e.1) (hhi : ∀ x ∈ hi, e.1 < x.1) (size : Nat) :
    Storage.entries (PolicyT.add bytes s e.1 size)=
      coalesceAround bytes (lo ++ e :: hi) lo.length := by
  have hb := lowerBound_split h hlo
    (List.forall_mem_cons.mpr ⟨le_rfl,fun x hx => (hhi x hx).le⟩)
  unfold PolicyT.add
  rw [if_neg (by simp [h])]
  simp only [hb,h,Vector.getElem?_mid,Option.all_some,lt_irrefl,decide_false,
    Bool.false_eq_true,if_false]
  rw [← h,← entries_coalesceAround]

/-- The three ways of `add` on ordered entries. -/
theorem entries_add_cases (hs : Sorted (Storage.entries s)) (start size : Nat) :
    (Storage.entries s=[] ∧
      Storage.entries (PolicyT.add bytes s start size)=[(start,size)]) ∨
    (∃ lo hi, Storage.entries s=lo ++ hi ∧ lo ++ hi ≠ [] ∧
      (∀ x ∈ lo, x.1 < start) ∧ (∀ x ∈ hi, start < x.1) ∧
      Storage.entries (PolicyT.add bytes s start size)=
        coalesceAround bytes (lo ++ (start,toSizeType bytes (size+headerSize bytes)) :: hi)
          lo.length) ∨
    (∃ lo e hi, Storage.entries s=lo ++ e :: hi ∧ e.1=start ∧
      Storage.entries (PolicyT.add bytes s start size)=
        coalesceAround bytes (lo ++ e :: hi) lo.length) := by
  by_cases hne : Storage.entries s=[]
  · exact .inl ⟨hne,entries_add_empty bytes hne start size⟩
  · obtain ⟨lo,hi,hlo,hhi,h | ⟨e,rfl,h⟩⟩ := hs.splitKey start
    · exact .inr (.inl ⟨lo,hi,h,h ▸ hne,hlo,hhi,entries_add_new bytes h (h ▸ hne) hlo hhi size⟩)
    · exact .inr (.inr ⟨lo,e,hi,h,rfl,entries_add_old bytes h hlo hhi size⟩)

theorem entries_add_sorted (hs : Sorted (Storage.entries s)) (start size : Nat) :
    Sorted (Storage.entries (PolicyT.add bytes s start size)) := by
  obtain ⟨_,h⟩ | ⟨lo,hi,he,_,hlo,hhi,h⟩ | ⟨lo,e,hi,he,_,h⟩ :=
    entries_add_cases bytes hs start size
  · rw [h]
    exact List.pairwise_singleton _ _
  · rw [h]
    exact coalesceAround_sorted bytes ((he ▸ hs).insert hlo hhi) lo.length
  · rw [h]
    exact coalesceAround_sorted bytes (he ▸ hs) lo.length

/-- Two containers with the same ordered entries have the same entries after `add`. -/
theorem entries_add_congr {T : Type} [Storage T] [LawfulStorage T] {t : T}
    (he : Storage.entries s=Storage.entries t) (hs : Sorted (Storage.entries s))
    (start size : Nat) :
    Storage.entries (PolicyT.add bytes s start size)=
      Storage.entries (PolicyT.add bytes t start size) := by
  by_cases hne : Storage.entries s=[]
  · rw [entries_add_empty bytes hne,entries_add_empty bytes (he ▸ hne)]
  · obtain ⟨lo,hi,hlo,hhi,h | ⟨e,rfl,h⟩⟩ := hs.splitKey start
    · rw [entries_add_new bytes h (h ▸ hne) hlo hhi,
        entries_add_new bytes (he ▸ h) (h ▸ hne) hlo hhi]
    · rw [entries_add_old bytes h hlo hhi,entries_add_old bytes (he ▸ h) hlo hhi]

theorem entries_freeAll : Storage.entries (PolicyT.freeAll bytes : S)=[(0,bytes)] :=
  (emplace_split (s := (Storage.clear : S)) (l := []) (r := []) (e := (0,bytes))
    entries_clear (by simp) (by simp)).1

end Add

end Allocators.FreeList
