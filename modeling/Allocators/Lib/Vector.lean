import Mathlib.Data.List.Basic
import Mathlib.Data.List.Perm.Basic

/-! Operations of a growable array on lists; an iterator is a position. -/

namespace Lib.Vector

variable {α : Type*}

section Middle

variable (lo hi : List α) (x y : α)

@[simp] theorem getElem?_mid : (lo ++ x :: hi)[lo.length]?=some x := by
  simp

@[simp] theorem getElem?_mid_succ : (lo ++ x :: y :: hi)[lo.length+1]?=some y := by
  rw [List.getElem?_append_right (by omega)]
  simp

@[simp] theorem eraseIdx_mid : (lo ++ x :: hi).eraseIdx lo.length=lo ++ hi := by
  simp [List.eraseIdx_append_of_length_le]

@[simp] theorem eraseIdx_mid_succ : (lo ++ x :: y :: hi).eraseIdx (lo.length+1)=lo ++ x :: hi := by
  simp [List.eraseIdx_append_of_length_le]

@[simp] theorem modify_mid (f : α → α) :
    (lo ++ x :: hi).modify lo.length f=lo ++ f x :: hi := by
  induction lo with
  | nil => rfl
  | cons a lo ih => simp [ih]

@[simp] theorem insertIdx_mid : (lo ++ hi).insertIdx lo.length x=lo ++ x :: hi := by
  induction lo with
  | nil => simp
  | cons a lo ih => simp [ih]

@[simp] theorem set_mid : (lo ++ x :: hi).set lo.length y=lo ++ y :: hi := by
  simp [List.set_append_right]

theorem eq_mid {v : List α} {i : Nat} (h : v[i]?=some x) :
    ∃ lo hi, v=lo ++ x :: hi ∧ lo.length=i := by
  obtain ⟨hi,rfl⟩ := List.getElem?_eq_some_iff.mp h
  refine ⟨v.take i,v.drop (i+1),?_,by simp; omega⟩
  rw [← List.drop_eq_getElem_cons,List.take_append_drop]

/-- Only one position tells two vectors apart that differ in one element. -/
theorem getElem?_mid_cases {i : Nat} {z : α} (h : (lo ++ x :: hi)[i]?=some z) :
    (i=lo.length ∧ z=x) ∨ (i ≠ lo.length ∧ (lo ++ y :: hi)[i]?=some z) := by
  by_cases hi' : i=lo.length
  · subst hi'
    rw [getElem?_mid] at h
    exact .inl ⟨rfl,(Option.some.inj h).symm⟩
  · refine .inr ⟨hi',?_⟩
    rcases Nat.lt_or_gt_of_ne hi' with hlt | hgt
    · rw [List.getElem?_append_left hlt] at h ⊢
      exact h
    · obtain ⟨k,rfl⟩ : ∃ k, i=lo.length+(k+1) := ⟨i-lo.length-1,by omega⟩
      rw [List.getElem?_append_right (by omega)] at h ⊢
      simpa using h

/-- What is at a position after one element was written. -/
theorem getElem?_set_cases {v : List α} {i j : Nat} {x y : α} (h : (v.set i x)[j]?=some y) :
    j=i ∧ y=x ∨ j ≠ i ∧ v[j]?=some y := by
  by_cases hj : j=i
  · subst hj
    rw [List.getElem?_set_self'] at h
    cases hv : v[j]? with
    | none => simp [hv] at h
    | some z => exact .inl ⟨rfl,by simpa [hv] using h.symm⟩
  · rw [List.getElem?_set_ne (Ne.symm hj)] at h
    exact .inr ⟨hj,h⟩

/-- What is at a position after one element was added. -/
theorem getElem?_concat_cases {v : List α} {j : Nat} {x y : α} (h : (v ++ [x])[j]?=some y) :
    j < v.length ∧ v[j]?=some y ∨ j=v.length ∧ y=x := by
  by_cases hj : j < v.length
  · rw [List.getElem?_append_left hj] at h
    exact .inl ⟨hj,h⟩
  · have hlt := (List.getElem?_eq_some_iff.mp h).1
    simp only [List.length_append,List.length_singleton] at hlt
    obtain rfl : j=v.length := by omega
    rw [List.getElem?_concat_length,Option.some.injEq] at h
    exact .inr ⟨rfl,h.symm⟩

theorem mem_append_of_getElem? {i : Nat} {z : α} (h : (lo ++ x :: hi)[i]?=some z)
    (hi' : i ≠ lo.length) : z ∈ lo ++ hi := by
  rcases Nat.lt_or_gt_of_ne hi' with hlt | hgt
  · rw [List.getElem?_append_left hlt] at h
    exact List.mem_append_left _ (List.mem_of_getElem? h)
  · obtain ⟨k,rfl⟩ : ∃ k, i=lo.length+(k+1) := ⟨i-lo.length-1,by omega⟩
    rw [List.getElem?_append_right (by omega)] at h
    exact List.mem_append_right _ (List.mem_of_getElem? (by simpa using h))

/-- The first entry with a property splits the vector, if there is one. -/
theorem findIdx?_cases (p : α → Bool) (v : List α) :
    (v.findIdx? p=none ∧ ∀ x ∈ v, p x=false) ∨
    ∃ lo x hi, v=lo ++ x :: hi ∧ (∀ y ∈ lo, p y=false) ∧ p x=true ∧
      v.findIdx? p=some lo.length := by
  cases h : v.findIdx? p with
  | none => exact .inl ⟨rfl,List.findIdx?_eq_none_iff.mp h⟩
  | some i =>
    obtain ⟨hi,hp,hlt⟩ := List.findIdx?_eq_some_iff_getElem.mp h
    refine .inr ⟨v.take i,v[i],v.drop (i+1),?_,?_,hp,by simp; omega⟩
    · rw [← List.drop_eq_getElem_cons hi,List.take_append_drop]
    · intro y hy
      obtain ⟨j,hj,rfl⟩ := List.mem_take_iff_getElem.mp hy
      exact Bool.eq_false_iff.mpr (hlt j (by omega))

theorem flatMap_mid_perm {β : Type*} (f : α → List β) : ((lo ++ x :: hi).flatMap f).Perm
    (f x ++ (lo.flatMap f ++ hi.flatMap f)) := by
  rw [List.flatMap_append,List.flatMap_cons,← List.append_assoc,← List.append_assoc]
  exact List.perm_append_comm.append_right _

end Middle

/-- Takes the element at a position out; the last one fills the place. -/
def swapPop (v : List α) (i : Nat) : List α :=
  match v.getLast? with
  | none => v
  | some back => (v.set i back).dropLast

section SwapPop

variable {lo hi : List α} {x y : α}

@[simp] theorem swapPop_last : swapPop (lo ++ [x]) lo.length=lo := by
  simp [swapPop]

@[simp] theorem swapPop_mid : swapPop (lo ++ x :: (hi ++ [y])) lo.length=lo ++ y :: hi := by
  have hl : (lo ++ x :: (hi ++ [y])).getLast?=some y := by
    rw [← List.cons_append,← List.append_assoc,List.getLast?_concat]
  have hd : (lo ++ y :: (hi ++ [y])).dropLast=lo ++ y :: hi := by
    rw [← List.cons_append,← List.append_assoc,List.dropLast_concat]
  simp only [swapPop,hl,set_mid,hd]

/-- The element taken out does not show in what is left. -/
theorem swapPop_congr (x y : α) (lo hi : List α) :
    swapPop (lo ++ x :: hi) lo.length=swapPop (lo ++ y :: hi) lo.length := by
  rcases List.eq_nil_or_concat' hi with rfl | ⟨hi,z,rfl⟩
  · rw [swapPop_last,swapPop_last]
  · rw [swapPop_mid,swapPop_mid]

theorem swapPop_perm {v : List α} {i : Nat} (h : v[i]?=some x) : (x :: swapPop v i).Perm v := by
  obtain ⟨lo,hi,rfl,rfl⟩ := eq_mid x h
  rcases List.eq_nil_or_concat' hi with rfl | ⟨hi,y,rfl⟩
  · rw [swapPop_last]
    exact (List.perm_append_singleton x lo).symm
  · rw [swapPop_mid]
    have hy : (y :: hi).Perm (hi ++ [y]) := (List.perm_append_singleton y hi).symm
    exact .trans (.cons x (hy.append_left lo)) List.perm_middle.symm

/-- What is left are the other elements. -/
theorem swapPop_perm_eraseIdx {v : List α} {i : Nat} (h : v[i]?=some x) :
    (swapPop v i).Perm (v.eraseIdx i) := by
  have hp := swapPop_perm h
  obtain ⟨lo,hi,rfl,rfl⟩ := eq_mid x h
  rw [eraseIdx_mid]
  exact List.Perm.cons_inv (hp.trans List.perm_middle)

theorem length_swapPop {v : List α} {i : Nat} (h : v[i]?=some x) :
    (swapPop v i).length=v.length-1 := by
  have := (swapPop_perm h).length_eq
  simp only [List.length_cons] at this
  omega

/-- Where an element of the vector was before: the last one moved, the others stayed. -/
theorem getElem?_swapPop {v : List α} {i : Nat} (h : v[i]?=some x) (j : Nat) :
    (swapPop v i)[j]?=
      if j+1 < v.length then if j=i then v[v.length-1]? else v[j]? else none := by
  have hlen := length_swapPop h
  obtain ⟨lo,hi,rfl,rfl⟩ := eq_mid x h
  split_ifs with hj hji
  · obtain rfl := hji
    rcases List.eq_nil_or_concat' hi with rfl | ⟨hi,y,rfl⟩
    · simp at hj
    · rw [swapPop_mid,getElem?_mid]
      have he : lo ++ x :: (hi ++ [y])=(lo ++ x :: hi) ++ [y] := by simp
      rw [he,← List.getLast?_eq_getElem?,List.getLast?_concat]
  · rcases List.eq_nil_or_concat' hi with rfl | ⟨hi,y,rfl⟩
    · rw [swapPop_last]
      rw [List.length_append,List.length_singleton] at hj
      rw [List.getElem?_append_left (by omega)]
    · have he : lo ++ x :: (hi ++ [y])=(lo ++ x :: hi) ++ [y] := by simp
      have hlt : j < (lo ++ x :: hi).length := by
        simp only [List.length_append,List.length_cons,List.length_nil] at hj ⊢
        omega
      rw [swapPop_mid,he,List.getElem?_append_left hlt]
      cases hz : (lo ++ y :: hi)[j]? with
      | none =>
        have hle := List.getElem?_eq_none_iff.mp hz
        simp only [List.length_append,List.length_cons] at hle hlt
        omega
      | some z =>
        rcases getElem?_mid_cases lo hi y x hz with ⟨rfl,_⟩ | ⟨_,hz⟩
        · exact absurd rfl hji
        · exact hz.symm
  · exact List.getElem?_eq_none (by omega)

end SwapPop

/-- `std::swap(v[i], v.back())`. -/
def swapBack (v : List α) (i : Nat) : List α :=
  match v[i]?,v.getLast? with
  | some x,some back => (v.set i back).set (v.length-1) x
  | _,_ => v

/-- `std::memmove` of `n` elements within a vector. -/
def memmove (v : List α) (dest source n : Nat) : List α :=
  v.take dest ++ ((v.drop source).take n ++ v.drop (dest+n))

/-- The element at `it` is moved out, those from `pos` on are shifted by one place, and it is put
at `pos`. -/
def moveBefore (v : List α) (pos it : Nat) : List α :=
  match v[it]? with
  | none => v
  | some x => (memmove v (pos+1) pos (it-pos)).set pos x

section Rearrange

variable {lo mid hi : List α} {x y : α}

theorem swapBack_front : swapBack (x :: (hi ++ [y])) 0=y :: (hi ++ [x]) := by
  have hl : (x :: (hi ++ [y])).getLast?=some y := by
    rw [← List.cons_append,List.getLast?_concat]
  simp [swapBack,hl]

/-- What is removed afterwards is behind the rest. -/
theorem swapBack_eq {v : List α} {i : Nat} (h : v[i]?=some x) :
    swapBack v i=swapPop v i ++ [x] := by
  obtain ⟨lo,hi,rfl,rfl⟩ := eq_mid x h
  rcases List.eq_nil_or_concat' hi with rfl | ⟨hi,y,rfl⟩
  · simp [swapBack]
  · have hl : (lo ++ x :: (hi ++ [y])).getLast?=some y := by
      rw [← List.cons_append,← List.append_assoc,List.getLast?_concat]
    have he : lo ++ y :: (hi ++ [y])=(lo ++ y :: hi) ++ [y] := by simp
    have hn : (lo ++ x :: (hi ++ [y])).length-1=(lo ++ y :: hi).length := by simp
    simp only [swapBack,getElem?_mid,hl,set_mid,swapPop_mid]
    rw [he,hn,set_mid]

theorem dropLast_swapBack {v : List α} {i : Nat} (h : v[i]?=some x) :
    (swapBack v i).dropLast=swapPop v i := by
  rw [swapBack_eq h,List.dropLast_concat]

theorem getLast?_swapBack {v : List α} {i : Nat} (h : v[i]?=some x) :
    (swapBack v i).getLast?=some x := by
  rw [swapBack_eq h,List.getLast?_concat]

theorem moveBefore_eq : moveBefore (lo ++ (mid ++ x :: hi)) lo.length (lo.length+mid.length)=
    lo ++ x :: (mid ++ hi) := by
  have hx : (lo ++ (mid ++ x :: hi))[lo.length+mid.length]?=some x := by
    rw [← List.append_assoc,← List.length_append]
    exact getElem?_mid _ _ _
  obtain ⟨y,ys,hy⟩ : ∃ y ys, mid ++ x :: hi=y :: ys :=
    List.exists_cons_of_ne_nil (by simp)
  have htake : (lo ++ (mid ++ x :: hi)).take (lo.length+1)=lo ++ [y] := by
    rw [hy,List.take_length_add_append]
    rfl
  have hmid : ((lo ++ (mid ++ x :: hi)).drop lo.length).take mid.length=mid := by
    rw [List.drop_left,List.take_left]
  have hdrop : (lo ++ (mid ++ x :: hi)).drop (lo.length+1+mid.length)=hi := by
    have hn : lo.length+1+mid.length=(lo ++ (mid ++ [x])).length := by simp; omega
    have he : lo ++ (mid ++ x :: hi)=(lo ++ (mid ++ [x])) ++ hi := by simp
    rw [hn,he,List.drop_left]
  simp only [moveBefore,hx,memmove,Nat.add_sub_cancel_left,htake,hmid,hdrop]
  rw [List.append_assoc,List.singleton_append,set_mid]

/-- A vector around a position and a later element. -/
theorem eq_mid_of_le {v : List α} {pos it : Nat} (h : pos ≤ it) (hx : v[it]?=some x) :
    ∃ lo mid hi, v=lo ++ (mid ++ x :: hi) ∧ lo.length=pos ∧ lo.length+mid.length=it := by
  obtain ⟨lo,hi,rfl,rfl⟩ := eq_mid x hx
  refine ⟨lo.take pos,lo.drop pos,hi,?_,by simp; omega,by simp; omega⟩
  rw [← List.append_assoc,List.take_append_drop]

/-- The element at `it` comes to `pos`, and those from `pos` on are one place further back. -/
theorem moveBefore_eq_take {v : List α} {pos it : Nat} (h : pos ≤ it) (hx : v[it]?=some x) :
    moveBefore v pos it=v.take pos ++ x :: ((v.drop pos).take (it-pos) ++ v.drop (it+1)) := by
  obtain ⟨lo,mid,hi,rfl,rfl,rfl⟩ := eq_mid_of_le h hx
  have hdrop : (lo ++ (mid ++ x :: hi)).drop (lo.length+mid.length+1)=hi := by
    rw [Nat.add_assoc,List.drop_length_add_append,List.drop_length_add_append]
    rfl
  rw [moveBefore_eq,List.take_left,List.drop_left,Nat.add_sub_cancel_left,List.take_left,hdrop]

/-- Where an element of the rearranged vector was before. -/
theorem getElem?_moveBefore {v : List α} {pos it : Nat} (h : pos ≤ it) (hx : v[it]?=some x)
    (i : Nat) : (moveBefore v pos it)[i]?=
      if i < pos then v[i]? else if i=pos then some x else if i ≤ it then v[i-1]? else v[i]? := by
  obtain ⟨lo,mid,hi,rfl,rfl,rfl⟩ := eq_mid_of_le h hx
  rw [moveBefore_eq]
  split_ifs with h1 h2 h3
  · rw [List.getElem?_append_left h1,List.getElem?_append_left h1]
  · rw [h2,getElem?_mid]
  · obtain ⟨k,rfl⟩ : ∃ k, i=lo.length+(k+1) := ⟨i-lo.length-1,by omega⟩
    have hk : k < mid.length := by omega
    rw [List.getElem?_append_right (by omega),List.getElem?_append_right (by omega)]
    simp [List.getElem?_append_left hk]
  · obtain ⟨k,rfl⟩ : ∃ k, i=lo.length+(mid.length+(k+1)) :=
      ⟨i-lo.length-mid.length-1,by omega⟩
    have hn : lo.length+(mid.length+(k+1))-lo.length=mid.length+(k+1) := by omega
    rw [List.getElem?_append_right (by omega),List.getElem?_append_right (by omega),hn,
      List.getElem?_append_right (by omega),← Nat.add_assoc,List.getElem?_cons_succ,
      List.getElem?_append_right (by omega)]
    have hm : mid.length+k+1-mid.length=k+1 := by omega
    rw [hm,Nat.add_sub_cancel_left,List.getElem?_cons_succ]

/-- What was at `pos` is right behind the element that went before it. -/
theorem getElem?_moveBefore_succ {v : List α} {pos it : Nat} (h : pos < it) (hx : v[it]?=some x) :
    (moveBefore v pos it)[pos+1]?=v[pos]? := by
  rw [getElem?_moveBefore (Nat.le_of_lt h) hx,if_neg (by omega),if_neg (by omega),if_pos (by omega),
    Nat.add_sub_cancel]

theorem moveBefore_perm {v : List α} {pos it : Nat} (h : pos ≤ it) (hx : v[it]?=some x) :
    (moveBefore v pos it).Perm v := by
  obtain ⟨lo,mid,hi,rfl,rfl,rfl⟩ := eq_mid_of_le h hx
  rw [moveBefore_eq]
  exact List.perm_middle.symm.append_left lo

end Rearrange

section Map

variable {β : Type*} (f : α → β) (v : List α) (i pos : Nat)

theorem map_swapBack : (swapBack v i).map f=swapBack (v.map f) i := by
  simp only [swapBack,List.getElem?_map,List.getLast?_map,List.length_map]
  cases v[i]? with
  | none => rfl
  | some x =>
    cases v.getLast? with
    | none => rfl
    | some y => simp [List.map_set]

theorem map_dropLast_swapBack {x : α} (h : v[i]?=some x) :
    (swapBack (v.map f) i).dropLast=(swapPop v i).map f := by
  rw [← map_swapBack,← List.map_dropLast,dropLast_swapBack h]

theorem map_swapPop {x : α} (h : v[i]?=some x) : (swapPop v i).map f=swapPop (v.map f) i := by
  have h' : (v.map f)[i]?=some (f x) := by rw [List.getElem?_map,h,Option.map_some]
  rw [← map_dropLast_swapBack f v i h,dropLast_swapBack h']

theorem map_moveBefore : (moveBefore v pos i).map f=moveBefore (v.map f) pos i := by
  simp only [moveBefore,List.getElem?_map]
  cases v[i]? with
  | none => rfl
  | some x => simp [memmove,List.map_set,List.map_take,List.map_drop]

end Map

/-- The search loop over the `count` elements from `first`; `below` compares with the value. -/
def lowerBoundLoop (below : α → Bool) (v : List α) : Nat → Nat → Nat → Nat
  | 0,first,_ => first
  | fuel+1,first,count =>
    if count=0 then first
    else
      let step := count/2
      if v[first+step]?.any below then lowerBoundLoop below v fuel (first+step+1) (count-(step+1))
      else lowerBoundLoop below v fuel first step

/-- Binary search for the first element that is not below the value. -/
def lowerBound (below : α → Bool) (v : List α) : Nat :=
  lowerBoundLoop below v v.length 0 v.length

theorem lowerBoundLoop_eq {below : α → Bool} {lo hi : List α}
    (hlo : ∀ x ∈ lo, below x=true) (hhi : ∀ x ∈ hi, below x=false)
    (fuel first count : Nat) (hf : count ≤ fuel) (h1 : first ≤ lo.length)
    (h2 : lo.length ≤ first+count) (h3 : first+count ≤ lo.length+hi.length) :
    lowerBoundLoop below (lo ++ hi) fuel first count=lo.length := by
  induction fuel generalizing first count with
  | zero => rw [lowerBoundLoop]; omega
  | succ fuel ih =>
    by_cases hc : count=0
    · rw [lowerBoundLoop,if_pos hc]
      omega
    · rw [lowerBoundLoop,if_neg hc]
      by_cases hm : first+count/2 < lo.length
      · have hb : (lo ++ hi)[first+count/2]?.any below=true := by
          rw [List.getElem?_append_left hm,List.getElem?_eq_getElem hm]
          simp [hlo _ (List.getElem_mem hm)]
        simp only [hb,if_true]
        exact ih _ _ (by omega) (by omega) (by omega) (by omega)
      · have hb : (lo ++ hi)[first+count/2]?.any below=false := by
          rw [List.getElem?_append_right (by omega)]
          cases hx : hi[first+count/2-lo.length]? with
          | none => rfl
          | some x => exact hhi x (List.mem_of_getElem? hx)
        simp only [hb,Bool.false_eq_true,if_false]
        exact ih _ _ (by omega) (by omega) (by omega) (by omega)

/-- On a list that is below the value up to some position and not below it from there on,
the search finds that position. -/
theorem lowerBound_eq {below : α → Bool} {lo hi : List α}
    (hlo : ∀ x ∈ lo, below x=true) (hhi : ∀ x ∈ hi, below x=false) :
    lowerBound below (lo ++ hi)=lo.length :=
  lowerBoundLoop_eq hlo hhi _ _ _ (by simp) (by omega) (by simp) (by simp)

end Lib.Vector
