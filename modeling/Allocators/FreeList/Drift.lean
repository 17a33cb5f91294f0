import Allocators.FreeList.Steps
import Mathlib.Data.Int.ModEq

/-! By how much the sizes in `availible` depart from `bytesFree`. -/

namespace Allocators.FreeList

open Lib Extent

variable (bytes : Nat)

/-- What `add` records of `size` bytes and a header at `start`. -/
def recorded (l : List Entry) (start size : Nat) : Nat :=
  if l=[] then size else if ∃ e ∈ l, e.1=start then 0 else size+headerSize bytes

section Totals

variable {bytes}

theorem toSizeType_modEq (n : Nat) : (toSizeType bytes n : Int) ≡ n [ZMOD 2^sizeBits bytes] := by
  rw [toSizeType]
  push_cast
  exact Int.mod_modEq _ _

/-- A `size_type` difference, before it is cut. -/
theorem toSizeType_sub_modEq {m n : Nat} (hn : n < 2^64) :
    (toSizeType bytes (m+2^64-n) : Int) ≡ m-n [ZMOD 2^sizeBits bytes] := by
  obtain ⟨c,hc⟩ : 2^sizeBits bytes ∣ 2^64 := pow_dvd_pow 2 (sizeBits_le bytes)
  have he : ((m+2^64-n : Nat) : Int)=m-n+2^sizeBits bytes*c := by
    rw [Nat.cast_sub (by omega),Nat.cast_add,hc]
    push_cast
    ring
  refine (toSizeType_modEq _).trans ?_
  rw [he]
  exact Int.modEq_iff_dvd.mpr ⟨-c,by ring⟩

theorem total_coalesceAt (l : List Entry) (i : Nat) :
    (total (coalesceAt bytes l i) : Int) ≡ total l [ZMOD 2^sizeBits bytes] := by
  cases he : l[i]? with
  | none => simp [coalesceAt,he]
  | some e =>
    obtain ⟨lo,hi,rfl,rfl⟩ := Vector.eq_mid _ he
    cases hi with
    | nil => rw [coalesceAt_last]
    | cons y hi =>
      by_cases ht : e.1+e.2=y.1
      · rw [coalesceAt_touch bytes lo hi e y ht]
        simp only [total_append,total_cons,Nat.cast_add]
        have hx : (toSizeType bytes (e.2+y.2) : Int) ≡ e.2+y.2 [ZMOD 2^sizeBits bytes] := by
          exact_mod_cast toSizeType_modEq (e.2+y.2)
        refine ((hx.add_right _).add_left _).trans ?_
        rw [Int.add_assoc (e.2 : Int)]
      · rw [coalesceAt_gap bytes lo hi e y ht]

theorem total_coalesceAround (l : List Entry) (i : Nat) :
    (total (coalesceAround bytes l i) : Int) ≡ total l [ZMOD 2^sizeBits bytes] := by
  unfold coalesceAround
  split_ifs
  · exact total_coalesceAt l i
  · exact (total_coalesceAt _ (i-1)).trans (total_coalesceAt l i)

variable {S : Type} [Storage S]

/-- The chunk a request is served from, and the others. -/
theorem Grant.find_erase {p p' : PolicyInterface S} {req mem chunk : Nat} {lo hi : List Entry}
    (g : Grant bytes p p' req mem chunk lo hi) :
    (Storage.entries p.availible).find? (fun e => decide (req ≤ e.2))=some (mem,chunk) ∧
      (Storage.entries p.availible).erase (mem,chunk)=lo ++ hi := by
  have hc := g.enough
  have hlo : ∀ x ∈ lo, ¬ req ≤ x.2 := by
    intro x hx
    have := g.first x hx
    omega
  rw [g.entries]
  constructor
  · refine List.find?_eq_some_iff_append.mpr ⟨by simpa using hc,lo,hi,rfl,fun x hx => ?_⟩
    simpa using hlo x hx
  · rw [List.erase_append_right _ fun hm => hlo _ hm hc,List.erase_cons_head]

variable [LawfulStorage S] {s : S}

/-- `add` records this much more. -/
theorem total_add (hs : Sorted (Storage.entries s)) (start size : Nat) :
    (total (Storage.entries (PolicyT.add bytes s start size)) : Int) ≡
      total (Storage.entries s)+recorded bytes (Storage.entries s) start size
        [ZMOD 2^sizeBits bytes] := by
  obtain ⟨hnil,he⟩ | ⟨lo,hi,hlr,hne,hlo,hhi,he⟩ | ⟨lo,e,hi,hlr,hk,he⟩ :=
    entries_add_cases bytes hs start size
  · simp [he,hnil,recorded]
  · have hno : ¬ ∃ e ∈ lo ++ hi, e.1=start := by
      rintro ⟨e,hm,heq⟩
      rcases List.mem_append.mp hm with hm | hm
      · exact (hlo e hm).ne heq
      · exact (hhi e hm).ne' heq
    rw [he,hlr,recorded,if_neg hne,if_neg hno]
    refine (total_coalesceAround _ _).trans ?_
    rw [total_perm List.perm_middle,total_cons]
    simp only [total_append]
    push_cast
    refine ((toSizeType_modEq _).add_right _).trans ?_
    push_cast
    rw [Int.add_comm]
  · have hyes : ∃ x ∈ lo ++ e :: hi, x.1=start := ⟨e,by simp,hk⟩
    rw [he,hlr,recorded,if_neg (by simp),if_pos hyes]
    exact_mod_cast total_coalesceAround _ _

end Totals

namespace Arena

variable {S : Type} [Storage S]

/-- What a call records, less what it takes back. -/
def drift (a : Arena S) : Call → Int
  | .allocate sizeofT count =>
    let req := PolicyInterface.reqBytes bytes sizeofT count
    match (availible a).find? (fun e => decide (req ≤ e.2)) with
    | none => 0
    | some chunk =>
      if req < chunk.2 then
        recorded bytes ((availible a).erase chunk) (chunk.1+req) (chunk.2-req)-(chunk.2-req : Nat)
      else 0
  | .deallocate ptr =>
    recorded bytes (availible a) (ptr-headerSize bytes) (userBytes bytes a ptr)-
      (userBytes bytes a ptr+headerSize bytes : Nat)
  | _ => 0

/-- The sum over a run, since the last `freeAll`. -/
def drifts : List (Arena S × Call) → Int
  | [] => 0
  | (_,.freeAll) :: _ => 0
  | (a,c) :: h => drift bytes a c+drifts h

variable {bytes} {a a' : Arena S} {c : Call} {n : Int}

/-- What is recorded, and how far it is from `bytesFree`. -/
structure Drifted (bytes : Nat) (a : Arena S) (n : Int) : Prop where
  sorted : Sorted (availible a)
  search : a.itf.search=.firstFit
  total : (total (availible a) : Int) ≡ a.itf.bytesFree+n [ZMOD 2^sizeBits bytes]

namespace Drifted

variable [LawfulStorage S]

theorem fresh (memory : Memory) : Drifted bytes (Arena.fresh bytes memory : Arena S) 0 := by
  have he : availible (Arena.fresh bytes memory : Arena S)=[(0,bytes)] :=
    entries_add_empty bytes LawfulStorage.entries_clear 0 bytes
  refine ⟨?_,rfl,?_⟩
  · rw [he]
    exact List.pairwise_singleton _ _
  · rw [he]
    simp [Arena.fresh,PolicyInterface.make]

theorem allocate (h : Drifted bytes a n) {sizeofT count : Nat} {r : Reply}
    (hs : serve bytes a (.allocate sizeofT count)=some (a',r)) :
    Drifted bytes a' (drift bytes a (.allocate sizeofT count)+n) := by
  obtain ⟨hn,hsmall⟩ | ⟨p',lo,mem,chunk,hi,hp,g⟩ :=
    allocate_cases bytes a.itf h.search sizeofT count
  · have hnone : (availible a).find?
        (fun e => decide (PolicyInterface.reqBytes bytes sizeofT count ≤ e.2))=none := by
      refine List.find?_eq_none.mpr fun e he => ?_
      have := hsmall e he
      simpa using this
    simp only [serve,hn] at hs
    obtain ⟨rfl,_⟩ := Prod.mk.inj (Option.some.inj hs)
    simpa [drift,hnone] using h
  · simp only [serve,hp] at hs
    obtain ⟨rfl,_⟩ := Prod.mk.inj (Option.some.inj hs)
    obtain ⟨hfind,herase⟩ := g.find_erase
    have hlt : PolicyInterface.reqBytes bytes sizeofT count < 2^64 := by
      refine lt_of_lt_of_le (Nat.mod_lt _ (Nat.two_pow_pos _)) ?_
      exact Nat.pow_le_pow_right (by decide) (sizeBits_le bytes)
    have hav : (availible a).Perm ((mem,chunk) :: (lo ++ hi)) := by
      rw [availible,g.entries]
      exact List.perm_middle
    have hsort : Sorted (lo ++ hi) := by
      have hx := h.sorted
      rw [availible,g.entries] at hx
      exact hx.sublist ((List.sublist_cons_self _ _).append_left lo)
    have hfree : (p'.bytesFree : Int) ≡ a.itf.bytesFree-
        PolicyInterface.reqBytes bytes sizeofT count [ZMOD 2^sizeBits bytes] := by
      rw [g.bytesFree]
      exact toSizeType_sub_modEq hlt
    have htot := h.total
    rw [total_perm hav,total_cons] at htot
    have henough := g.enough
    simp only [drift,availible,hfind,herase]
    by_cases hc : PolicyInterface.reqBytes bytes sizeofT count < chunk
    · rw [if_pos hc]
      obtain ⟨s,he,hadd⟩ := g.rest hc
      refine ⟨?_,g.search.trans h.search,?_⟩
      · rw [availible,hadd]
        exact entries_add_sorted bytes (he ▸ hsort) _ _
      · rw [availible,hadd]
        refine (total_add (he ▸ hsort) _ _).trans ?_
        rw [he]
        obtain ⟨x,hx⟩ := Int.modEq_iff_dvd.mp htot
        obtain ⟨y,hy⟩ := Int.modEq_iff_dvd.mp hfree
        refine Int.modEq_iff_dvd.mpr ⟨x-y,?_⟩
        push_cast [Nat.cast_sub hc.le] at hx ⊢
        linear_combination hx-hy
    · rw [if_neg hc]
      have he := g.exact (by omega)
      refine ⟨by rw [availible,he]; exact hsort,g.search.trans h.search,?_⟩
      rw [availible,he]
      obtain ⟨x,hx⟩ := Int.modEq_iff_dvd.mp htot
      obtain ⟨y,hy⟩ := Int.modEq_iff_dvd.mp hfree
      refine Int.modEq_iff_dvd.mpr ⟨x-y,?_⟩
      have heq : chunk=PolicyInterface.reqBytes bytes sizeofT count := by omega
      push_cast [heq] at hx ⊢
      linear_combination hx-hy

theorem deallocate (h : Drifted bytes a n) (ptr : Nat) :
    Drifted bytes ⟨a.itf.deallocate bytes ptr,a.live.erase ptr⟩
      (drift bytes a (.deallocate ptr)+n) := by
  refine ⟨entries_add_sorted bytes h.sorted _ _,h.search,?_⟩
  have hfree : (toSizeType bytes (a.itf.bytesFree+userBytes bytes a ptr+headerSize bytes) : Int) ≡
      (a.itf.bytesFree+userBytes bytes a ptr+headerSize bytes : Nat) [ZMOD 2^sizeBits bytes] :=
    toSizeType_modEq _
  refine (total_add h.sorted (ptr-headerSize bytes) (userBytes bytes a ptr)).trans ?_
  refine (h.total.add_right _).trans (Int.ModEq.symm ((hfree.add_right _).trans ?_))
  apply congrArg (·%(2^sizeBits bytes : Int))
  simp only [drift,availible]
  push_cast
  ring

theorem freeAll (h : Drifted bytes a n) : Drifted bytes ⟨a.itf.freeAll bytes,[]⟩ 0 := by
  have he : availible (⟨a.itf.freeAll bytes,[]⟩ : Arena S)=[(0,bytes)] := entries_freeAll bytes
  refine ⟨?_,h.search,?_⟩
  · rw [he]
    exact List.pairwise_singleton _ _
  · rw [he]
    simp [PolicyInterface.freeAll]

end Drifted

/-- However a run goes, also where blocks overlap or requests are cut off: the sizes in `availible`
exceed `bytesFree` by a header for every chunk that was cut beside others, less a header for every
block given back to an empty list, and less what came back to an address recorded already. -/
theorem availible_drifts (P : Policy) (bytes : Nat) (allowed : Call → Prop) [DecidablePred allowed]
    {h : List (Arena P.Store × Call)} {a : Arena P.Store} (r : (machine bytes allowed).Run h a) :
    (total (availible a) : Int) ≡ a.itf.bytesFree+drifts bytes h [ZMOD 2^sizeBits bytes] := by
  suffices hd : Drifted bytes a (drifts bytes h) from hd.total
  induction r with
  | start h0 =>
    obtain ⟨memory,rfl⟩ := h0
    exact .fresh memory
  | @step h a a' c r hn ih =>
    obtain ⟨_,reply,hs⟩ := next_cases hn
    cases c with
    | allocate sizeofT count => exact ih.allocate hs
    | deallocate ptr =>
      obtain ⟨_,rfl⟩ := serve_deallocate hs
      exact ih.deallocate ptr
    | freeAll =>
      obtain ⟨rfl,_⟩ := Prod.mk.inj (Option.some.inj hs)
      exact ih.freeAll
    | write ptr offset byte =>
      obtain ⟨_,rfl⟩ := serve_write hs
      have h0 : drifts bytes ((a,.write ptr offset byte) :: h)=drifts bytes h := Int.zero_add _
      exact ⟨ih.sorted,ih.search,h0 ▸ ih.total⟩

/-- A chunk of 5 bytes is cut beside another one; the list then records a byte more than are free. -/
theorem availible_drifts_cut : ∃ (h : List (Arena Policy.tree.Store × Call))
    (a : Arena Policy.tree.Store), (availible a=[(2,4),(10,6)] ∧ a.itf.bytesFree=9) ∧
    (total (availible a) : Int) ≡ a.itf.bytesFree+drifts 16 h [ZMOD 2^sizeBits 16] := by
  obtain ⟨a,⟨h,r⟩,ha⟩ := Machine.reachable_of_runFrom (machine 16 (Call.Fits 16))
    (fresh 16 fun _ => 0) [.allocate 1 4,.allocate 1 4,.deallocate 1,.allocate 1 1]
    (fun a : Arena Policy.tree.Store => availible a=[(2,4),(10,6)] ∧ a.itf.bytesFree=9) ⟨_,rfl⟩
    (by decide)
  exact ⟨h,a,ha,availible_drifts .tree 16 (Call.Fits 16) r⟩

end Arena

end Allocators.FreeList
