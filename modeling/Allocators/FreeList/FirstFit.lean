import Allocators.FreeList.Coalescing
import Allocators.Lib.Holes

/-! An arena is its blocks: what `FreeList` does as long as `add` treats headers rightly. -/

namespace Allocators.FreeList

open Lib Extent

namespace Layout

variable (bytes : Nat)

/-- The calls on blocks, headers included: each goes to the lowest place that has room for it. -/
def serve (l : List Extent) : Call → Option (List Extent × Reply)
  | .allocate sizeofT count =>
    let n := sizeofT*count+headerSize bytes
    match lowest bytes l n with
    | none => some (l,.badAlloc)
    | some i => some ((i,n) :: l,.pointer (i+headerSize bytes))
  | .deallocate ptr =>
    if ptr ∈ l.map (fun e => e.1+headerSize bytes) then
      some (l.eraseP fun e => decide (e.1+headerSize bytes=ptr),.done)
    else none
  | .freeAll => some ([],.done)
  | .write ptr offset _ =>
    if ∃ e ∈ l, e.1+headerSize bytes=ptr ∧ headerSize bytes+offset < e.2 then some (l,.done)
    else none

def machine : Machine (List Extent) Call where
  start l := l=[]
  next l c := (serve bytes l c).map Prod.fst

end Layout

namespace Arena

variable {bytes : Nat} {S : Type} [Storage S] {a a' : Arena S} {ptr offset : Nat}

namespace Sound

theorem ptrs_eq (h : Sound bytes a) :
    (blocks bytes a).map (fun e => e.1+headerSize bytes)=a.live := by
  rw [blocks,List.map_map]
  refine (List.map_congr_left ?_).trans a.live.map_id
  intro ptr hp
  exact Nat.sub_add_cancel (h.header ptr hp)

/-- A pointer tells its block. -/
theorem eraseP_blocks (h : Sound bytes a) (ptr : Nat) :
    (blocks bytes a).eraseP (fun e => decide (e.1+headerSize bytes=ptr))=
      (a.live.erase ptr).map (block bytes a) := by
  have hx : ∀ l : List Nat, (∀ p ∈ l, headerSize bytes ≤ p) →
      (l.map (block bytes a)).eraseP (fun e => decide (e.1+headerSize bytes=ptr))=
        (l.erase ptr).map (block bytes a) := by
    intro l hl
    induction l with
    | nil => rfl
    | cons p l ih =>
      obtain ⟨hp,hl⟩ := List.forall_mem_cons.mp hl
      have he : (block bytes a p).1+headerSize bytes=p := Nat.sub_add_cancel hp
      by_cases hpp : p=ptr
      · subst hpp
        simp [he]
      · simp [he,hpp,ih hl]
  exact hx a.live h.header

end Sound

namespace Exact

/-- What fits between the blocks fits into a chunk, which does not begin behind it. -/
theorem chunk_of_hole (h : Exact bytes a) {n i : Nat} (hn : 0 < n)
    (hi : Hole bytes (blocks bytes a) n i) : ∃ e ∈ availible a, e.1 ≤ i ∧ n ≤ e.2 := by
  have hw := hi.1
  have hmem : i ∈ Extent.bytes (i,n) := by simpa using hn
  rcases covers_append.mp (h.covered i (by omega)) with ⟨e,he,hie⟩ | hc
  · obtain ⟨h1,h2⟩ := (h.maximalRun he).holds hi hie
    exact ⟨e,he,h1,by omega⟩
  · exact absurd hc (hi.not_covers hmem)

variable [LawfulStorage S] {c : Call} {r : Reply}

/-- The first chunk that is large enough is the lowest place. -/
theorem allocate_layout (h : Exact bytes a) (hv : ValidSize bytes) {sizeofT count : Nat}
    (hf : (Call.allocate sizeofT count).Fits bytes) :
    (serve bytes a (.allocate sizeofT count)).map (fun x => (blocks bytes x.1,x.2))=
      Layout.serve bytes (blocks bytes a) (.allocate sizeofT count) := by
  have hreq := reqBytes_of_fits hv hf.1 hf.2
  have hH := headerSize_pos bytes
  obtain ⟨hn,hsmall⟩ | ⟨p',lo,mem,chunk,hi,hp,g⟩ :=
    FreeList.allocate_cases bytes a.itf h.search sizeofT count
  · have hnone : lowest bytes (blocks bytes a) (sizeofT*count+headerSize bytes)=none := by
      refine lowest_eq_none_iff.mpr fun i hi => ?_
      obtain ⟨e,he,_,hle⟩ := h.chunk_of_hole (by omega) hi
      have := hsmall e he
      omega
    simp only [serve,hn,Layout.serve,hnone,Option.map_some]
  · rw [hreq] at g
    have hb := h.toSound.blocks_grant g hv (by omega)
    have hcut := h.toSound.cut_packed g
    obtain ⟨hw,hap,_⟩ := packed_cons.mp hcut
    have hsome : lowest bytes (blocks bytes a) (sizeofT*count+headerSize bytes)=some mem := by
      refine lowest_eq_some_iff.mpr ⟨⟨hw,?_⟩,?_⟩
      · exact fun e he => hap e (List.mem_cons_of_mem _ (List.mem_append_right _ he))
      · intro j hj hhole
        obtain ⟨e,he,hej,hle⟩ := h.chunk_of_hole (by omega) hhole
        have hs := h.sorted
        rw [availible,g.entries] at he hs
        rcases List.mem_append.mp he with he | he
        · have := g.first e he
          omega
        · rcases List.mem_cons.mp he with rfl | he
          · simp only at hej
            omega
          · have := (List.pairwise_cons.mp (List.pairwise_append.mp hs).2.1).1 e he
            simp only at this
            omega
    simp only [serve,hp,Layout.serve,hsome,Option.map_some,hb]

/-- Every call answers as it does on the blocks alone, and does the same to them. -/
theorem serve_layout (h : Exact bytes a) (hv : ValidSize bytes) (hf : c.Fits bytes) :
    (serve bytes a c).map (fun x => (blocks bytes x.1,x.2))=
      Layout.serve bytes (blocks bytes a) c := by
  cases c with
  | allocate sizeofT count => exact h.allocate_layout hv hf
  | deallocate ptr =>
    simp only [serve,Layout.serve,h.ptrs_eq,h.eraseP_blocks]
    split_ifs
    · rfl
    · rfl
  | freeAll => rfl
  | write ptr offset byte =>
    have hiff : (ptr ∈ a.live ∧ offset < userBytes bytes a ptr) ↔
        ∃ e ∈ blocks bytes a, e.1+headerSize bytes=ptr ∧ headerSize bytes+offset < e.2 := by
      constructor
      · rintro ⟨hm,ho⟩
        exact ⟨block bytes a ptr,mem_blocks hm,Nat.sub_add_cancel (h.header ptr hm),
          by simp only [block]; omega⟩
      · rintro ⟨e,he,rfl,ho⟩
        obtain ⟨p,hp,rfl⟩ := List.mem_map.mp he
        have hpp : (block bytes a p).1+headerSize bytes=p := Nat.sub_add_cancel (h.header p hp)
        rw [hpp]
        exact ⟨hp,by simp only [block] at ho; omega⟩
    by_cases hc : ptr ∈ a.live ∧ offset < userBytes bytes a ptr
    · simp only [serve,Layout.serve,if_pos hc,if_pos (hiff.mp hc),Option.map_some]
      rw [← h.toSound.blocks_write hc.1 hc.2]
    · simp only [serve,Layout.serve,if_neg hc,if_neg (mt hiff.mpr hc),Option.map_none]

theorem next_layout (h : Exact bytes a) (hv : ValidSize bytes)
    (hn : (Arena.machine bytes (Call.Fits bytes)).next a c=some a') :
    (Layout.machine bytes).next (blocks bytes a) c=some (blocks bytes a') := by
  obtain ⟨hf,r,hs⟩ := next_cases hn
  have hx := h.serve_layout hv hf
  rw [hs] at hx
  simp only [Layout.machine,← hx,Option.map_some]

end Exact

/-- As long as `add` treats headers rightly and requests fit into the `size_type` with their header,
a run of `FreeList` is one of an arena that knows only its blocks: calls answer alike, a block goes to
the lowest place with room for it and its header, and an allocation fails only where there is none.
The chunks are a function of the blocks. -/
theorem refines_layout (P : Policy) {bytes : Nat} (hv : ValidSize bytes)
    {h : List (Arena P.Store × Call)} {a : Arena P.Store}
    (r : (machine bytes (Call.Fits bytes)).Run h a) (hk : ∀ e ∈ h, KeepsHeaders bytes e.1 e.2) :
    (Layout.machine bytes).Run (h.map fun e => (blocks bytes e.1,e.2)) (blocks bytes a) ∧
    (∀ c, c.Fits bytes → (serve bytes a c).map (fun x => (blocks bytes x.1,x.2))=
      Layout.serve bytes (blocks bytes a) c) ∧
    Sorted (availible a) ∧ (∀ e, e ∈ availible a ↔ MaximalRun bytes (blocks bytes a) e) ∧
    a.itf.bytesFree+total (blocks bytes a)=bytes := by
  have hall : ∀ t ∈ Machine.visited h a, Exact bytes t :=
    r.always (fun _ ⟨_,he⟩ => he ▸ Exact.fresh hv _)
      (fun _ _ _ he hg hn => exact_next he hv hg hn) hk
  have hex := hall a (by simp)
  refine ⟨?_,fun c hf => hex.serve_layout hv hf,hex.sorted,hex.mem_availible_iff,?_⟩
  · have h0 : ∀ a : Arena P.Store, (machine bytes (Call.Fits bytes)).start a →
        (Layout.machine bytes).start (blocks bytes a) := by
      rintro a ⟨m,rfl⟩
      rfl
    have hrun : (Layout.machine bytes).Run
        (h.filterMap fun e => (some e.2).map fun c => (blocks bytes e.1,c)) (blocks bytes a) :=
      r.refines h0 (fun _ _ _ he hn => he.next_layout hv hn) hall
    simpa only [Option.map_some,List.filterMap_eq_map'] using hrun
  · rw [hex.balance]
    exact hex.total_eq

instance (a : Arena S) : ∀ c, Decidable (KeepsHeaders bytes a c)
  | .allocate _ _ => inferInstanceAs (Decidable (∀ _ ∈ List.find? _ _, _))
  | .deallocate _ => inferInstanceAs (Decidable (_ ≠ _))
  | .freeAll => inferInstanceAs (Decidable True)
  | .write _ _ _ => inferInstanceAs (Decidable True)

/-- Two blocks, the first given back, and one that goes to its place. -/
theorem refines_layout_lowest :
    ∃ (h : List (Arena Policy.list.Store × Call)) (a : Arena Policy.list.Store),
      blocks 16 a=[(0,5),(5,5)] ∧
      (Layout.machine 16).Run (h.map fun e => (blocks 16 e.1,e.2)) (blocks 16 a) := by
  obtain ⟨a,⟨h,r⟩,ha⟩ := Machine.reachable_of_runFrom
    ((machine 16 (Call.Fits 16)).restrict fun a c => KeepsHeaders 16 a c) (fresh 16 fun _ => 0)
    [.allocate 1 4,.allocate 1 4,.deallocate 1,.allocate 1 4]
    (fun a : Arena Policy.list.Store => blocks 16 a=[(0,5),(5,5)]) ⟨_,rfl⟩ (by decide)
  obtain ⟨r,hg⟩ := r.of_restrict
  exact ⟨h,a,ha,(refines_layout .list (by decide) r hg).1⟩

end Arena

end Allocators.FreeList
