import Allocators.FreeList.Arena

/-! What each call can do to the chunks and the blocks. -/

namespace Allocators.FreeList

open Lib Extent

variable {bytes : Nat} {S : Type}

namespace Arena

theorem mem_blocks {a : Arena S} {ptr : Nat} (h : ptr ∈ a.live) :
    block bytes a ptr ∈ blocks bytes a := List.mem_map_of_mem h

/-- Blocks keep their extent when the bytes of their headers are left alone. -/
theorem blocks_congr {a b : Arena S} {l : List Nat}
    (h : ∀ ptr ∈ l, ∀ x, ptr-headerSize bytes ≤ x → x < ptr-headerSize bytes+headerSize bytes →
      a.itf.memory x=b.itf.memory x) :
    l.map (block bytes a)=l.map (block bytes b) := by
  apply List.map_congr_left
  intro ptr hp
  unfold block userBytes PolicyInterface.headerAt
  rw [Memory.readWord_congr (h ptr hp)]

/-- A range that shares no byte with a block does not reach its header. -/
theorem header_apart {a : Arena S} {ptr m n : Nat} (h : Extent.Apart (m,n) (block bytes a ptr)) (hn : 0 < n) :
    ptr-headerSize bytes+headerSize bytes ≤ m ∨ m+n ≤ ptr-headerSize bytes := by
  have hp := headerSize_pos bytes
  have := apart_iff.mp h
  simp only [block] at this
  omega

/-- Giving a block back leaves the other blocks as they are. -/
theorem blocks_perm_erase {a : Arena S} {ptr : Nat} (h : ptr ∈ a.live) :
    (blocks bytes a).Perm (block bytes a ptr :: (a.live.erase ptr).map (block bytes a)) :=
  (List.perm_cons_erase h).map _

end Arena

variable [Storage S]

/-- A live block among all ranges of the arena. -/
theorem Arena.ranges_perm_erase {a : Arena S} {ptr : Nat} (h : ptr ∈ a.live) :
    (availible a ++ blocks bytes a).Perm
      (block bytes a ptr :: (availible a ++ (a.live.erase ptr).map (block bytes a))) :=
  ((blocks_perm_erase h).append_left _).trans List.perm_middle

theorem Arena.next_cases {allowed : Call → Prop} [DecidablePred allowed] {a a' : Arena S} {c : Call}
    (h : (machine bytes allowed).next a c=some a') :
    allowed c ∧ ∃ r, serve bytes a c=some (a',r) := by
  unfold machine at h
  simp only at h
  split_ifs at h with hf
  obtain ⟨⟨_,r⟩,hs,rfl⟩ := Option.map_eq_some_iff.mp h
  exact ⟨hf,r,hs⟩

theorem Arena.serve_deallocate {a a' : Arena S} {ptr : Nat} {r : Reply}
    (h : serve bytes a (.deallocate ptr)=some (a',r)) :
    ptr ∈ a.live ∧ a'=⟨a.itf.deallocate bytes ptr,a.live.erase ptr⟩ := by
  simp only [serve] at h
  split_ifs at h with hm
  exact ⟨hm,(Prod.mk.inj (Option.some.inj h)).1.symm⟩

theorem Arena.serve_write {a a' : Arena S} {ptr offset : Nat} {byte : UInt8} {r : Reply}
    (h : serve bytes a (.write ptr offset byte)=some (a',r)) :
    (ptr ∈ a.live ∧ offset < userBytes bytes a ptr) ∧
      a'={ a with itf.memory := a.itf.memory.writeByte (ptr+offset) byte } := by
  simp only [serve] at h
  split_ifs at h with hm
  exact ⟨hm,(Prod.mk.inj (Option.some.inj h)).1.symm⟩

/-- A request served from the chunk `(mem,chunk)` with `lo` and `hi` around it. -/
structure Grant (bytes : Nat) (p p' : PolicyInterface S) (req mem chunk : Nat)
    (lo hi : List Entry) : Prop where
  entries : Storage.entries p.availible=lo ++ (mem,chunk) :: hi
  first : ∀ e ∈ lo, e.2 < req
  enough : req ≤ chunk
  memory : p'.memory=p.memory.writeWord (headerSize bytes) mem
    (toSizeType bytes (req+2^64-headerSize bytes))
  search : p'.search=p.search
  bytesFree : p'.bytesFree=toSizeType bytes (p.bytesFree+2^64-req)
  exact : req=chunk → Storage.entries p'.availible=lo ++ hi
  rest : req < chunk → ∃ s : S, Storage.entries s=lo ++ hi ∧
    p'.availible=PolicyT.add bytes s (mem+req) (chunk-req)

theorem policyT_firstFit_cases (s : S) (req : Nat) :
    (PolicyT.firstFit s req=none ∧ ∀ e ∈ Storage.entries s, e.2 < req) ∨
    ∃ lo e hi, Storage.entries s=lo ++ e :: hi ∧ (∀ x ∈ lo, x.2 < req) ∧ req ≤ e.2 ∧
      PolicyT.firstFit s req=some lo.length := by
  rcases Vector.findIdx?_cases (fun e : Entry => decide (req ≤ e.2)) (Storage.entries s) with
    ⟨hf,hn⟩ | ⟨lo,e,hi,he,hlo,hp,hf⟩
  · exact .inl ⟨hf,fun e hm => by simpa using hn e hm⟩
  · exact .inr ⟨lo,e,hi,he,fun x hx => by simpa using hlo x hx,by simpa using hp,hf⟩

variable [LawfulStorage S]

variable (bytes) in
/-- `allocate` fails exactly when no chunk is large enough. -/
theorem allocate_cases (p : PolicyInterface S) (hs : p.search=.firstFit) (sizeofT count : Nat) :
    (p.allocate bytes sizeofT count=none ∧ ∀ e ∈ Storage.entries p.availible,
      e.2 < PolicyInterface.reqBytes bytes sizeofT count) ∨
    ∃ p' lo mem chunk hi, p.allocate bytes sizeofT count=some (p',mem+headerSize bytes) ∧
      Grant bytes p p' (PolicyInterface.reqBytes bytes sizeofT count) mem chunk lo hi := by
  unfold PolicyInterface.allocate
  simp only [hs]
  obtain ⟨hf,hn⟩ | ⟨lo,⟨mem,chunk⟩,hi,he,hlo,hc,hf⟩ :=
    policyT_firstFit_cases p.availible (PolicyInterface.reqBytes bytes sizeofT count)
  · exact .inl ⟨by simp [PolicyInterface.firstFit,hf],hn⟩
  · refine .inr ⟨_,lo,mem,chunk,hi,by
      simp only [PolicyInterface.firstFit,hf,he,Vector.getElem?_mid,PolicyInterface.writeHeader]
      rfl,?_⟩
    have her : Storage.entries (Storage.erase p.availible lo.length)=lo ++ hi := by
      rw [LawfulStorage.entries_erase,he,Vector.eraseIdx_mid]
    refine ⟨he,hlo,hc,rfl,rfl,rfl,?_,fun hx => ⟨_,her,?_⟩⟩
    · intro hx
      change Storage.entries (ite _ _ _)=_
      rw [if_neg (by omega),her]
    · change ite _ _ _=_
      rw [if_pos hx]

end Allocators.FreeList
