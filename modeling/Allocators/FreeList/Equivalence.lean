import Allocators.FreeList.Arena

/-! The storage policy cannot be observed. -/

namespace Allocators.FreeList

open Lib

variable (bytes : Nat) {S T : Type} [Storage S] [Storage T]

/-- Two interfaces that differ in the container and in bytes no header of `live` occupies. -/
structure Alike (p : PolicyInterface S) (q : PolicyInterface T) (live : List Nat) : Prop where
  sorted : Sorted (Storage.entries p.availible)
  entries : Storage.entries p.availible=Storage.entries q.availible
  bytesFree : p.bytesFree=q.bytesFree
  search : p.search=q.search
  headers : ∀ ptr ∈ live, ∀ x, ptr-headerSize bytes ≤ x → x < ptr-headerSize bytes+headerSize bytes →
    p.memory x=q.memory x

variable {bytes} {p : PolicyInterface S} {q : PolicyInterface T} {live : List Nat}

namespace Alike

theorem headerAt (h : Alike bytes p q live) {ptr : Nat} (hp : ptr ∈ live) :
    p.headerAt bytes (ptr-headerSize bytes)=q.headerAt bytes (ptr-headerSize bytes) :=
  Memory.readWord_congr (h.headers ptr hp)

/-- The same header is written over the same bytes. -/
theorem headers_write (h : Alike bytes p q live) (start size : Nat) :
    ∀ ptr ∈ (start+headerSize bytes) :: live, ∀ x, ptr-headerSize bytes ≤ x →
      x < ptr-headerSize bytes+headerSize bytes →
      p.memory.writeWord (headerSize bytes) start size x=
        q.memory.writeWord (headerSize bytes) start size x := by
  intro ptr hp x h1 h2
  by_cases hx : start ≤ x ∧ x < start+headerSize bytes
  · simp only [Memory.writeWord,if_pos hx]
  · rw [Memory.writeWord_other (by omega),Memory.writeWord_other (by omega)]
    rcases List.mem_cons.mp hp with rfl | hp
    · omega
    · exact h.headers ptr hp x h1 h2

theorem write (h : Alike bytes p q live) (a : Nat) (b : UInt8) :
    Alike bytes { p with memory := p.memory.writeByte a b }
      { q with memory := q.memory.writeByte a b } live := by
  refine ⟨h.sorted,h.entries,h.bytesFree,h.search,?_⟩
  intro ptr hp x h1 h2
  change p.memory.writeByte a b x=q.memory.writeByte a b x
  by_cases hx : x=a
  · simp [Memory.writeByte,hx]
  · rw [Memory.writeByte_other hx,Memory.writeByte_other hx]
    exact h.headers ptr hp x h1 h2

end Alike

variable [LawfulStorage S] [LawfulStorage T]

theorem alike_make (m n : Memory) :
    Alike bytes (PolicyInterface.make bytes m : PolicyInterface S)
      (PolicyInterface.make bytes n : PolicyInterface T) [] := by
  have hs : Storage.entries (Storage.clear : S)=[] := LawfulStorage.entries_clear
  have ht : Storage.entries (Storage.clear : T)=[] := LawfulStorage.entries_clear
  refine ⟨?_,?_,rfl,rfl,by simp⟩
  · exact entries_add_sorted bytes (by rw [hs]; exact List.Pairwise.nil) _ _
  · exact entries_add_congr bytes (hs.trans ht.symm) (by rw [hs]; exact List.Pairwise.nil) _ _

namespace Alike

/-- Both fail, or both hand out the same offset and stay alike. -/
theorem firstFit (h : Alike bytes p q live) (req : Nat) :
    (p.firstFit bytes req=none ∧ q.firstFit bytes req=none) ∨
    ∃ p' q' ptr, p.firstFit bytes req=some (p',ptr) ∧ q.firstFit bytes req=some (q',ptr) ∧
      Alike bytes p' q' (ptr :: live) := by
  have hf : PolicyT.firstFit q.availible req=PolicyT.firstFit p.availible req := by
    unfold PolicyT.firstFit
    rw [h.entries]
  unfold PolicyInterface.firstFit
  rw [hf,← h.entries]
  cases hi : PolicyT.firstFit p.availible req with
  | none => exact .inl ⟨rfl,rfl⟩
  | some it =>
    cases he : (Storage.entries p.availible)[it]? with
    | none => exact .inl ⟨by simp [he],by simp [he]⟩
    | some e =>
      obtain ⟨mem,chunkBytes⟩ := e
      refine .inr ⟨_,_,_,by simp only [he]; rfl,by simp only [he]; rfl,?_⟩
      have hes : Storage.entries (Storage.erase p.availible it)=
          Storage.entries (Storage.erase q.availible it) := by
        rw [LawfulStorage.entries_erase,LawfulStorage.entries_erase,h.entries]
      have hss : Sorted (Storage.entries (Storage.erase p.availible it)) := by
        rw [LawfulStorage.entries_erase]
        exact h.sorted.eraseIdx it
      refine ⟨?_,?_,h.bytesFree,h.search,h.headers_write _ _⟩
      · change Sorted (Storage.entries (ite _ _ _))
        split_ifs
        · exact entries_add_sorted bytes hss _ _
        · exact hss
      · change Storage.entries (ite _ _ _)=Storage.entries (ite _ _ _)
        split_ifs
        · exact entries_add_congr bytes hes hss _ _
        · exact hes

theorem allocate (h : Alike bytes p q live) (sizeofT count : Nat) :
    (p.allocate bytes sizeofT count=none ∧ q.allocate bytes sizeofT count=none) ∨
    ∃ p' q' ptr, p.allocate bytes sizeofT count=some (p',ptr) ∧
      q.allocate bytes sizeofT count=some (q',ptr) ∧ Alike bytes p' q' (ptr :: live) := by
  unfold PolicyInterface.allocate
  rw [← h.search]
  cases p.search with
  | bestFit => exact .inl ⟨rfl,rfl⟩
  | firstFit =>
    obtain ⟨hp,hq⟩ | ⟨p',q',ptr,hp,hq,ha⟩ :=
      h.firstFit (PolicyInterface.reqBytes bytes sizeofT count)
    · exact .inl ⟨by simp [hp],by simp [hq]⟩
    · refine .inr ⟨_,_,ptr,by simp only [hp]; rfl,by simp only [hq]; rfl,?_⟩
      exact ⟨ha.sorted,ha.entries,by simp only [ha.bytesFree],ha.search,ha.headers⟩

theorem deallocate (h : Alike bytes p q live) {ptr : Nat} (hp : ptr ∈ live) :
    Alike bytes (p.deallocate bytes ptr) (q.deallocate bytes ptr) (live.erase ptr) := by
  unfold PolicyInterface.deallocate
  simp only [h.headerAt hp,h.bytesFree]
  refine ⟨?_,?_,rfl,h.search,fun x hx => h.headers x (List.mem_of_mem_erase hx)⟩
  · exact entries_add_sorted bytes h.sorted _ _
  · exact entries_add_congr bytes h.entries h.sorted _ _

theorem freeAll (h : Alike bytes p q live) :
    Alike bytes (p.freeAll bytes) (q.freeAll bytes) [] := by
  refine ⟨?_,?_,rfl,h.search,by simp⟩
  · change Sorted (Storage.entries (PolicyT.freeAll bytes : S))
    rw [entries_freeAll]
    exact List.pairwise_singleton _ _
  · change Storage.entries (PolicyT.freeAll bytes : S)=Storage.entries (PolicyT.freeAll bytes : T)
    rw [entries_freeAll,entries_freeAll]

end Alike

namespace Arena

/-- What a user of the allocator and its statistics can see of a state. -/
def observe {S : Type} [Storage S] (a : Arena S) : List Entry × Nat :=
  (availible a,a.itf.bytesFree)

/-- The replies to a session with what can be seen afterwards; `none` if a call is refused. -/
def report (bytes : Nat) {S : Type} [Storage S] (a : Arena S) (cs : List Call) :
    Option (List Reply × List Entry × Nat) :=
  (session bytes a cs).map fun x => (x.1,observe x.2)

/-- One call: refused on both sides, or answered alike. -/
theorem serve_alike {a : Arena S} {b : Arena T} (hl : a.live=b.live)
    (h : Alike bytes a.itf b.itf a.live) (c : Call) :
    (serve bytes a c=none ∧ serve bytes b c=none) ∨
    ∃ a' b' r, serve bytes a c=some (a',r) ∧ serve bytes b c=some (b',r) ∧
      a'.live=b'.live ∧ Alike bytes a'.itf b'.itf a'.live := by
  cases c with
  | allocate sizeofT count =>
    unfold serve
    obtain ⟨hp,hq⟩ | ⟨p',q',ptr,hp,hq,ha⟩ := h.allocate sizeofT count
    · exact .inr ⟨a,b,.badAlloc,by simp [hp],by simp [hq],hl,h⟩
    · exact .inr ⟨_,_,.pointer ptr,by simp only [hp]; rfl,by simp only [hq]; rfl,
        by simp [hl],ha⟩
  | deallocate ptr =>
    unfold serve
    by_cases hp : ptr ∈ a.live
    · exact .inr ⟨_,_,.done,if_pos hp,if_pos (hl ▸ hp),by rw [hl],h.deallocate hp⟩
    · exact .inl ⟨if_neg hp,if_neg (hl ▸ hp)⟩
  | freeAll => exact .inr ⟨_,_,.done,rfl,rfl,rfl,h.freeAll⟩
  | write ptr offset byte =>
    unfold serve
    by_cases hp : ptr ∈ a.live ∧ offset < userBytes bytes a ptr
    · have hq : ptr ∈ b.live ∧ offset < userBytes bytes b ptr := by
        refine ⟨hl ▸ hp.1,?_⟩
        unfold userBytes
        rw [← h.headerAt hp.1]
        exact hp.2
      exact .inr ⟨_,_,.done,if_pos hp,if_pos hq,hl,h.write _ _⟩
    · have hq : ¬ (ptr ∈ b.live ∧ offset < userBytes bytes b ptr) := by
        intro hq
        refine hp ⟨hl ▸ hq.1,?_⟩
        unfold userBytes
        rw [h.headerAt (hl ▸ hq.1)]
        exact hq.2
      exact .inl ⟨if_neg hp,if_neg hq⟩

theorem session_alike {a : Arena S} {b : Arena T} (hl : a.live=b.live)
    (h : Alike bytes a.itf b.itf a.live) (cs : List Call) :
    report bytes a cs=report bytes b cs := by
  induction cs generalizing a b with
  | nil =>
    have he : observe a=observe b := by
      simp only [observe,availible,h.entries,h.bytesFree]
    simp [report,session,he]
  | cons c cs ih =>
    obtain ⟨ha,hb⟩ | ⟨a',b',r,ha,hb,hl',h'⟩ := serve_alike hl h c
    · simp [report,session,ha,hb]
    · have := congrArg (Option.map fun x : List Reply × (List Entry × Nat) => (r :: x.1,x.2))
        (ih hl' h')
      simpa [report,session,ha,hb,Option.map_map,Function.comp_def] using this

/-- Every client session gets the same replies and leaves the same chunks under all policies. -/
theorem policies_equivalent (bytes : Nat) (P Q : Policy) (m n : Memory) (cs : List Call) :
    report bytes (fresh bytes m : Arena P.Store) cs=
      report bytes (fresh bytes n : Arena Q.Store) cs :=
  session_alike (S := P.Store) (T := Q.Store) rfl (alike_make m n) cs

end Arena

end Allocators.FreeList
