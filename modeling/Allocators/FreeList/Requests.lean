import Allocators.FreeList.Steps

/-! When a request is refused or served in full, however large it is. -/

namespace Allocators.FreeList

open Lib

/-- A call whose count a `size_type` can hold. -/
def Call.Representable (bytes : Nat) : Call → Prop
  | .allocate _ count => count < 2^sizeBits bytes
  | _ => True

instance (bytes : Nat) : DecidablePred (Call.Representable bytes)
  | .allocate _ _ => inferInstanceAs (Decidable (_ < _))
  | .deallocate _ => inferInstanceAs (Decidable True)
  | .freeAll => inferInstanceAs (Decidable True)
  | .write _ _ _ => inferInstanceAs (Decidable True)

/-- What `allocate<T>(count)` has to find, in unbounded integers. -/
def wantedBytes (bytes sizeofT count : Nat) : Nat := sizeofT*count+headerSize bytes

section Sizes

variable {bytes : Nat}

theorem toSizeType_lt (bytes n : Nat) : toSizeType bytes n < 2^sizeBits bytes :=
  Nat.mod_lt _ (by positivity)

/-- What `allocate` looks for is what it wants, narrowed to a `size_type`. -/
theorem reqBytes_eq (sizeofT : Nat) {count : Nat} (hc : count < 2^sizeBits bytes) :
    PolicyInterface.reqBytes bytes sizeofT count=
      toSizeType bytes (wantedBytes bytes sizeofT count) := by
  have hd : 2^sizeBits bytes ∣ 2^64 := pow_dvd_pow 2 (sizeBits_le bytes)
  rw [PolicyInterface.reqBytes,toSizeType_of_lt hc,toSizeT,toSizeType,toSizeType,
    Nat.mod_mod_of_dvd _ hd,wantedBytes]

/-- All sizes are values of a `size_type`. -/
def Narrow (bytes : Nat) (l : List Entry) : Prop := ∀ e ∈ l, e.2 < 2^sizeBits bytes

theorem Narrow.modify {l : List Entry} (h : Narrow bytes l) (i n : Nat) :
    Narrow bytes (l.modify i (fun e => (e.1,toSizeType bytes n))) := by
  intro e he
  obtain ⟨j,hj,rfl⟩ := List.mem_iff_getElem.mp he
  rw [List.getElem_modify]
  split_ifs
  · exact toSizeType_lt bytes n
  · exact h _ (List.getElem_mem _)

theorem Narrow.coalesceAt {l : List Entry} (h : Narrow bytes l) (i : Nat) :
    Narrow bytes (coalesceAt bytes l i) := by
  unfold FreeList.coalesceAt
  split
  · split_ifs
    · exact fun e he => h.modify i _ e (List.mem_of_mem_eraseIdx he)
    · exact h
  · exact h

theorem Narrow.coalesceAround {l : List Entry} (h : Narrow bytes l) (i : Nat) :
    Narrow bytes (coalesceAround bytes l i) := by
  unfold FreeList.coalesceAround
  split_ifs
  · exact h.coalesceAt i
  · exact (h.coalesceAt i).coalesceAt (i-1)

variable {S : Type} [Storage S] [LawfulStorage S] {s : S}

theorem Narrow.add (h : Narrow bytes (Storage.entries s)) (hs : Sorted (Storage.entries s))
    (start : Nat) {size : Nat} (hz : size < 2^sizeBits bytes) :
    Narrow bytes (Storage.entries (PolicyT.add bytes s start size)) := by
  obtain ⟨_,he⟩ | ⟨lo,hi,hl,_,_,_,he⟩ | ⟨lo,e,hi,hl,_,he⟩ := entries_add_cases bytes hs start size
  · rw [he]
    exact List.forall_mem_singleton.mpr hz
  · rw [he]
    refine Narrow.coalesceAround ?_ lo.length
    intro e hm
    rcases List.mem_cons.mp (List.perm_middle.subset hm) with rfl | hm
    · exact toSizeType_lt bytes _
    · exact h e (hl ▸ hm)
  · rw [he]
    exact Narrow.coalesceAround (hl ▸ h) lo.length

end Sizes

namespace Arena

section Honours

variable (bytes : Nat) {S : Type} [Storage S]

/-- The request is refused without a trace if no chunk is large enough, else served in full;
and it is refused if the arena is not large enough. -/
structure Honours (a : Arena S) (sizeofT count : Nat) : Prop where
  refused : (∀ e ∈ availible a, e.2 < wantedBytes bytes sizeofT count) →
    ∃ a', serve bytes a (.allocate sizeofT count)=some (a',.badAlloc) ∧
      availible a'=availible a ∧ a'.itf.bytesFree=a.itf.bytesFree
  served : ¬ (∀ e ∈ availible a, e.2 < wantedBytes bytes sizeofT count) →
    ∃ a' ptr, serve bytes a (.allocate sizeofT count)=some (a',.pointer ptr) ∧
      sizeofT*count ≤ userBytes bytes a' ptr ∧
      a'.itf.bytesFree+(userBytes bytes a' ptr+headerSize bytes)=a.itf.bytesFree
  oversized : bytes < wantedBytes bytes sizeofT count →
    ∃ a', serve bytes a (.allocate sizeofT count)=some (a',.badAlloc)

/-- What holds in every run, whatever wraps around in it. -/
structure Bounded (a : Arena S) : Prop where
  sorted : Sorted (availible a)
  search : a.itf.search=.firstFit
  narrow : Narrow bytes (availible a)
  bytesFree : a.itf.bytesFree < 2^sizeBits bytes

end Honours

section Runs

variable {bytes : Nat} {S : Type} [Storage S] {a a' : Arena S} {c : Call}

/-- The user bytes of a block just cut are what its request was narrowed to. -/
theorem userBytes_grant {p' : PolicyInterface S} {req mem chunk : Nat}
    {lo hi : List Entry} (g : Grant bytes a.itf p' req mem chunk lo hi) (live : List Nat) :
    userBytes bytes (⟨p',live⟩ : Arena S) (mem+headerSize bytes)=
      toSizeType bytes (req+2^64-headerSize bytes) := by
  unfold userBytes PolicyInterface.headerAt
  rw [g.memory,Nat.add_sub_cancel,Memory.readWord_writeWord]
  rw [← two_pow_sizeBits]
  exact toSizeType_lt bytes _

/-- A request that is granted is served in full exactly if it did not wrap around and the count of
free bytes covers it. -/
theorem Bounded.honours_grant (h : Bounded bytes a) {sizeofT count : Nat} {p' : PolicyInterface S}
    {mem chunk : Nat} {lo hi : List Entry}
    (hx : a.itf.allocate bytes sizeofT count=some (p',mem+headerSize bytes))
    (g : Grant bytes a.itf p' (toSizeType bytes (wantedBytes bytes sizeofT count)) mem chunk lo hi) :
    Honours bytes a sizeofT count ↔ wantedBytes bytes sizeofT count < 2^sizeBits bytes ∧
      wantedBytes bytes sizeofT count ≤ a.itf.bytesFree ∧
      wantedBytes bytes sizeofT count ≤ bytes := by
  have hserve : serve bytes a (.allocate sizeofT count)=
      some (⟨p',(mem+headerSize bytes) :: a.live⟩,.pointer (mem+headerSize bytes)) := by
    simp only [serve,hx]
  have hpointer : ∀ b, serve bytes a (.allocate sizeofT count) ≠ some (b,.badAlloc) := by
    simp [hserve]
  have huser := userBytes_grant g ((mem+headerSize bytes) :: a.live)
  have hfree := g.bytesFree
  have hw : wantedBytes bytes sizeofT count=sizeofT*count+headerSize bytes := rfl
  set w := wantedBytes bytes sizeofT count
  constructor
  · intro hh
    have hle : w ≤ bytes := by
      by_contra hlt
      obtain ⟨b,hb⟩ := hh.oversized (by omega)
      exact hpointer b hb
    have hsome : ¬ ∀ e ∈ availible a, e.2 < w := by
      intro hall
      obtain ⟨b,hb,_⟩ := hh.refused hall
      exact hpointer b hb
    obtain ⟨b,ptr,hb,_,hsum⟩ := hh.served hsome
    rw [hserve] at hb
    obtain ⟨rfl,hptr⟩ := Prod.mk.inj (Option.some.inj hb)
    obtain rfl := Reply.pointer.inj hptr
    simp only [not_forall,not_lt] at hsome
    obtain ⟨e,he,hwe⟩ := hsome
    have hlt : w < 2^sizeBits bytes := lt_of_le_of_lt hwe (h.narrow e he)
    rw [toSizeType_of_lt hlt] at huser
    rw [huser,toSizeType_sub hlt (by omega)] at hsum
    exact ⟨hlt,by omega,hle⟩
  · rintro ⟨hlt,hle,hb⟩
    rw [toSizeType_of_lt hlt] at huser hfree g
    rw [toSizeType_sub hlt (by omega)] at huser
    rw [toSizeType_sub h.bytesFree hle] at hfree
    have hchunk := g.enough
    refine ⟨?_,fun _ => ⟨_,_,hserve,by omega,?_⟩,fun hlt => by omega⟩
    · intro hall
      have := hall (mem,chunk) (by rw [availible,g.entries]; simp)
      simp only at this
      omega
    · rw [huser,hfree]
      omega

variable [LawfulStorage S]

theorem bounded_fresh (hv : ValidSize bytes) (memory : Memory) :
    Bounded bytes (fresh bytes memory : Arena S) := by
  have hc : Storage.entries (Storage.clear : S)=[] := LawfulStorage.entries_clear
  have he : availible (fresh bytes memory : Arena S)=[(0,bytes)] :=
    entries_add_empty bytes hc 0 bytes
  refine ⟨?_,rfl,?_,hv.lt⟩
  · rw [he]
    exact List.pairwise_singleton _ _
  · rw [he]
    exact List.forall_mem_singleton.mpr hv.lt

/-- A grant leaves the sizes in bounds. -/
theorem Bounded.grant (h : Bounded bytes a) {p' : PolicyInterface S} {req mem chunk : Nat}
    {lo hi : List Entry} (g : Grant bytes a.itf p' req mem chunk lo hi) (live : List Nat) :
    Bounded bytes ⟨p',live⟩ := by
  have hav : availible a=lo ++ (mem,chunk) :: hi := g.entries
  have hs : Sorted (lo ++ hi) :=
    (hav ▸ h.sorted).sublist ((List.sublist_cons_self _ _).append_left lo)
  have hn : Narrow bytes (lo ++ hi) := by
    intro e hm
    refine h.narrow e ?_
    rw [hav]
    exact List.perm_middle.symm.subset (List.mem_cons_of_mem _ hm)
  have hc : chunk < 2^sizeBits bytes := h.narrow (mem,chunk) (by simp [hav])
  have hle := g.enough
  have hfree : p'.bytesFree < 2^sizeBits bytes := g.bytesFree ▸ toSizeType_lt bytes _
  have hsearch : p'.search=.firstFit := g.search.trans h.search
  by_cases hlt : req < chunk
  · obtain ⟨s,he,hadd⟩ := g.rest hlt
    refine ⟨?_,hsearch,?_,hfree⟩
    · rw [availible,hadd]
      exact entries_add_sorted bytes (he ▸ hs) _ _
    · rw [availible,hadd]
      exact Narrow.add (he ▸ hn) (he ▸ hs) _ (by omega)
  · have he : availible (⟨p',live⟩ : Arena S)=lo ++ hi := g.exact (by omega)
    exact ⟨he ▸ hs,hsearch,he ▸ hn,hfree⟩

theorem bounded_next {allowed : Call → Prop} [DecidablePred allowed] (hv : ValidSize bytes)
    (h : Bounded bytes a) (hn : (machine bytes allowed).next a c=some a') : Bounded bytes a' := by
  obtain ⟨_,r,hs⟩ := next_cases hn
  cases c with
  | allocate sizeofT count =>
    simp only [serve] at hs
    obtain ⟨hx,_⟩ | ⟨p',lo,mem,chunk,hi,hx,g⟩ := allocate_cases bytes a.itf h.search sizeofT count
    · rw [hx] at hs
      obtain ⟨rfl,_⟩ := Prod.mk.inj (Option.some.inj hs)
      exact h
    · rw [hx] at hs
      obtain ⟨rfl,_⟩ := Prod.mk.inj (Option.some.inj hs)
      exact h.grant g _
  | deallocate ptr =>
    obtain ⟨hm,rfl⟩ := serve_deallocate hs
    have hz := Memory.readWord_lt a.itf.memory (headerSize bytes) (ptr-headerSize bytes)
    rw [← two_pow_sizeBits] at hz
    exact ⟨entries_add_sorted bytes h.sorted _ _,h.search,Narrow.add h.narrow h.sorted _ hz,
      toSizeType_lt bytes _⟩
  | freeAll =>
    obtain ⟨rfl,_⟩ := Prod.mk.inj (Option.some.inj hs)
    have he : availible (⟨a.itf.freeAll bytes,[]⟩ : Arena S)=[(0,bytes)] := entries_freeAll bytes
    refine ⟨?_,h.search,?_,hv.lt⟩
    · rw [he]
      exact List.pairwise_singleton _ _
    · rw [he]
      exact List.forall_mem_singleton.mpr hv.lt
  | write ptr offset byte =>
    obtain ⟨hm,rfl⟩ := serve_write hs
    exact ⟨h.sorted,h.search,h.narrow,h.bytesFree⟩

/-- In every reachable state a request is honoured exactly if no chunk has the bytes it was narrowed
to, or it was not narrowed and the arena and the count of free bytes cover it. -/
theorem honours_iff_coversWanted (P : Policy) {bytes : Nat} (hv : ValidSize bytes)
    {a : Arena P.Store} (hr : (machine bytes (Call.Representable bytes)).Reachable a)
    {sizeofT count : Nat} (hc : count < 2^sizeBits bytes) :
    Honours bytes a sizeofT count ↔
      (∀ e ∈ availible a, e.2 < toSizeType bytes (wantedBytes bytes sizeofT count)) ∨
      (wantedBytes bytes sizeofT count < 2^sizeBits bytes ∧
        wantedBytes bytes sizeofT count ≤ a.itf.bytesFree ∧
        wantedBytes bytes sizeofT count ≤ bytes) := by
  have h : Bounded bytes a := hr.invariant (fun _ ⟨_,he⟩ => he ▸ bounded_fresh hv _)
    (fun _ _ _ hi hn => bounded_next hv hi hn)
  have hreq := reqBytes_eq sizeofT hc
  obtain ⟨hx,hsmall⟩ | ⟨p',lo,mem,chunk,hi,hx,g⟩ := allocate_cases bytes a.itf h.search sizeofT count
  · rw [hreq] at hsmall
    have hserve : serve bytes a (.allocate sizeofT count)=some (a,.badAlloc) := by
      simp only [serve,hx]
    have hle : toSizeType bytes (wantedBytes bytes sizeofT count) ≤
        wantedBytes bytes sizeofT count := Nat.mod_le _ _
    refine iff_of_true ⟨fun _ => ⟨a,hserve,rfl,rfl⟩,fun hn => (hn ?_).elim,
      fun _ => ⟨a,hserve⟩⟩ (.inl hsmall)
    intro e he
    exact lt_of_lt_of_le (hsmall e he) hle
  · rw [hreq] at g
    rw [h.honours_grant hx g]
    refine ⟨.inr,fun hor => hor.resolve_left ?_⟩
    intro hall
    have h1 := hall (mem,chunk) (by rw [availible,g.entries]; simp)
    have h2 := g.enough
    simp only at h1
    omega

/-- Two blocks of 16 bytes were handed out and the first came back; a request for 4 of them. -/
theorem honours_iff_coversWanted_split :
    ∃ a : Arena Policy.tree.Store, (availible a=[(0,5),(10,6)] ∧ a.itf.bytesFree=11) ∧
      (Honours 16 a 1 4 ↔ (∀ e ∈ availible a, e.2 < toSizeType 16 (wantedBytes 16 1 4)) ∨
        (wantedBytes 16 1 4 < 2^sizeBits 16 ∧ wantedBytes 16 1 4 ≤ a.itf.bytesFree ∧
          wantedBytes 16 1 4 ≤ 16)) := by
  obtain ⟨a,hr,ha⟩ := Machine.reachable_of_runFrom
    (machine 16 (Call.Representable 16)) (fresh 16 fun _ => 0 : Arena Policy.tree.Store)
    [.allocate 1 4,.allocate 1 4,.deallocate 1]
    (fun a => availible a=[(0,5),(10,6)] ∧ a.itf.bytesFree=11) ⟨_,rfl⟩ (by decide)
  exact ⟨a,ha,honours_iff_coversWanted .tree (by decide) hr (by decide)⟩

/-- 64 values of 4 bytes from an arena of 16 bytes: the request of 257 bytes is narrowed to 1. -/
theorem narrowed_request_is_served :
    ∃ a : Arena Policy.flat.Store, (machine 16 (Call.Representable 16)).Reachable a ∧
      ¬ Honours 16 a 4 64 := by
  refine ⟨fresh 16 fun _ => 0,⟨[],.start ⟨_,rfl⟩⟩,?_⟩
  intro hh
  obtain ⟨a,ha⟩ := hh.oversized (by decide)
  have hp : (serve 16 (fresh 16 fun _ => 0 : Arena Policy.flat.Store) (.allocate 4 64)).map Prod.snd=
      some (.pointer 1) := by decide
  rw [ha] at hp
  exact absurd hp (by simp)

end Runs

end Arena

end Allocators.FreeList
