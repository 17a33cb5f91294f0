import Allocators.FreeList.Steps

/-! When the chunks and the blocks of a run stay disjoint. -/

namespace Allocators.FreeList

open Lib Extent

namespace Arena

variable (bytes : Nat) {S : Type} [Storage S]

/-- The free chunks and the live blocks lie in the arena and share no byte. -/
def Safe (a : Arena S) : Prop := Packed bytes (availible a ++ blocks bytes a)

instance (a : Arena S) : Decidable (Safe bytes a) := inferInstanceAs (Decidable (Packed _ _))

/-- An allocation that cuts its chunk while others are recorded makes `add` record a header's
worth of bytes behind the chunk as well. They must be free for the taking: inside the arena and
outside every other chunk and every block. Nothing is recorded where the rest would begin at an
address that already has an entry. -/
def CutsCleanly (a : Arena S) : Call → Prop
  | .allocate sizeofT count =>
    ∀ chunk ∈ (availible a).find?
        (fun e => decide (sizeofT*count+headerSize bytes ≤ e.2)),
      sizeofT*count+headerSize bytes < chunk.2 →
      (availible a).erase chunk=[] ∨
      (∃ e ∈ (availible a).erase chunk, e.1=chunk.1+(sizeofT*count+headerSize bytes)) ∨
      (Extent.Within bytes (chunk.1+chunk.2,headerSize bytes) ∧
        ∀ e ∈ (availible a).erase chunk ++ blocks bytes a,
          Extent.Apart (chunk.1+chunk.2,headerSize bytes) e)
  | _ => True

/-- What a run keeps as long as it is safe. -/
structure Sound (a : Arena S) : Prop where
  sorted : Sorted (availible a)
  search : a.itf.search=.firstFit
  header : ∀ ptr ∈ a.live, headerSize bytes ≤ ptr
  safe : Safe bytes a

variable {bytes} {a : Arena S}

theorem sound_fresh [LawfulStorage S] (memory : Memory) : Sound bytes (fresh bytes memory : Arena S) := by
  have hc : Storage.entries (Storage.clear : S)=[] := LawfulStorage.entries_clear
  have he : availible (fresh bytes memory : Arena S)=[(0,bytes)] := entries_add_empty bytes hc 0 bytes
  refine ⟨?_,rfl,by simp [fresh],?_⟩
  · rw [he]
    exact List.pairwise_singleton _ _
  · unfold Safe
    rw [he]
    exact ⟨List.pairwise_singleton _ _,by simp [fresh,blocks,Extent.Within]⟩

namespace Sound

theorem blocks_packed (h : Sound bytes a) : Packed bytes (blocks bytes a) :=
  h.safe.sublist (List.sublist_append_right _ _)

/-- Two live blocks share no byte. -/
theorem block_apart (h : Sound bytes a) {p q : Nat} (hp : p ∈ a.live) (hq : q ∈ a.live)
    (hne : p ≠ q) : (block bytes a p).Apart (block bytes a q) := by
  have hw := List.pairwise_map.mp h.blocks_packed.1
  have : Std.Symm (fun x y => (block bytes a x).Apart (block bytes a y)) :=
    ⟨fun _ _ hx => Extent.Apart.symm hx⟩
  exact hw.forall hp hq hne

section Grant

variable {p' : PolicyInterface S} {req mem chunk : Nat} {lo hi : List Entry}

theorem chunk_packed (h : Sound bytes a) (g : Grant bytes a.itf p' req mem chunk lo hi) :
    Packed bytes ((mem,chunk) :: (lo ++ hi ++ blocks bytes a)) := by
  have hs := h.safe
  rw [Safe,availible,g.entries] at hs
  exact (packed_perm (by simp [List.perm_middle])).mp hs

/-- The new block is the front of the chunk; the other blocks stay. -/
theorem blocks_grant (h : Sound bytes a) (g : Grant bytes a.itf p' req mem chunk lo hi)
    (hv : ValidSize bytes) (hr : headerSize bytes ≤ req) :
    blocks bytes ⟨p',(mem+headerSize bytes) :: a.live⟩=(mem,req) :: blocks bytes a := by
  have hp := headerSize_pos bytes
  obtain ⟨hw,hap,_⟩ := packed_cons.mp (h.chunk_packed g)
  have hc := g.enough
  have hlt : req < 2^sizeBits bytes := by
    have := hv.lt
    simp only [Extent.Within] at hw
    omega
  have hsz : toSizeType bytes (req+2^64-headerSize bytes)=req-headerSize bytes :=
    toSizeType_sub hlt hr
  have hnew : block bytes ⟨p',(mem+headerSize bytes) :: a.live⟩ (mem+headerSize bytes)=(mem,req) := by
    unfold block userBytes PolicyInterface.headerAt
    simp only [g.memory,hsz,Nat.add_sub_cancel]
    rw [Memory.readWord_writeWord (by rw [← two_pow_sizeBits]; omega)]
    exact Prod.ext rfl (by simp only; omega)
  have hold : a.live.map (block bytes ⟨p',(mem+headerSize bytes) :: a.live⟩)=
      a.live.map (block bytes a) := by
    apply blocks_congr
    intro ptr hptr x h1 h2
    have hx := header_apart (hap _ (List.mem_append_right _ (mem_blocks hptr))) (by omega)
    change p'.memory x=_
    rw [g.memory]
    exact Memory.writeWord_other (by omega)
  change _ :: _=_
  rw [hnew,hold]
  rfl

/-- The chunk cut into the new block and the rest. -/
theorem cut_packed (h : Sound bytes a) (g : Grant bytes a.itf p' req mem chunk lo hi) :
    Packed bytes ((mem,req) :: (mem+req,chunk-req) :: (lo ++ hi ++ blocks bytes a)) :=
  (packed_cut g.enough).mp (h.chunk_packed g)

theorem others_packed (h : Sound bytes a) (g : Grant bytes a.itf p' req mem chunk lo hi) :
    Packed bytes (lo ++ hi ++ (mem,req) :: blocks bytes a) := by
  have hs := (h.cut_packed g).sublist ((List.sublist_cons_self _ _).cons_cons _)
  exact (packed_perm List.perm_middle.symm).mp hs

/-- With `extra` bytes behind the chunk recorded along with the rest, all is well exactly when
they were nobody's. -/
theorem rest_packed_iff (h : Sound bytes a) (g : Grant bytes a.itf p' req mem chunk lo hi)
    (hlt : req < chunk) {extra : Nat} (he : 0 < extra) :
    Packed bytes ((mem+req,chunk-req+extra) :: (lo ++ hi ++ (mem,req) :: blocks bytes a)) ↔
      Extent.Within bytes (mem+chunk,extra) ∧
        ∀ e ∈ lo ++ hi ++ blocks bytes a, Extent.Apart (mem+chunk,extra) e := by
  have hcut := h.cut_packed g
  have hsum : mem+req+(chunk-req)=mem+chunk := by omega
  have hpeel := packed_cut (n := bytes) (m := mem+req) (c := chunk-req+extra) (r := chunk-req)
    (l := lo ++ hi ++ (mem,req) :: blocks bytes a) (by omega)
  rw [hsum,Nat.add_sub_cancel_left] at hpeel
  have hmid : Packed bytes ((mem+req,chunk-req) :: (lo ++ hi ++ (mem,req) :: blocks bytes a)) := by
    refine (packed_perm ?_).mp hcut
    exact (List.Perm.swap _ _ _).trans (List.perm_middle.symm.cons _)
  obtain ⟨_,hap,_⟩ := packed_cons.mp hmid
  rw [hpeel,(packed_perm (List.Perm.swap _ _ _)),packed_cons]
  constructor
  · rintro ⟨hw,hx,_⟩
    refine ⟨hw,fun e hm => hx e ?_⟩
    simp only [List.mem_cons,List.mem_append] at hm ⊢
    tauto
  · rintro ⟨hw,hx⟩
    refine ⟨hw,?_,hmid⟩
    intro e hm
    simp only [List.mem_cons,List.mem_append] at hm
    rcases hm with rfl | (hm | hm) | rfl | hm
    · exact apart_iff.mpr (by simp only; omega)
    · exact hx e (by simp [hm])
    · exact hx e (by simp [hm])
    · exact apart_iff.mpr (by simp only; omega)
    · exact hx e (by simp [hm])

variable [LawfulStorage S]

/-- The entries around a chunk that was cut, as `add` finds them. -/
theorem entries_rest (h : Sound bytes a) (g : Grant bytes a.itf p' req mem chunk lo hi)
    (hv : ValidSize bytes) (hr : headerSize bytes ≤ req) (hlt : req < chunk) :
    (lo ++ hi=[] ∧ Storage.entries p'.availible=[(mem+req,chunk-req)]) ∨
    (lo ++ hi ≠ [] ∧ (∀ e ∈ lo ++ hi, e.1 ≠ mem+req) ∧
      ∃ l, l.Perm ((mem+req,chunk-req+headerSize bytes) :: (lo ++ hi)) ∧
        Coalesces l (Storage.entries p'.availible)) ∨
    ((∃ e ∈ lo ++ hi, e.1=mem+req) ∧ Coalesces (lo ++ hi) (Storage.entries p'.availible)) := by
  obtain ⟨s,hs,hadd⟩ := g.rest hlt
  have hsort : Sorted (Storage.entries s) := by
    have := h.sorted
    rw [availible,g.entries] at this
    rw [hs]
    exact this.sublist ((List.sublist_cons_self _ _).append_left lo)
  have htot : chunk+total (lo ++ hi) < 2^sizeBits bytes := by
    have h1 := total_le (h.chunk_packed g).1 (h.chunk_packed g).2
    have h2 := hv.lt
    rw [total_cons,total_append] at h1
    omega
  rw [hadd]
  obtain ⟨hnil,he⟩ | ⟨l,r,hlr,hne,hl,hh,he⟩ | ⟨l,e,r,hlr,hk,he⟩ :=
    entries_add_cases bytes hsort (mem+req) (chunk-req)
  · exact .inl ⟨hs ▸ hnil,he⟩
  · have hlr' : lo ++ hi=l ++ r := hs ▸ hlr
    refine .inr (.inl ⟨hlr' ▸ hne,?_,_,?_,he ▸ coalesceAround_coalesces bytes ?_ l.length⟩)
    · intro e hm
      rcases List.mem_append.mp (hlr' ▸ hm) with hm | hm
      · exact (hl e hm).ne
      · exact (hh e hm).ne'
    · rw [toSizeType_of_lt (by omega),hlr']
      exact List.perm_middle
    · rw [toSizeType_of_lt (by omega),total_perm List.perm_middle,total_cons,← hlr']
      simp only
      omega
  · have hlr' : lo ++ hi=l ++ e :: r := hs ▸ hlr
    refine .inr (.inr ⟨⟨e,by simp [hlr'],hk⟩,?_⟩)
    rw [he,hlr']
    refine coalesceAround_coalesces bytes ?_ l.length
    rw [← hlr']
    omega

theorem grant_safe_iff (h : Sound bytes a) (g : Grant bytes a.itf p' req mem chunk lo hi)
    (hv : ValidSize bytes) (hr : headerSize bytes ≤ req) :
    Safe bytes ⟨p',(mem+headerSize bytes) :: a.live⟩ ↔
      (req < chunk → lo ++ hi=[] ∨ (∃ e ∈ lo ++ hi, e.1=mem+req) ∨
        (Extent.Within bytes (mem+chunk,headerSize bytes) ∧
          ∀ e ∈ lo ++ hi ++ blocks bytes a, Extent.Apart (mem+chunk,headerSize bytes) e)) := by
  have hothers := h.others_packed g
  unfold Safe
  rw [h.blocks_grant g hv hr,availible]
  have hc := g.enough
  by_cases hlt : req < chunk
  · simp only [hlt,true_implies]
    obtain ⟨hnil,he⟩ | ⟨hne,hk,l,hl,hco⟩ | ⟨hk,hco⟩ := h.entries_rest g hv hr hlt
    · have hcut := h.cut_packed g
      rw [hnil] at hcut
      simp only [hnil,true_or,iff_true,he]
      exact (packed_perm (List.Perm.swap _ _ _)).mp hcut
    · rw [hco.packed_iff bytes,packed_perm (hl.append_right _),List.cons_append,
        h.rest_packed_iff g hlt (headerSize_pos bytes)]
      have hk' : ¬ ∃ e ∈ lo ++ hi, e.1=mem+req := fun ⟨e,hm,he⟩ => hk e hm he
      simp only [hne,hk',false_or]
    · rw [hco.packed_iff bytes]
      simp only [hk,true_or,or_true,iff_true]
      exact hothers
  · have he := g.exact (by omega)
    simp only [hlt,false_implies,iff_true,he]
    exact hothers

theorem grant_sorted (h : Sound bytes a) (g : Grant bytes a.itf p' req mem chunk lo hi) :
    Sorted (Storage.entries p'.availible) := by
  have hs : Sorted (lo ++ hi) := by
    have := h.sorted
    rw [availible,g.entries] at this
    exact this.sublist ((List.sublist_cons_self _ _).append_left lo)
  have hc := g.enough
  by_cases hlt : req < chunk
  · obtain ⟨s,he,hadd⟩ := g.rest hlt
    rw [hadd]
    exact entries_add_sorted bytes (he ▸ hs) _ _
  · rw [g.exact (by omega)]
    exact hs

end Grant

section Calls

variable [LawfulStorage S] {a' : Arena S} {r : Reply}

/-- An allocation answers `bad_alloc` and changes nothing, or is granted. -/
theorem allocate_cases (h : Sound bytes a) (hv : ValidSize bytes) {sizeofT count : Nat}
    (hf : (Call.allocate sizeofT count).Fits bytes)
    (hs : serve bytes a (.allocate sizeofT count)=some (a',r)) :
    (a'=a ∧ ∀ e ∈ availible a, e.2 < sizeofT*count+headerSize bytes) ∨
    ∃ p' lo mem chunk hi, a'=⟨p',(mem+headerSize bytes) :: a.live⟩ ∧
      Grant bytes a.itf p' (sizeofT*count+headerSize bytes) mem chunk lo hi ∧
      (availible a).find? (fun e => decide (sizeofT*count+headerSize bytes ≤ e.2))=
        some (mem,chunk) ∧
      (availible a).erase (mem,chunk)=lo ++ hi := by
  have hreq := reqBytes_of_fits hv hf.1 hf.2
  simp only [serve] at hs
  obtain ⟨hn,hsmall⟩ | ⟨p',lo,mem,chunk,hi,hp,g⟩ :=
    FreeList.allocate_cases bytes a.itf h.search sizeofT count
  · rw [hn] at hs
    obtain ⟨rfl,_⟩ := Prod.mk.inj (Option.some.inj hs)
    exact .inl ⟨rfl,hreq ▸ hsmall⟩
  · rw [hp] at hs
    obtain ⟨rfl,_⟩ := Prod.mk.inj (Option.some.inj hs)
    rw [hreq] at g
    refine .inr ⟨p',lo,mem,chunk,hi,rfl,g,?_,?_⟩
    · rw [availible,g.entries]
      refine List.find?_eq_some_iff_append.mpr ⟨by simpa using g.enough,lo,hi,rfl,fun x hx => ?_⟩
      have := g.first x hx
      simp only [Bool.not_eq_true',decide_eq_false_iff_not]
      omega
    · rw [availible,g.entries,List.erase_append_right _ ?_,List.erase_cons_head]
      intro hm
      have h1 := g.first _ hm
      have h2 := g.enough
      simp only at h1
      omega

theorem allocate (h : Sound bytes a) (hv : ValidSize bytes) {sizeofT count : Nat}
    (hf : (Call.allocate sizeofT count).Fits bytes)
    (hs : serve bytes a (.allocate sizeofT count)=some (a',r)) :
    (Safe bytes a' ↔ CutsCleanly bytes a (.allocate sizeofT count)) ∧
      (Safe bytes a' → Sound bytes a') := by
  obtain ⟨rfl,hsmall⟩ | ⟨p',lo,mem,chunk,hi,rfl,g,hfind,herase⟩ := h.allocate_cases hv hf hs
  · refine ⟨iff_of_true h.safe ?_,fun _ => h⟩
    intro chunk hc
    have hle := List.find?_some hc
    have := hsmall chunk (List.mem_of_find?_eq_some hc)
    simp only [decide_eq_true_eq] at hle
    omega
  · have hr : headerSize bytes ≤ sizeofT*count+headerSize bytes := by omega
    refine ⟨?_,fun hsafe => ⟨h.grant_sorted g,by rw [g.search]; exact h.search,?_,hsafe⟩⟩
    · rw [h.grant_safe_iff g hv hr]
      simp only [CutsCleanly,hfind,Option.mem_some_iff,forall_eq',herase]
    · intro ptr hm
      rcases List.mem_cons.mp hm with rfl | hm
      · omega
      · exact h.header ptr hm

/-- A block that is given back covers what `add` records of it. -/
theorem deallocate (h : Sound bytes a) (hv : ValidSize bytes) {ptr : Nat} (hm : ptr ∈ a.live) :
    Sound bytes ⟨a.itf.deallocate bytes ptr,a.live.erase ptr⟩ := by
  have hpk := (packed_perm (ranges_perm_erase hm)).mp h.safe
  have hsub : Packed bytes (availible a ++ (a.live.erase ptr).map (block bytes a)) :=
    hpk.sublist (List.sublist_cons_self _ _)
  have hlt : block bytes a ptr=(ptr-headerSize bytes,headerSize bytes+userBytes bytes a ptr) := rfl
  have htot : headerSize bytes+userBytes bytes a ptr+total (availible a) < 2^sizeBits bytes := by
    have h1 := total_le hpk.1 hpk.2
    have h2 := hv.lt
    rw [total_cons,total_append,hlt] at h1
    simp only at h1
    omega
  refine ⟨entries_add_sorted bytes h.sorted _ _,h.search,
    fun q hq => h.header q (List.mem_of_mem_erase hq),?_⟩
  change Packed bytes (Storage.entries (PolicyT.add bytes a.itf.availible (ptr-headerSize bytes)
    (userBytes bytes a ptr)) ++ (a.live.erase ptr).map (block bytes a))
  obtain ⟨hnil,he⟩ | ⟨l,r,hlr,_,_,_,he⟩ | ⟨l,e,r,hlr,_,he⟩ := entries_add_cases bytes h.sorted
    (ptr-headerSize bytes) (userBytes bytes a ptr)
  · rw [he]
    rw [availible,hnil,hlt] at hpk
    exact hpk.shrink (by omega)
  · rw [he,toSizeType_of_lt (by omega)]
    rw [availible,hlr] at hpk htot
    have hco := coalesceAround_coalesces bytes (l := l ++ (ptr-headerSize bytes,
      userBytes bytes a ptr+headerSize bytes) :: r)
      (by rw [total_perm List.perm_middle,total_cons]; simp only; omega) l.length
    rw [hco.packed_iff bytes,packed_perm (List.perm_middle.append_right _),
      Nat.add_comm (userBytes bytes a ptr)]
    exact hpk
  · rw [he]
    rw [availible,hlr] at hsub htot
    rw [(coalesceAround_coalesces bytes (by omega) l.length).packed_iff bytes]
    exact hsub

theorem freeAll (h : Sound bytes a) : Sound bytes ⟨a.itf.freeAll bytes,[]⟩ := by
  have he : availible (⟨a.itf.freeAll bytes,[]⟩ : Arena S)=[(0,bytes)] := entries_freeAll bytes
  refine ⟨?_,h.search,by simp,?_⟩
  · rw [he]
    exact List.pairwise_singleton _ _
  · unfold Safe
    rw [he]
    exact ⟨List.pairwise_singleton _ _,by simp [blocks,Extent.Within]⟩

end Calls

/-- A client that writes into its block reaches no header. -/
theorem blocks_write (h : Sound bytes a) {ptr offset : Nat} {byte : UInt8} (hm : ptr ∈ a.live)
    (ho : offset < userBytes bytes a ptr) :
    blocks bytes a=
      blocks bytes { a with itf.memory := a.itf.memory.writeByte (ptr+offset) byte } := by
  apply blocks_congr
  intro q hq x h1 h2
  have hp := h.header ptr hm
  have hx : x ≠ ptr+offset := by
    by_cases he : q=ptr
    · subst he
      omega
    · have hap := header_apart (h.block_apart hm hq (Ne.symm he))
        (by have := headerSize_pos bytes; omega)
      omega
  exact (Memory.writeByte_other hx).symm

theorem write (h : Sound bytes a) {ptr offset : Nat} (hm : ptr ∈ a.live)
    (ho : offset < userBytes bytes a ptr) (byte : UInt8) :
    Sound bytes { a with itf.memory := a.itf.memory.writeByte (ptr+offset) byte } := by
  refine ⟨h.sorted,h.search,h.header,?_⟩
  have := h.safe
  unfold Safe at this ⊢
  rw [← h.blocks_write hm ho]
  exact this

end Sound

section Runs

variable {a' : Arena S} {c : Call}

variable [LawfulStorage S]

theorem sound_or_safe_iff (h : Sound bytes a) (hv : ValidSize bytes)
    (hn : (machine bytes (Call.Fits bytes)).next a c=some a') :
    (Safe bytes a' ↔ CutsCleanly bytes a c) ∧ (Safe bytes a' → Sound bytes a') := by
  obtain ⟨hf,r,hs⟩ := next_cases hn
  cases c with
  | allocate sizeofT count => exact h.allocate hv hf hs
  | deallocate ptr =>
    obtain ⟨hm,rfl⟩ := serve_deallocate hs
    have hd := h.deallocate hv hm
    exact ⟨iff_of_true hd.safe trivial,fun _ => hd⟩
  | freeAll =>
    obtain ⟨rfl,_⟩ := Prod.mk.inj (Option.some.inj hs)
    exact ⟨iff_of_true h.freeAll.safe trivial,fun _ => h.freeAll⟩
  | write ptr offset byte =>
    obtain ⟨hm,rfl⟩ := serve_write hs
    have hw := h.write hm.1 hm.2 byte
    exact ⟨iff_of_true hw.safe trivial,fun _ => hw⟩

end Runs

/-- A run of fitting requests keeps all chunks and blocks apart and inside the arena exactly
when each of its allocations cuts cleanly. -/
theorem safe_iff_cutsCleanly (P : Policy) {bytes : Nat} (hv : ValidSize bytes)
    {h : List (Arena P.Store × Call)} {a : Arena P.Store}
    (r : (machine bytes (Call.Fits bytes)).Run h a) :
    (∀ t ∈ Machine.visited h a, Safe bytes t) ↔ ∀ e ∈ h, CutsCleanly bytes e.1 e.2 :=
  r.always_iff (fun _ ⟨_,he⟩ => he ▸ sound_fresh _)
    (fun _ _ _ hs hg hn => (sound_or_safe_iff hs hv hn).2 ((sound_or_safe_iff hs hv hn).1.mpr hg))
    (fun _ hs => hs.safe) (fun _ _ _ hs hg hn hsafe => hg ((sound_or_safe_iff hs hv hn).1.mp hsafe))

theorem safe_iff_cutsCleanly_two_blocks :
    ∃ (h : List (Arena Policy.flat.Store × Call)) (a : Arena Policy.flat.Store),
      (availible a=[(10,6)] ∧ a.live=[6,1]) ∧
        ((∀ t ∈ Machine.visited h a, Safe 16 t) ↔ ∀ e ∈ h, CutsCleanly 16 e.1 e.2) := by
  obtain ⟨a,⟨h,r⟩,ha⟩ := Machine.reachable_of_runFrom (machine 16 (Call.Fits 16))
    (fresh 16 fun _ => 0) [.allocate 1 4,.allocate 2 2]
    (fun a : Arena Policy.flat.Store => availible a=[(10,6)] ∧ a.live=[6,1]) ⟨_,rfl⟩ (by decide)
  exact ⟨h,a,ha,safe_iff_cutsCleanly .flat (by decide) r⟩

/-- Two blocks of 5 bytes in an arena of 16, the first given back, and a request for 2 bytes:
the rest of the first chunk is recorded up to the header of the second block. -/
theorem cut_reaches_next_block :
    ∃ a : Arena Policy.list.Store, (machine 16 (Call.Fits 16)).Reachable a ∧ ¬ Safe 16 a :=
  Machine.reachable_of_runFrom (machine 16 (Call.Fits 16)) (fresh 16 fun _ => 0)
    [.allocate 1 4,.allocate 1 4,.deallocate 1,.allocate 1 1]
    (fun a => ¬ Safe 16 a) ⟨_,rfl⟩ (by decide)

end Arena

end Allocators.FreeList
