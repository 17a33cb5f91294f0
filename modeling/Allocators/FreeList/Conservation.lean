import Allocators.FreeList.Safety

/-! When a run of the free list loses no byte. -/

namespace Allocators.FreeList

open Lib Extent

/-- Neighbouring chunks do not touch. -/
def Gapped (l : List Entry) : Prop := l.Pairwise (fun x y => x.1+x.2 < y.1)

theorem Gapped.append {l k : List Entry} :
    Gapped (l ++ k) ↔ Gapped l ∧ Gapped k ∧ ∀ x ∈ l, ∀ y ∈ k, x.1+x.2 < y.1 :=
  List.pairwise_append

theorem Gapped.cons {e : Entry} {l : List Entry} :
    Gapped (e :: l) ↔ (∀ x ∈ l, e.1+e.2 < x.1) ∧ Gapped l := List.pairwise_cons

/-- Different chunks have a gap between them. -/
theorem Gapped.apart {l : List Entry} (h : Gapped l) {x y : Entry} (hx : x ∈ l) (hy : y ∈ l)
    (hne : x ≠ y) : x.1+x.2 < y.1 ∨ y.1+y.2 < x.1 := by
  have : Std.Symm (fun x y : Entry => x.1+x.2 < y.1 ∨ y.1+y.2 < x.1) := ⟨fun _ _ h => h.symm⟩
  have hs : l.Pairwise (fun x y => x.1+x.2 < y.1 ∨ y.1+y.2 < x.1) := h.imp Or.inl
  exact hs.forall hx hy hne

section Coalesce

variable {bytes : Nat} {lo hi : List Entry} {e : Entry}

/-- The join with the next entry leaves a gap behind the entry. -/
theorem coalesceAt_gapped_next (hfit : total (lo ++ e :: hi) < 2^sizeBits bytes)
    (hg : Gapped hi) (ht : ∀ y ∈ hi, e.1+e.2 ≤ y.1) :
    ∃ n r, coalesceAt bytes (lo ++ e :: hi) lo.length=lo ++ (e.1,n) :: r ∧ e.2 ≤ n ∧
      n+total lo < 2^sizeBits bytes ∧ (∀ y ∈ r, y ∈ hi) ∧ Gapped ((e.1,n) :: r) := by
  simp only [total_append,total_cons] at hfit
  cases hi with
  | nil =>
    exact ⟨e.2,[],coalesceAt_last bytes lo e,le_rfl,by omega,by simp,
      List.pairwise_singleton _ _⟩
  | cons y hi =>
    obtain ⟨hy,hgt⟩ := Gapped.cons.mp hg
    simp only [total_cons] at hfit
    by_cases he : e.1+e.2=y.1
    · refine ⟨e.2+y.2,hi,?_,by omega,by omega,fun z hz => List.mem_cons_of_mem _ hz,?_⟩
      · rw [coalesceAt_touch bytes lo hi e y he,toSizeType_of_lt (by omega)]
      · refine Gapped.cons.mpr ⟨?_,hgt⟩
        intro z hz
        have := hy z hz
        simp only
        omega
    · refine ⟨e.2,y :: hi,coalesceAt_gap bytes lo hi e y he,le_rfl,by omega,fun z hz => hz,?_⟩
      refine Gapped.cons.mpr ⟨?_,hg⟩
      intro z hz
      have h1 := ht y (by simp)
      rcases List.mem_cons.mp hz with rfl | hz
      · simp only
        omega
      · have := hy z hz
        simp only
        omega

/-- Both joins together leave gaps everywhere. -/
theorem coalesceAround_gapped (hfit : total (lo ++ e :: hi) < 2^sizeBits bytes)
    (hg : Gapped (lo ++ hi)) (hlo : ∀ x ∈ lo, x.1+x.2 ≤ e.1) (hhi : ∀ y ∈ hi, e.1+e.2 ≤ y.1)
    (hpos : 0 < e.2) : Gapped (coalesceAround bytes (lo ++ e :: hi) lo.length) := by
  obtain ⟨hgl,hgh,hgx⟩ := Gapped.append.mp hg
  obtain ⟨n,r,hn,hen,hsum,hr,hgn⟩ := coalesceAt_gapped_next hfit hgh hhi
  obtain ⟨hnr,hgr⟩ := Gapped.cons.mp hgn
  unfold coalesceAround
  rw [hn]
  rcases List.eq_nil_or_concat' lo with rfl | ⟨l,x,rfl⟩
  · simpa using hgn
  · obtain ⟨hgl',_,hlx⟩ := Gapped.append.mp hgl
    have hx := hlo x (by simp)
    have hlen : (l ++ [x]).length ≠ 0 := by simp
    rw [if_neg hlen]
    have hpos' : (l ++ [x]).length-1=l.length := by simp
    rw [hpos',List.append_assoc,List.singleton_append]
    simp only [total_append,total_cons,total_nil] at hsum
    by_cases he : x.1+x.2=e.1
    · rw [coalesceAt_touch bytes l r x (e.1,n) he,toSizeType_of_lt (by omega)]
      refine Gapped.append.mpr ⟨hgl',Gapped.cons.mpr ⟨?_,hgr⟩,?_⟩
      · intro y hy
        have := hnr y hy
        simp only at this ⊢
        omega
      · intro z hz
        have hzx := hlx z hz x (by simp)
        refine List.forall_mem_cons.mpr ⟨hzx,?_⟩
        intro y hy
        have := hnr y hy
        simp only at this
        omega
    · rw [coalesceAt_gap bytes l r x (e.1,n) he]
      refine Gapped.append.mpr ⟨hgl',Gapped.cons.mpr ⟨?_,hgn⟩,?_⟩
      · refine List.forall_mem_cons.mpr ⟨by simp only; omega,?_⟩
        intro y hy
        have := hnr y hy
        simp only at this
        omega
      · intro z hz
        have hzx := hlx z hz x (by simp)
        refine List.forall_mem_cons.mpr ⟨hzx,List.forall_mem_cons.mpr ⟨by simp only; omega,?_⟩⟩
        intro y hy
        have := hnr y hy
        simp only at this
        omega

end Coalesce

namespace Arena

variable (bytes : Nat) {S : Type} [Storage S]

/-- No byte of the arena is lost: each one is free or in a block, what is recorded is at least
`bytesFree`, and an arena without blocks serves the largest request. -/
structure Conserves (a : Arena S) : Prop where
  covered : ∀ b < bytes, Covers (availible a ++ blocks bytes a) b
  recorded : a.itf.bytesFree ≤ total (availible a)
  restored : a.live=[] → ∀ sizeofT count, 0 < sizeofT →
    sizeofT*count=bytes-headerSize bytes → (a.itf.allocate bytes sizeofT count).isSome

/-- `add` treats the header rightly: a block comes back to a list that is not empty, and the rest
of a chunk to one that is. -/
def KeepsHeaders (a : Arena S) : Call → Prop
  | .allocate sizeofT count =>
    ∀ chunk ∈ (availible a).find?
        (fun e => decide (sizeofT*count+headerSize bytes ≤ e.2)),
      sizeofT*count+headerSize bytes < chunk.2 → (availible a).erase chunk=[]
  | .deallocate _ => availible a ≠ []
  | _ => True

theorem KeepsHeaders.cutsCleanly {a : Arena S} {c : Call} (h : KeepsHeaders bytes a c) :
    CutsCleanly bytes a c := by
  cases c with
  | allocate sizeofT count => exact fun chunk hc hlt => .inl (h chunk hc hlt)
  | _ => trivial

/-- Chunks and blocks fill the arena, and the chunks are maximal. -/
structure Exact (a : Arena S) : Prop extends Sound bytes a where
  covered : ∀ b < bytes, Covers (availible a ++ blocks bytes a) b
  positive : ∀ e ∈ availible a, 0 < e.2
  gapped : Gapped (availible a)
  balance : a.itf.bytesFree=total (availible a)

variable {bytes} {a : Arena S}

namespace Exact

theorem total_eq (h : Exact bytes a) : total (availible a)+total (blocks bytes a)=bytes := by
  rw [← total_append]
  exact le_antisymm (total_le h.safe.1 h.safe.2) (le_total_of_covers h.safe.1 h.covered)

/-- A chunk lies before or behind a live block. -/
theorem beside (h : Exact bytes a) {ptr : Nat} (hm : ptr ∈ a.live) {e : Entry}
    (he : e ∈ availible a) : e.1+e.2 ≤ ptr-headerSize bytes ∨
      ptr-headerSize bytes+(headerSize bytes+userBytes bytes a ptr) ≤ e.1 := by
  obtain ⟨_,hap,_⟩ := packed_cons.mp ((packed_perm (ranges_perm_erase hm)).mp h.safe)
  have hH := headerSize_pos bytes
  have h1 := apart_iff.mp (hap e (List.mem_append_left _ he))
  have h2 := h.positive e he
  simp only [block] at h1
  omega

/-- The chunks and a live block have room in the arena. -/
theorem total_add_block_le (h : Exact bytes a) {ptr : Nat} (hm : ptr ∈ a.live) :
    total (availible a)+(headerSize bytes+userBytes bytes a ptr) ≤ bytes := by
  have hpk := (packed_perm (ranges_perm_erase hm)).mp h.safe
  have h1 := total_le hpk.1 hpk.2
  rw [total_cons,total_append] at h1
  simp only [block] at h1
  omega

/-- With no block left there is one chunk. -/
theorem availible_of_empty (h : Exact bytes a) (hb : 0 < bytes) (hl : a.live=[]) :
    availible a=[(0,bytes)] := by
  have hcov : ∀ b < bytes, Covers (availible a) b := by
    intro b hlt
    simpa [blocks,hl] using h.covered b hlt
  cases he : availible a with
  | nil => exact absurd (hcov 0 hb) (by simp [he])
  | cons e rest =>
    have hs := h.sorted
    have hg := h.gapped
    have hw := h.safe.2 e (by simp [he])
    rw [he] at hs hg hcov
    have hlow := (List.pairwise_cons.mp hs).1
    have hgap := (Gapped.cons.mp hg).1
    have h0 : e.1=0 := by
      obtain ⟨x,hx,hx0⟩ := hcov 0 hb
      rcases List.mem_cons.mp hx with rfl | hx
      · exact Nat.le_zero.mp hx0.1
      · have := hlow x hx
        simp only [mem_bytes] at hx0
        omega
    have hend : ¬ e.1+e.2 < bytes := by
      intro hlt
      obtain ⟨x,hx,hx0⟩ := hcov _ hlt
      rcases List.mem_cons.mp hx with rfl | hx
      · simp at hx0
      · have := hgap x hx
        simp only [mem_bytes] at hx0
        omega
    have hrest : rest=[] := by
      cases rest with
      | nil => rfl
      | cons y rest =>
        have h1 := hgap y (by simp)
        have h2 := h.safe.2 y (by simp [he])
        have h3 := h.positive y (by simp [he])
        simp only [Extent.Within] at h2
        omega
    rw [hrest]
    simp only [Extent.Within] at hw
    have h2 : e.2=bytes := by omega
    exact congrArg (fun x => [x]) (Prod.ext h0 h2)

theorem write (h : Exact bytes a) {ptr offset : Nat} {byte : UInt8} (hm : ptr ∈ a.live)
    (ho : offset < userBytes bytes a ptr) :
    Exact bytes { a with itf.memory := a.itf.memory.writeByte (ptr+offset) byte } := by
  refine ⟨h.toSound.write hm ho byte,?_,h.positive,h.gapped,h.balance⟩
  intro b hb
  rw [← h.toSound.blocks_write hm ho]
  exact h.covered b hb

/-- In a full arena no byte behind a chunk is free for the taking. -/
theorem keepsHeaders_of_cutsCleanly (h : Exact bytes a) {sizeofT count : Nat}
    (hc : CutsCleanly bytes a (.allocate sizeofT count)) :
    KeepsHeaders bytes a (.allocate sizeofT count) := by
  intro chunk hf hlt
  have hH := headerSize_pos bytes
  have hm := List.mem_of_find?_eq_some hf
  have hperm : (availible a ++ blocks bytes a).Perm
      (chunk :: ((availible a).erase chunk ++ blocks bytes a)) :=
    (List.perm_cons_erase hm).append_right _
  obtain ⟨_,hap,_⟩ := packed_cons.mp ((packed_perm hperm).mp h.safe)
  rcases hc chunk hf hlt with hn | ⟨e,he,hk⟩ | ⟨hw,hfree⟩
  · exact hn
  · have h1 := apart_iff.mp (hap e (List.mem_append_left _ he))
    have h2 := h.positive e (List.mem_of_mem_erase he)
    omega
  · simp only [Extent.Within] at hw
    have hcov := (covers_perm hperm).mp (h.covered (chunk.1+chunk.2) (by omega))
    rcases covers_cons.mp hcov with hx | ⟨x,hx,hxb⟩
    · simp at hx
    · exact (Set.disjoint_left.mp (hfree x hx) (by simp only [mem_bytes]; omega) hxb).elim

variable [LawfulStorage S]

theorem conserves (h : Exact bytes a) (hv : ValidSize bytes) : Conserves bytes a := by
  refine ⟨h.covered,h.balance.le,?_⟩
  intro hl sizeofT count ht hc
  have hlt := hv.1
  have hreq : PolicyInterface.reqBytes bytes sizeofT count=sizeofT*count+headerSize bytes :=
    reqBytes_of_fits hv ht (by omega)
  obtain ⟨_,hsmall⟩ | ⟨p',lo,mem,chunk,hi,hp,_⟩ := allocate_cases bytes a.itf h.search sizeofT count
  · have he := h.availible_of_empty (by omega) hl
    have := hsmall (0,bytes) (by rw [← availible,he]; simp)
    rw [hreq] at this
    simp only at this
    omega
  · simp [hp]

theorem fresh (hv : ValidSize bytes) (memory : Memory) :
    Exact bytes (Arena.fresh bytes memory : Arena S) := by
  have hc : Storage.entries (Storage.clear : S)=[] := LawfulStorage.entries_clear
  have he : availible (Arena.fresh bytes memory : Arena S)=[(0,bytes)] :=
    entries_add_empty bytes hc 0 bytes
  have hlt := hv.1
  refine ⟨sound_fresh memory,?_,?_,?_,?_⟩
  · intro b hb
    simp [he,hb]
  · simp [he]
    omega
  · rw [he]
    exact List.pairwise_singleton _ _
  · rw [he]
    simp [Arena.fresh,PolicyInterface.make]

variable {a' : Arena S} {r : Reply}

theorem allocate (h : Exact bytes a) (hv : ValidSize bytes) {sizeofT count : Nat}
    (hf : (Call.allocate sizeofT count).Fits bytes)
    (hk : KeepsHeaders bytes a (.allocate sizeofT count))
    (hs : serve bytes a (.allocate sizeofT count)=some (a',r)) : Exact bytes a' := by
  have hsound : Sound bytes a' := by
    have hx := h.toSound.allocate hv hf hs
    exact hx.2 (hx.1.mpr (KeepsHeaders.cutsCleanly bytes hk))
  obtain ⟨rfl,_⟩ | ⟨p',lo,mem,chunk,hi,rfl,g,hfind,herase⟩ := h.toSound.allocate_cases hv hf hs
  · exact h
  · have hb := h.toSound.blocks_grant g hv (by omega)
    have hc := g.enough
    have hav : availible a=lo ++ (mem,chunk) :: hi := g.entries
    have hperm : (availible a).Perm ((mem,chunk) :: (lo ++ hi)) := hav ▸ List.perm_middle
    have htot : total (availible a)=chunk+total (lo ++ hi) := total_perm hperm
    have hfree : p'.bytesFree=
        total (availible a)-(sizeofT*count+headerSize bytes) := by
      have h1 := h.total_eq
      have h2 := hv.lt
      rw [g.bytesFree,h.balance]
      exact toSizeType_sub (by omega) (by omega)
    have hcov := h.covered
    have hpos := h.positive
    have hgap := h.gapped
    rw [hav] at hcov hpos hgap
    have hsub : (lo ++ hi).Sublist (lo ++ (mem,chunk) :: hi) :=
      (List.sublist_cons_self _ _).append_left lo
    by_cases hlt : sizeofT*count+headerSize bytes < chunk
    · have hnil : lo ++ hi=[] := herase ▸ hk _ hfind hlt
      obtain ⟨s,hse,hadd⟩ := g.rest hlt
      have he : availible (⟨p',(mem+headerSize bytes) :: a.live⟩ : Arena S)=
          [(mem+(sizeofT*count+headerSize bytes),chunk-(sizeofT*count+headerSize bytes))] := by
        change Storage.entries p'.availible=_
        rw [hadd]
        exact entries_add_empty bytes (hse.trans hnil) _ _
      obtain ⟨rfl,rfl⟩ := List.append_eq_nil_iff.mp hnil
      refine ⟨hsound,?_,?_,?_,?_⟩
      · intro b hlb
        have := hcov b hlb
        rw [he,hb]
        simp only [covers_append,covers_cons,covers_nil,or_false,mem_bytes,List.nil_append] at this ⊢
        rcases this with hx | hx
        · by_cases hcut : b < mem+(sizeofT*count+headerSize bytes)
          · exact .inr (.inl (by omega))
          · exact .inl (by omega)
        · exact .inr (.inr hx)
      · simp only [he,List.forall_mem_singleton]
        omega
      · rw [he]
        exact List.pairwise_singleton _ _
      · rw [he]
        simp only [hfree,htot,List.append_nil,total_nil,total_cons]
        omega
    · have hx : sizeofT*count+headerSize bytes=chunk := by omega
      have he : availible (⟨p',(mem+headerSize bytes) :: a.live⟩ : Arena S)=lo ++ hi := g.exact hx
      refine ⟨hsound,?_,?_,?_,?_⟩
      · intro b hlb
        have := hcov b hlb
        rw [he,hb,hx]
        simp only [covers_append,covers_cons] at this ⊢
        tauto
      · rw [he]
        exact fun e hm => hpos e (hsub.subset hm)
      · rw [he]
        exact hgap.sublist hsub
      · rw [he]
        simp only [hfree,htot]
        omega

theorem deallocate (h : Exact bytes a) (hv : ValidSize bytes) {ptr : Nat} (hm : ptr ∈ a.live)
    (hk : availible a ≠ []) : Exact bytes ⟨a.itf.deallocate bytes ptr,a.live.erase ptr⟩ := by
  have hsound := h.toSound.deallocate hv hm
  have hH := headerSize_pos bytes
  have hblock : block bytes a ptr=(ptr-headerSize bytes,headerSize bytes+userBytes bytes a ptr) := rfl
  have hside : ∀ e ∈ availible a, e.1+e.2 ≤ ptr-headerSize bytes ∨
      ptr-headerSize bytes+(headerSize bytes+userBytes bytes a ptr) ≤ e.1 :=
    fun e he => h.beside hm he
  have htot := h.total_add_block_le hm
  have hlt := hv.lt
  obtain ⟨hnil,_⟩ | ⟨l,r,hlr,_,hl,hr,he⟩ | ⟨l,e,r,hlr,hke,_⟩ := entries_add_cases bytes h.sorted
    (ptr-headerSize bytes) (userBytes bytes a ptr)
  · exact absurd hnil hk
  · rw [toSizeType_of_lt (by omega),Nat.add_comm (userBytes bytes a ptr)] at he
    have hav : availible a=l ++ r := hlr
    rw [hav] at hside htot
    have hfit : total (l ++ (ptr-headerSize bytes,headerSize bytes+userBytes bytes a ptr) :: r) <
        2^sizeBits bytes := by
      rw [total_perm List.perm_middle,total_cons]
      simp only
      omega
    have hco := coalesceAround_coalesces bytes hfit l.length
    rw [← he] at hco
    have hnew : availible (⟨a.itf.deallocate bytes ptr,a.live.erase ptr⟩ : Arena S)=
        Storage.entries (PolicyT.add bytes a.itf.availible (ptr-headerSize bytes)
          (userBytes bytes a ptr)) := rfl
    have hbl : blocks bytes (⟨a.itf.deallocate bytes ptr,a.live.erase ptr⟩ : Arena S)=
        (a.live.erase ptr).map (block bytes a) := rfl
    refine ⟨hsound,?_,?_,?_,?_⟩
    · intro b hb
      have hc := (covers_perm (ranges_perm_erase hm)).mp (h.covered b hb)
      rw [hnew,hbl,covers_append,hco.covers_iff]
      rw [hav,hblock] at hc
      simp only [covers_append,covers_cons] at hc ⊢
      tauto
    · rw [hnew]
      refine hco.positive ?_
      intro e hm
      rcases List.mem_cons.mp (List.perm_middle.subset hm) with rfl | hm
      · simp only
        omega
      · exact h.positive e (hav ▸ hm)
    · rw [hnew,he]
      refine coalesceAround_gapped hfit (hav ▸ h.gapped) ?_ ?_
        (by simp only; omega)
      · intro x hx
        have := hside x (List.mem_append_left _ hx)
        have := hl x hx
        simp only
        omega
      · intro y hy
        have := hside y (List.mem_append_right _ hy)
        have := hr y hy
        simp only
        omega
    · change toSizeType bytes (a.itf.bytesFree+userBytes bytes a ptr+headerSize bytes)=_
      rw [hnew,hco.total_eq,h.balance,hav,toSizeType_of_lt (by omega),
        total_perm List.perm_middle,total_cons]
      simp only
      omega
  · have h1 := hside e (by rw [availible,hlr]; simp)
    have h2 := h.positive e (by rw [availible,hlr]; simp)
    omega

/-- The first path of `add` forgets the header of a block. -/
theorem deallocate_empty (h : Exact bytes a) {ptr : Nat} (hm : ptr ∈ a.live)
    (hk : availible a=[]) : ¬ Conserves bytes ⟨a.itf.deallocate bytes ptr,a.live.erase ptr⟩ := by
  intro hc
  have hH := headerSize_pos bytes
  have hpk := (packed_perm (blocks_perm_erase hm)).mp h.toSound.blocks_packed
  obtain ⟨hw,hap,_⟩ := packed_cons.mp hpk
  have hblock : block bytes a ptr=(ptr-headerSize bytes,headerSize bytes+userBytes bytes a ptr) := rfl
  rw [hblock] at hw hap
  simp only [Extent.Within] at hw
  have hcov := hc.covered (ptr-headerSize bytes+userBytes bytes a ptr) (by omega)
  have he : availible (⟨a.itf.deallocate bytes ptr,a.live.erase ptr⟩ : Arena S)=
      [(ptr-headerSize bytes,userBytes bytes a ptr)] := entries_add_empty bytes hk _ _
  rw [he] at hcov
  rcases covers_append.mp hcov with hx | ⟨x,hx,hxb⟩
  · simp at hx
  · exact Set.disjoint_left.mp (hap x hx) (by simp only [mem_bytes]; omega) hxb

theorem freeAll (h : Exact bytes a) (hv : ValidSize bytes) :
    Exact bytes ⟨a.itf.freeAll bytes,[]⟩ := by
  have he : availible (⟨a.itf.freeAll bytes,[]⟩ : Arena S)=[(0,bytes)] := entries_freeAll bytes
  have hlt := hv.1
  refine ⟨h.toSound.freeAll,?_,?_,?_,?_⟩
  · intro b hb
    simp [he,hb]
  · simp only [he,List.forall_mem_singleton]
    omega
  · rw [he]
    exact List.pairwise_singleton _ _
  · rw [he]
    simp [PolicyInterface.freeAll]

end Exact

variable [LawfulStorage S] {a' : Arena S} {c : Call}

theorem exact_next (h : Exact bytes a) (hv : ValidSize bytes) (hk : KeepsHeaders bytes a c)
    (hn : (machine bytes (Call.Fits bytes)).next a c=some a') : Exact bytes a' := by
  obtain ⟨hf,r,hs⟩ := next_cases hn
  cases c with
  | allocate sizeofT count => exact h.allocate hv hf hk hs
  | deallocate ptr =>
    obtain ⟨hm,rfl⟩ := serve_deallocate hs
    exact h.deallocate hv hm hk
  | freeAll =>
    obtain ⟨rfl,_⟩ := Prod.mk.inj (Option.some.inj hs)
    exact h.freeAll hv
  | write ptr offset byte =>
    obtain ⟨hm,rfl⟩ := serve_write hs
    exact h.write hm.1 hm.2

theorem spoilt_next (h : Exact bytes a) (hv : ValidSize bytes) (hk : ¬ KeepsHeaders bytes a c)
    (hn : (machine bytes (Call.Fits bytes)).next a c=some a') :
    ¬ (Conserves bytes a' ∧ Safe bytes a') := by
  rintro ⟨hcon,hsafe⟩
  cases c with
  | allocate sizeofT count =>
    exact hk (h.keepsHeaders_of_cutsCleanly ((sound_or_safe_iff h.toSound hv hn).1.mp hsafe))
  | deallocate ptr =>
    obtain ⟨_,r,hs⟩ := next_cases hn
    obtain ⟨hm,rfl⟩ := serve_deallocate hs
    exact h.deallocate_empty hm (by simpa [KeepsHeaders] using hk) hcon
  | freeAll => exact hk trivial
  | write ptr offset byte => exact hk trivial

/-- A run loses no byte and lets no two blocks overlap exactly when `add` is always called on the
path that treats the header rightly. -/
theorem conserves_iff_keepsHeaders (P : Policy) {bytes : Nat} (hv : ValidSize bytes)
    {h : List (Arena P.Store × Call)} {a : Arena P.Store}
    (r : (machine bytes (Call.Fits bytes)).Run h a) :
    (∀ t ∈ Machine.visited h a, Conserves bytes t ∧ Safe bytes t) ↔
      ∀ e ∈ h, KeepsHeaders bytes e.1 e.2 :=
  r.always_iff (fun _ ⟨_,he⟩ => he ▸ Exact.fresh hv _)
    (fun _ _ _ he hg hn => exact_next he hv hg hn) (fun _ he => ⟨he.conserves hv,he.safe⟩)
    (fun _ _ _ he hg hn => spoilt_next he hv hg hn)

theorem conserves_iff_keepsHeaders_given_back :
    ∃ (h : List (Arena Policy.tree.Store × Call)) (a : Arena Policy.tree.Store),
      (availible a=[(0,16)] ∧ a.live=[]) ∧
        ((∀ t ∈ Machine.visited h a, Conserves 16 t ∧ Safe 16 t) ↔
          ∀ e ∈ h, KeepsHeaders 16 e.1 e.2) := by
  obtain ⟨a,⟨h,r⟩,ha⟩ := Machine.reachable_of_runFrom (machine 16 (Call.Fits 16))
    (fresh 16 fun _ => 0) [.allocate 1 4,.deallocate 1]
    (fun a : Arena Policy.tree.Store => availible a=[(0,16)] ∧ a.live=[]) ⟨_,rfl⟩ (by decide)
  exact ⟨h,a,ha,conserves_iff_keepsHeaders .tree (by decide) r⟩

/-- The whole arena of 16 as one block, given back to the empty list: the last byte is lost. -/
theorem last_block_loses_header :
    ∃ a : Arena Policy.list.Store, (machine 16 (Call.Fits 16)).Reachable a ∧
      (a.live=[] ∧ ¬ Covers (availible a ++ blocks 16 a) 15) :=
  Machine.reachable_of_runFrom (machine 16 (Call.Fits 16)) (fresh 16 fun _ => 0)
    [.allocate 1 15,.deallocate 1]
    (fun a => a.live=[] ∧ ¬ Covers (availible a ++ blocks 16 a) 15) ⟨_,rfl⟩ (by decide)

end Arena

end Allocators.FreeList
