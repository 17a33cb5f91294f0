import Allocators.AllocHelpers
import Allocators.Lib.Extent
import Allocators.Lib.Memory
import Allocators.Lib.Run

/-! `alignedAlloc`, `alignedFree` and `allocatePage`: the pointer that is stored before a block. -/

namespace Allocators.Aligned

open Lib Memory Extent

/-- `sizeof(void*)` and `alignof(void*)`. -/
def pointerSize : Nat := 8

/-- The pointer `std::align` leaves. -/
def align (alignment size ptr space : Nat) : Nat :=
  let off := (alignment-ptr%alignment)%alignment
  if off+size ≤ space then ptr+off else ptr

def raise (alignment : Nat) : Nat := if alignment < pointerSize then pointerSize else alignment

def space (size alignment : Nat) : Nat := toSizeT (size+alignment-1)

/-- What is asked of `operator new`. -/
def requested (size alignment : Nat) : Nat := toSizeT (space size (raise alignment)+pointerSize)

/-- `alignedAlloc`, where `operator new` returned `mem`: the memory and the pointer. -/
def alignedAlloc (m : Memory) (size alignment mem : Nat) : Memory × Nat :=
  let alignment := raise alignment
  let aligMem := align alignment size (mem+pointerSize) (space size alignment)
  (m.writeWord pointerSize (aligMem-pointerSize) mem,aligMem)

/-- What `alignedFree` gives to `operator delete`. -/
def alignedFree (m : Memory) (ptr : Nat) : Nat := m.readWord pointerSize (ptr-pointerSize)

/-- A block a client has, with what `operator new` granted for it. -/
structure Block where
  ptr : Nat
  size : Nat
  alignment : Nat
  grant : Extent
  deriving DecidableEq

structure Store where
  memory : Memory
  granted : List Extent
  live : List Block

/-- A call, with what `operator new` returns, or a store by a client. -/
inductive Act
  | alignedAlloc (size alignment mem : Nat)
  | allocatePage (bytes mem : Nat)
  | write (a : Nat) (v : UInt8)
  | alignedFree (b : Block)

namespace Store

/-- Memory of `operator new` ends before the last address and is not in use. -/
def Grants (s : Store) (g : Extent) : Prop :=
  0 < g.1 ∧ g.1+g.2 < 2^64 ∧ ∀ x ∈ s.granted, g.Apart x

instance (s : Store) (g : Extent) : Decidable (s.Grants g) := inferInstanceAs (Decidable (_ ∧ _))

/-- `alignedAlloc(size, alignment)` for a client that asked for `bytes`. -/
def place (s : Store) (bytes size alignment mem : Nat) : Option Store :=
  let g := (mem,requested size alignment)
  if s.Grants g then
    let (memory,ptr) := Aligned.alignedAlloc s.memory size alignment mem
    some ⟨memory,g :: s.granted,⟨ptr,bytes,alignment,g⟩ :: s.live⟩
  else none

/-- An alignment is a power of two; else `std::align` is undefined. -/
def IsAlignment (alignment : Nat) : Prop := ∃ k, k < 64 ∧ alignment=2^k

instance (alignment : Nat) : Decidable (IsAlignment alignment) :=
  inferInstanceAs (Decidable (∃ k, k < 64 ∧ alignment=2^k))

/-- A step that is not there is undefined behaviour, or missing memory. -/
def next (pgSz : Nat) (s : Store) : Act → Option Store
  | .alignedAlloc size alignment mem =>
    if size < 2^64 ∧ IsAlignment alignment then s.place size size alignment mem else none
  | .allocatePage bytes mem =>
    if bytes < 2^64 ∧ IsAlignment pgSz then s.place bytes (nearestPageSz pgSz bytes) pgSz mem
    else none
  | .write a v =>
    if ∃ b ∈ s.live, b.ptr ≤ a ∧ a < b.ptr+b.size then
      some { s with memory := s.memory.writeByte a v }
    else none
  | .alignedFree b =>
    if b ∈ s.live then
      let mem := Aligned.alignedFree s.memory b.ptr
      (s.granted.find? fun g => decide (g.1=mem)).map fun g =>
        { s with granted := s.granted.erase g, live := s.live.erase b }
    else none

def machine (pgSz : Nat) : Machine Store Act where
  start s := s.granted=[] ∧ s.live=[]
  next := next pgSz

end Store

/-- No sum in a call exceeds a `size_t`. -/
def Act.Fits (pgSz : Nat) : Act → Prop
  | .alignedAlloc size alignment _ => size+raise alignment+7 < 2^64
  | .allocatePage bytes _ => (bytes+pgSz-1)/pgSz*pgSz+raise pgSz+7 < 2^64
  | _ => True

/-- A block has what was asked for, inside memory of its own, and the word before it leads there. -/
structure Block.Sound (m : Memory) (b : Block) : Prop where
  aligned : b.alignment ∣ b.ptr
  lower : b.grant.1+pointerSize ≤ b.ptr
  upper : b.ptr+b.size ≤ b.grant.1+b.grant.2
  header : Aligned.alignedFree m b.ptr=b.grant.1

/-- Every block is sound, and the memory granted is that of the blocks. -/
structure Store.Sound (s : Store) : Prop where
  blocks : ∀ b ∈ s.live, b.Sound s.memory
  granted : s.granted.Perm (s.live.map Block.grant)
  tiled : Tiled s.granted

section Sums

variable {alignment bytes size mem ptr n pgSz : Nat}

theorem align_dvd (h0 : 0 < alignment) (h : (alignment-ptr%alignment)%alignment+size ≤ n) :
    alignment ∣ align alignment size ptr n ∧ ptr ≤ align alignment size ptr n ∧
      align alignment size ptr n+size ≤ ptr+n := by
  unfold align
  simp only [h,↓reduceIte]
  refine ⟨?_,by omega,by omega⟩
  have hlt := Nat.mod_lt ptr h0
  rcases Nat.eq_zero_or_pos (ptr%alignment) with hz | hz
  · simpa [hz] using Nat.dvd_of_mod_eq_zero hz
  · rw [Nat.mod_eq_of_lt (show alignment-ptr%alignment < alignment by omega)]
    have hdm := Nat.div_add_mod ptr alignment
    have he : ptr+(alignment-ptr%alignment)=alignment*(ptr/alignment+1) := by
      rw [Nat.mul_add,Nat.mul_one]
      omega
    exact ⟨_,he⟩

theorem le_align (alignment size ptr n : Nat) : ptr ≤ align alignment size ptr n := by
  unfold align
  simp only
  split_ifs
  · omega
  · exact le_rfl

theorem raise_pow (k : Nat) : ∃ j, raise (2^k)=2^j ∧ k ≤ j ∧ j ≤ max 3 k := by
  unfold raise pointerSize
  split_ifs with h
  · refine ⟨3,rfl,?_,le_max_left 3 k⟩
    by_contra hk
    have := Nat.pow_le_pow_right (n := 2) (by decide) (show 3 ≤ k by omega)
    omega
  · exact ⟨k,rfl,le_rfl,le_max_right 3 k⟩

theorem raise_bounds (h : Store.IsAlignment alignment) :
    alignment ∣ raise alignment ∧ 8 ≤ raise alignment ∧ raise alignment ≤ 2^63 := by
  obtain ⟨k,hk,rfl⟩ := h
  obtain ⟨j,hj,hkj,hjm⟩ := raise_pow k
  refine ⟨hj ▸ Nat.pow_dvd_pow 2 hkj,?_,?_⟩
  · unfold raise pointerSize
    split_ifs <;> omega
  · rw [hj]
    exact Nat.pow_le_pow_right (by decide) (by omega)

theorem nearestPageSz_eq (h : Store.IsAlignment pgSz) (hb : bytes < 2^64) :
    nearestPageSz pgSz bytes=toSizeT ((bytes+pgSz-1)/pgSz*pgSz) := by
  obtain ⟨k,_,rfl⟩ := h
  have hp := Nat.two_pow_pos k
  have hcut : toSizeT (bytes/2^k*2^k)=bytes/2^k*2^k :=
    Nat.mod_eq_of_lt (Nat.lt_of_le_of_lt (Nat.div_mul_le_self bytes _) hb)
  have hdm := Nat.div_add_mod bytes (2^k)
  rw [Nat.mul_comm] at hdm
  have hlt := Nat.mod_lt bytes hp
  unfold nearestPageSz
  simp only [hcut]
  split_ifs with hc
  · have hk : 2 ≤ 2^k := by
      by_contra hk
      have h1 : 2^k=1 := by omega
      rw [h1] at hc
      omega
    have hcnt : toSizeT (bytes/2^k+1)=bytes/2^k+1 := by
      apply Nat.mod_eq_of_lt
      have := Nat.div_le_div_left hk (show 0 < 2 by decide) (a := bytes)
      omega
    have hq : (bytes+2^k-1)/2^k=bytes/2^k+1 := by
      rw [show bytes+2^k-1=bytes-1+2^k by omega,Nat.add_div_right _ hp]
      congr 1
      apply Nat.div_eq_of_lt_le
      · omega
      · rw [Nat.add_mul,Nat.one_mul]
        omega
    rw [hcnt,hq]
  · have hq : (bytes+2^k-1)/2^k=bytes/2^k := by
      apply Nat.div_eq_of_lt_le
      · omega
      · rw [Nat.add_mul,Nat.one_mul]
        omega
    rw [hq]

/-- More bytes than the whole pages of a `size_t` are rounded to none. -/
theorem rounds_to_zero (h : Store.IsAlignment pgSz) (hb : bytes < 2^64)
    (hw : ¬ (bytes+pgSz-1)/pgSz*pgSz < 2^64) : toSizeT ((bytes+pgSz-1)/pgSz*pgSz)=0 := by
  obtain ⟨k,hk,rfl⟩ := h
  obtain ⟨c,hc⟩ : 2^k ∣ 2^64 := Nat.pow_dvd_pow 2 (by omega)
  have hle := Nat.div_mul_le_self (bytes+2^k-1) (2^k)
  have hp := Nat.two_pow_pos k
  have hq : (bytes+2^k-1)/2^k=c := by
    apply Nat.div_eq_of_lt_le
    · rw [Nat.mul_comm,← hc]
      omega
    · rw [Nat.add_mul,Nat.one_mul,Nat.mul_comm,← hc]
      omega
  rw [hq,Nat.mul_comm,← hc]
  rfl

/-- Where the sums fit, the block is aligned and inside the grant, behind the stored pointer. -/
theorem placed (h : Store.IsAlignment alignment) (hf : size+raise alignment+7 < 2^64)
    (m : Memory) (mem : Nat) :
    alignment ∣ (alignedAlloc m size alignment mem).2 ∧
    mem+pointerSize ≤ (alignedAlloc m size alignment mem).2 ∧
    (alignedAlloc m size alignment mem).2+size ≤ mem+requested size alignment := by
  obtain ⟨hdvd,hlow,_⟩ := raise_bounds h
  have hspace : space size (raise alignment)=size+raise alignment-1 :=
    Nat.mod_eq_of_lt (by omega)
  have hreq : requested size alignment=size+raise alignment+7 := by
    rw [requested,hspace,pointerSize,toSizeT,Nat.mod_eq_of_lt (by omega)]
    omega
  have hoff := Nat.mod_lt (raise alignment-(mem+pointerSize)%raise alignment)
    (show 0 < raise alignment by omega)
  have hfits : (raise alignment-(mem+pointerSize)%raise alignment)%raise alignment+size ≤
      size+raise alignment-1 := by omega
  obtain ⟨hd,hle,hup⟩ := align_dvd (by omega) hfits
  unfold alignedAlloc
  simp only [hspace]
  refine ⟨dvd_trans hdvd hd,hle,?_⟩
  rw [hreq]
  unfold pointerSize at hup ⊢
  omega

/-- Where a sum does not fit, the block ends behind the grant. -/
theorem overrun (h : Store.IsAlignment alignment) (hs : size < 2^64)
    (hb : size < bytes+raise alignment) (hf : ¬ size+raise alignment+7 < 2^64) (m : Memory)
    (mem : Nat) :
    mem+requested size alignment < (alignedAlloc m size alignment mem).2+bytes := by
  obtain ⟨_,hlow,hup⟩ := raise_bounds h
  have hle : mem+8 ≤ (alignedAlloc m size alignment mem).2 := le_align _ size _ _
  unfold requested space toSizeT pointerSize
  by_cases hw : size+raise alignment-1 < 2^64
  · rw [Nat.mod_eq_of_lt hw]
    omega
  · omega

end Sums

namespace Store

variable {s s' : Store} {pgSz bytes size alignment mem : Nat} {b : Block}

/-- The stored pointers are in the grants. -/
theorem Sound.header_eq {m m' : Memory} (h : b.Sound m)
    (heq : ∀ x ∈ b.grant.bytes, x < b.ptr → m' x=m x) : b.Sound m' := by
  refine ⟨h.aligned,h.lower,h.upper,?_⟩
  rw [← h.header]
  have hl := h.lower
  have hu := h.upper
  unfold pointerSize at hl
  unfold Aligned.alignedFree pointerSize
  apply readWord_congr
  intro x h1 h2
  exact heq x ⟨by omega,by omega⟩ (by omega)

theorem Sound.mem_granted (h : s.Sound) (hb : b ∈ s.live) : b.grant ∈ s.granted :=
  h.granted.mem_iff.mpr (List.mem_map_of_mem hb)

/-- A grant has room for the stored pointer. -/
theorem Sound.grant_pos (h : s.Sound) {g : Extent} (hg : g ∈ s.granted) : 8 ≤ g.2 := by
  obtain ⟨b,hb,rfl⟩ := List.mem_map.mp (h.granted.mem_iff.mp hg)
  have hl := (h.blocks b hb).lower
  have hu := (h.blocks b hb).upper
  unfold pointerSize at hl
  omega

theorem Sound.apart (h : s.Sound) {b' : Block} (hb : b ∈ s.live) (hb' : b' ∈ s.live)
    (hne : b ≠ b') : b.grant.Apart b'.grant := by
  have hp : s.live.Pairwise fun x y => x.grant.Apart y.grant :=
    List.pairwise_map.mp ((tiled_perm h.granted).mp h.tiled)
  have : Std.Symm fun x y : Block => x.grant.Apart y.grant := ⟨fun _ _ => Apart.symm⟩
  exact hp.forall hb hb' hne

theorem place_cases (h : s.place bytes size alignment mem=some s') :
    s.Grants (mem,requested size alignment) ∧
    s'=⟨(Aligned.alignedAlloc s.memory size alignment mem).1,
      (mem,requested size alignment) :: s.granted,
      ⟨(Aligned.alignedAlloc s.memory size alignment mem).2,bytes,alignment,
        (mem,requested size alignment)⟩ :: s.live⟩ := by
  unfold place at h
  simp only at h
  split_ifs at h with hg
  exact ⟨hg,(Option.some.inj h).symm⟩

theorem Sound.place (hs : s.Sound) (ha : IsAlignment alignment) (hb : bytes ≤ size)
    (hf : size+raise alignment+7 < 2^64) (h : s.place bytes size alignment mem=some s') :
    s'.Sound := by
  obtain ⟨⟨hpos,hend,hap⟩,rfl⟩ := place_cases h
  obtain ⟨hdvd,hlow,hup⟩ := placed ha hf s.memory mem
  refine ⟨?_,hs.granted.cons _,tiled_cons.mpr ⟨hap,hs.tiled⟩⟩
  intro b hbl
  rcases List.mem_cons.mp hbl with rfl | hbl
  · refine ⟨hdvd,hlow,by simpa using by omega,?_⟩
    exact readWord_writeWord (show mem < 256^8 by simp only at hend; omega)
  · refine Sound.header_eq (hs.blocks b hbl) ?_
    intro x hx _
    apply writeWord_other
    have hn := Set.disjoint_left.mp (hap b.grant (hs.mem_granted hbl)).symm hx
    simp only [mem_bytes,not_and,not_lt] at hn
    unfold pointerSize at hlow ⊢
    change _ < (Aligned.alignedAlloc s.memory size alignment mem).2-8 ∨
      (Aligned.alignedAlloc s.memory size alignment mem).2-8+8 ≤ _
    omega

theorem not_sound_of_place (ha : IsAlignment alignment) (hs : size < 2^64)
    (hb : size < bytes+raise alignment) (hf : ¬ size+raise alignment+7 < 2^64)
    (h : s.place bytes size alignment mem=some s') : ¬ s'.Sound := by
  obtain ⟨_,rfl⟩ := place_cases h
  intro hx
  have hu := (hx.blocks _ List.mem_cons_self).upper
  have := overrun ha hs hb hf s.memory mem
  simp only at hu
  omega

theorem Sound.write (hs : s.Sound) {a : Nat} {v : UInt8}
    (h : ∃ b ∈ s.live, b.ptr ≤ a ∧ a < b.ptr+b.size) :
    Sound { s with memory := s.memory.writeByte a v } := by
  obtain ⟨b,hb,h1,h2⟩ := h
  refine ⟨?_,hs.granted,hs.tiled⟩
  intro b' hb'
  refine Sound.header_eq (hs.blocks b' hb') ?_
  intro x hx hlt
  apply writeByte_other
  rintro rfl
  by_cases he : b=b'
  · subst he
    omega
  · have hl := (hs.blocks b hb).lower
    have hu := (hs.blocks b hb).upper
    exact Set.disjoint_left.mp (hs.apart hb hb' he) ⟨by omega,by omega⟩ hx

/-- `operator delete` gets what `operator new` granted for the block. -/
theorem Sound.free (hs : s.Sound) (hb : b ∈ s.live) :
    next pgSz s (.alignedFree b)=
      some { s with granted := s.granted.erase b.grant, live := s.live.erase b } := by
  have hmem := hs.mem_granted hb
  have hfind : s.granted.find? (fun g => decide (g.1=Aligned.alignedFree s.memory b.ptr))=
      some b.grant := by
    rw [(hs.blocks b hb).header]
    cases hf : s.granted.find? (fun g => decide (g.1=b.grant.1)) with
    | none =>
      have := List.find?_eq_none.mp hf b.grant hmem
      simp at this
    | some g =>
      have hg := List.mem_of_find?_eq_some hf
      have he : g.1=b.grant.1 := by simpa using List.find?_some hf
      by_contra hne
      have hne : g ≠ b.grant := fun heq => hne (congrArg some heq)
      have : Std.Symm Apart := ⟨fun _ _ => Apart.symm⟩
      have hap := apart_iff.mp (hs.tiled.forall hg hmem hne)
      have := hs.grant_pos hg
      have := hs.grant_pos hmem
      omega
  simp only [next,if_pos hb,hfind,Option.map_some]

theorem Sound.erase (hs : s.Sound) (hb : b ∈ s.live) :
    Sound { s with granted := s.granted.erase b.grant, live := s.live.erase b } := by
  have hp : s.granted.Perm (b.grant :: (s.live.erase b).map Block.grant) :=
    hs.granted.trans ((List.perm_cons_erase hb).map Block.grant)
  refine ⟨fun x hx => hs.blocks x (List.mem_of_mem_erase hx),?_,hs.tiled.sublist List.erase_sublist⟩
  simpa using hp.erase b.grant

theorem Sound.next {a : Act} (hs : s.Sound) (hf : a.Fits pgSz) (h : next pgSz s a=some s') :
    s'.Sound := by
  cases a with
  | alignedAlloc size alignment mem =>
    simp only [Store.next] at h
    split_ifs at h with hc
    exact hs.place hc.2 le_rfl hf h
  | allocatePage bytes mem =>
    simp only [Store.next] at h
    split_ifs at h with hc
    have hpage : nearestPageSz pgSz bytes=(bytes+pgSz-1)/pgSz*pgSz := by
      rw [nearestPageSz_eq hc.2 hc.1]
      exact Nat.mod_eq_of_lt (by simp only [Act.Fits] at hf; omega)
    obtain ⟨k,_,hk⟩ := hc.2
    have hp : 0 < pgSz := hk ▸ Nat.two_pow_pos k
    refine hs.place hc.2 ?_ ?_ h
    · have := Nat.lt_div_mul_add hp (a := bytes+pgSz-1)
      omega
    · rw [hpage]
      exact hf
  | write a v =>
    simp only [Store.next] at h
    split_ifs at h with hc
    obtain rfl := Option.some.inj h
    exact hs.write hc
  | alignedFree b =>
    by_cases hb : b ∈ s.live
    · rw [hs.free hb] at h
      obtain rfl := Option.some.inj h
      exact hs.erase hb
    · simp [Store.next,hb] at h

theorem not_sound_of_next {a : Act} (hf : ¬ a.Fits pgSz) (h : Store.next pgSz s a=some s') :
    ¬ s'.Sound := by
  cases a with
  | alignedAlloc size alignment mem =>
    simp only [Store.next] at h
    split_ifs at h with hc
    obtain ⟨_,hlow,_⟩ := raise_bounds hc.2
    exact not_sound_of_place hc.2 hc.1 (by omega) hf h
  | allocatePage bytes mem =>
    simp only [Store.next] at h
    split_ifs at h with hc
    obtain ⟨_,hlow,hup⟩ := raise_bounds hc.2
    have hpage := nearestPageSz_eq hc.2 hc.1
    by_cases hr : (bytes+pgSz-1)/pgSz*pgSz < 2^64
    · rw [toSizeT,Nat.mod_eq_of_lt hr] at hpage
      have hle := Nat.div_mul_le_self (bytes+pgSz-1) pgSz
      have hra : pgSz ≤ raise pgSz := Nat.le_of_dvd (by omega) (raise_bounds hc.2).1
      refine not_sound_of_place hc.2 (by omega) (by omega) ?_ h
      rw [hpage]
      exact hf
    · have hwrap : nearestPageSz pgSz bytes=0 := by
        rw [hpage]
        exact rounds_to_zero hc.2 hc.1 hr
      rw [hwrap] at h
      obtain ⟨_,rfl⟩ := place_cases h
      intro hx
      have hu := (hx.blocks _ List.mem_cons_self).upper
      have hle : mem+8 ≤ (Aligned.alignedAlloc s.memory 0 pgSz mem).2 := le_align _ 0 _ _
      have hle' := Nat.div_mul_le_self (bytes+pgSz-1) pgSz
      have hra : pgSz ≤ raise pgSz := Nat.le_of_dvd (by omega) (raise_bounds hc.2).1
      have hreq : requested 0 pgSz ≤ raise pgSz+7 := by
        unfold requested space toSizeT pointerSize
        omega
      simp only at hu
      omega
  | write a v => exact absurd trivial hf
  | alignedFree b => exact absurd trivial hf

/-- In a run every block stays aligned, large enough and apart from the others, and the pointer
stored before it intact, if and only if no sum in a call exceeds a `size_t`; then `alignedFree`
gives `operator delete` just what was granted for the block. -/
theorem sound_iff_fits {h : List (Store × Act)} (r : (machine pgSz).Run h s) :
    ((∀ t ∈ Machine.visited h s, t.Sound) ↔ ∀ e ∈ h, e.2.Fits pgSz) ∧
    ((∀ e ∈ h, e.2.Fits pgSz) → ∀ b ∈ s.live, (machine pgSz).next s (.alignedFree b)=
      some { s with granted := s.granted.erase b.grant, live := s.live.erase b }) := by
  have h0 : ∀ s, (machine pgSz).start s → s.Sound := by
    rintro s ⟨hg,hl⟩
    exact ⟨by simp [hl],by simp [hg,hl],by simp [hg,Tiled]⟩
  have hs : ∀ s a s', Sound s → a.Fits pgSz → (machine pgSz).next s a=some s' → s'.Sound :=
    fun _ _ _ hi hg hn => hi.next hg hn
  refine ⟨r.always_iff h0 hs (fun _ hi => hi) ?_,?_⟩
  · intro s a s' _ hg hn
    exact not_sound_of_next hg hn
  · intro hg b hb
    have hsound : s.Sound := r.always h0 hs hg s (by simp)
    change next pgSz s (.alignedFree b)=_
    exact hsound.free hb

/-- A block at a multiple of 64, and one of whole pages that is freed after a store. -/
theorem sound_iff_fits_pages : ∃ (h : List (Store × Act)) (s : Store),
    s.live=[⟨1024,24,64,(1000,95)⟩] ∧
    ((∀ t ∈ Machine.visited h s, t.Sound) ↔ ∀ e ∈ h, e.2.Fits 4096) := by
  obtain ⟨s,⟨h,r⟩,hs⟩ := Machine.reachable_of_runFrom (machine 4096) ⟨fun _ => 0,[],[]⟩
    [.alignedAlloc 24 64 1000,.allocatePage 5000 9000,.write 1030 7,
      .alignedFree ⟨12288,5000,4096,(9000,12295)⟩]
    (fun s => s.live=[⟨1024,24,64,(1000,95)⟩]) ⟨rfl,rfl⟩ (by decide +kernel)
  exact ⟨h,s,hs,(sound_iff_fits r).1⟩

end Store

end Allocators.Aligned
