import Allocators.Lib.Extent

/-! Memory cut into blocks of one size: which blocks are free, by index, and which are live, by
address. -/

namespace Lib

/-- `count` blocks of `size` bytes each from `base` on. -/
structure Region where
  base : Nat
  size : Nat
  count : Nat
  deriving DecidableEq, Repr

namespace Region

def extent (r : Region) : Extent := (r.base,r.size*r.count)

def block (r : Region) (i : Nat) : Nat := r.base+i*r.size

def Contains (r : Region) (p : Nat) : Prop := r.base ≤ p ∧ p < r.base+r.size*r.count

/-- The number of the block an address lies in. -/
def index (r : Region) (p : Nat) : Nat := (p-r.base)/r.size

/-- The address starts a block. -/
def HasBlock (r : Region) (p : Nat) : Prop := ∃ i, i < r.count ∧ p=r.block i

instance (r : Region) : DecidablePred r.Contains := fun _ => inferInstanceAs (Decidable (_ ∧ _))

variable {r s : Region} {i j p : Nat}

theorem index_block (h : 0 < r.size) (i : Nat) : r.index (r.block i)=i := by
  simp only [index,block,Nat.add_sub_cancel_left]
  exact Nat.mul_div_left i h

theorem block_injective (h : 0 < r.size) (he : r.block i=r.block j) : i=j := by
  rw [← index_block h i,he,index_block h j]

theorem contains_block (h : 0 < r.size) (hi : i < r.count) : r.Contains (r.block i) := by
  have hm : (i+1)*r.size ≤ r.count*r.size := Nat.mul_le_mul_right _ hi
  rw [Nat.add_mul,Nat.one_mul,Nat.mul_comm r.count] at hm
  simp only [Contains,block]
  omega

theorem HasBlock.contains (h : 0 < r.size) (hp : r.HasBlock p) : r.Contains p := by
  obtain ⟨i,hi,rfl⟩ := hp
  exact contains_block h hi

theorem HasBlock.block_index (h : 0 < r.size) (hp : r.HasBlock p) :
    r.index p < r.count ∧ r.block (r.index p)=p := by
  obtain ⟨i,hi,rfl⟩ := hp
  rw [index_block h]
  exact ⟨hi,rfl⟩

theorem not_contains_of_apart (h : r.extent.Apart s.extent) (hp : r.Contains p) :
    ¬ s.Contains p := by
  intro hq
  exact Set.disjoint_left.mp h (show p ∈ r.extent.bytes from hp) hq

/-- A block lies in its region. -/
theorem block_within (hi : i < r.count) :
    Extent.bytes (r.block i,r.size) ⊆ r.extent.bytes := by
  have hm : (i+1)*r.size ≤ r.count*r.size := Nat.mul_le_mul_right _ hi
  rw [Nat.add_mul,Nat.one_mul,Nat.mul_comm r.count] at hm
  intro b hb
  simp only [Extent.mem_bytes,block,extent] at hb ⊢
  omega

/-- Two blocks of a region have no byte in common. -/
theorem apart_blocks (h : i ≠ j) : Extent.Apart (r.block i,r.size) (r.block j,r.size) := by
  rw [Extent.apart_iff]
  simp only [block]
  rcases Nat.lt_or_gt_of_ne h with hij | hij
  · have hm : (i+1)*r.size ≤ j*r.size := Nat.mul_le_mul_right _ hij
    rw [Nat.add_mul,Nat.one_mul] at hm
    omega
  · have hm : (j+1)*r.size ≤ i*r.size := Nat.mul_le_mul_right _ hij
    rw [Nat.add_mul,Nat.one_mul] at hm
    omega

/-- Different blocks of regions that share no byte share none. -/
theorem tiled_blocks {rs : List Region} {size : Nat} {live : List Nat}
    (ht : Extent.Tiled (rs.map extent)) (hn : live.Nodup)
    (hl : ∀ p ∈ live, ∃ r ∈ rs, r.size=size ∧ r.HasBlock p) :
    Extent.Tiled (live.map fun p => ((p,size) : Extent)) := by
  rw [Extent.Tiled,List.pairwise_map]
  refine hn.imp_of_mem fun {p q} hp hq hne => ?_
  obtain ⟨r,hr,rfl,i,hi,rfl⟩ := hl p hp
  obtain ⟨s,hs,hsize,j,hj,rfl⟩ := hl q hq
  by_cases hrs : r=s
  · subst hrs
    exact apart_blocks fun hij => hne (hij ▸ rfl)
  · have hsym : Std.Symm fun x y : Region => x.extent.Apart y.extent :=
      ⟨fun _ _ => Extent.Apart.symm⟩
    have hap : r.extent.Apart s.extent := (List.pairwise_map.mp ht).forall hr hs hrs
    have hin := block_within hj
    rw [hsize] at hin
    exact ((hap.of_subset (block_within hi)).symm.of_subset hin).symm

end Region

/-- The free indices are, without repetition, those of the blocks that are not live. -/
structure Accounts (r : Region) (free live : List Nat) : Prop where
  nodup : free.Nodup
  mem_iff : ∀ i, i ∈ free ↔ i < r.count ∧ r.block i ∉ live

namespace Accounts

variable {r : Region} {free free' live : List Nat} {i p : Nat}

theorem perm (h : Accounts r free live) (hp : free.Perm free') : Accounts r free' live :=
  ⟨hp.nodup_iff.mp h.nodup,fun i => by rw [← hp.mem_iff,h.mem_iff]⟩

/-- All blocks of memory that holds no live one are free. -/
theorem fresh (hp : (List.range r.count).Perm free) (h : 0 < r.size)
    (hl : ∀ p ∈ live, ¬ r.Contains p) : Accounts r free live := by
  refine ⟨hp.nodup_iff.mp List.nodup_range,?_⟩
  intro i
  rw [← hp.mem_iff,List.mem_range]
  constructor
  · intro hi
    exact ⟨hi,fun hm => hl _ hm (Region.contains_block h hi)⟩
  · exact And.left

theorem lt (h : Accounts r free live) (hi : i ∈ free) : i < r.count := ((h.mem_iff i).mp hi).1

theorem not_live (h : Accounts r free live) (hi : i ∈ free) : r.block i ∉ live :=
  ((h.mem_iff i).mp hi).2

theorem take (h : Accounts r (i :: free) live) (hs : 0 < r.size) :
    Accounts r free (r.block i :: live) := by
  obtain ⟨hi,hn⟩ := List.nodup_cons.mp h.nodup
  refine ⟨hn,?_⟩
  intro j
  have hj := h.mem_iff j
  constructor
  · intro hm
    obtain ⟨hc,hl⟩ := hj.mp (List.mem_cons_of_mem _ hm)
    refine ⟨hc,?_⟩
    intro hm'
    rcases List.mem_cons.mp hm' with he | hm'
    · exact hi (Region.block_injective hs he ▸ hm)
    · exact hl hm'
  · rintro ⟨hc,hl⟩
    have hm := hj.mpr ⟨hc,fun hm => hl (List.mem_cons_of_mem _ hm)⟩
    rcases List.mem_cons.mp hm with rfl | hm
    · exact absurd List.mem_cons_self hl
    · exact hm

theorem give (h : Accounts r free live) (hs : 0 < r.size) (hn : live.Nodup)
    (hi : i < r.count) (hl : r.block i ∈ live) :
    Accounts r (i :: free) (live.erase (r.block i)) := by
  refine ⟨List.nodup_cons.mpr ⟨fun hm => h.not_live hm hl,h.nodup⟩,?_⟩
  intro j
  rw [List.mem_cons,h.mem_iff,hn.mem_erase_iff]
  constructor
  · rintro (rfl | ⟨hc,hm⟩)
    · exact ⟨hi,fun hx => hx.1 rfl⟩
    · exact ⟨hc,fun hx => hm hx.2⟩
  · rintro ⟨hc,hm⟩
    by_cases he : j=i
    · exact .inl he
    · exact .inr ⟨hc,fun hx => hm ⟨fun hb => he (Region.block_injective hs hb),hx⟩⟩

/-- What happens to blocks elsewhere does not matter. -/
theorem congr {live' : List Nat} (h : Accounts r free live)
    (hl : ∀ i < r.count, r.block i ∈ live' ↔ r.block i ∈ live) : Accounts r free live' := by
  refine ⟨h.nodup,?_⟩
  intro i
  rw [h.mem_iff]
  constructor
  · rintro ⟨hi,hm⟩
    exact ⟨hi,fun hx => hm ((hl i hi).mp hx)⟩
  · rintro ⟨hi,hm⟩
    exact ⟨hi,fun hx => hm ((hl i hi).mpr hx)⟩

theorem cons_other (h : Accounts r free live) (hs : 0 < r.size) (hp : ¬ r.Contains p) :
    Accounts r free (p :: live) := by
  refine h.congr ?_
  intro i hi
  have hne : r.block i ≠ p := fun he => hp (he ▸ Region.contains_block hs hi)
  simp [hne]

theorem erase_other (h : Accounts r free live) (hs : 0 < r.size) (hp : ¬ r.Contains p) :
    Accounts r free (live.erase p) := by
  refine h.congr ?_
  intro i hi
  have hne : r.block i ≠ p := fun he => hp (he ▸ Region.contains_block hs hi)
  exact List.mem_erase_of_ne hne

theorem free_subset (h : Accounts r free live) : free ⊆ List.range r.count :=
  fun _ hi => List.mem_range.mpr (h.lt hi)

theorem length_le (h : Accounts r free live) : free.length ≤ r.count := by
  have := h.nodup.length_le_of_subset h.free_subset
  simpa using this

/-- All indices are free exactly when no block is live. -/
theorem length_eq_iff (h : Accounts r free live) :
    free.length=r.count ↔ ∀ i < r.count, r.block i ∉ live := by
  constructor
  · intro he i hi
    have hp : free.Perm (List.range r.count) :=
      (List.subperm_of_subset h.nodup h.free_subset).perm_of_length_le (by simp [he])
    exact h.not_live (hp.mem_iff.mpr (List.mem_range.mpr hi))
  · intro hl
    have hsub : List.range r.count ⊆ free :=
      fun i hi => (h.mem_iff i).mpr ⟨List.mem_range.mp hi,hl i (List.mem_range.mp hi)⟩
    have hle := List.nodup_range.length_le_of_subset hsub
    rw [List.length_range] at hle
    exact le_antisymm h.length_le hle

end Accounts

/-- The weaker count of the same: free indices and live blocks add up to all blocks. -/
structure Tally (r : Region) (free live : List Nat) : Prop where
  lt : ∀ i ∈ free, i < r.count
  sum : free.length+live.countP (fun p => decide (r.Contains p))=r.count

namespace Tally

variable {r : Region} {free free' live : List Nat} {i p : Nat}

theorem perm (h : Tally r free live) (hp : free.Perm free') : Tally r free' live :=
  ⟨fun i hi => h.lt i (hp.mem_iff.mpr hi),hp.length_eq ▸ h.sum⟩

theorem fresh (hlt : ∀ i ∈ free, i < r.count) (hlen : free.length=r.count)
    (hl : ∀ p ∈ live, ¬ r.Contains p) : Tally r free live := by
  refine ⟨hlt,?_⟩
  have h0 : live.countP (fun p => decide (r.Contains p))=0 :=
    List.countP_eq_zero.mpr fun p hp => by simpa using hl p hp
  rw [h0,hlen,Nat.add_zero]

theorem take (h : Tally r (i :: free) live) (hs : 0 < r.size) :
    Tally r free (r.block i :: live) := by
  have hc : r.Contains (r.block i) := Region.contains_block hs (h.lt i (by simp))
  have hsum := h.sum
  refine ⟨fun j hj => h.lt j (List.mem_cons_of_mem _ hj),?_⟩
  rw [List.countP_cons_of_pos (by simpa using hc)]
  simp only [List.length_cons] at hsum
  omega

theorem give (h : Tally r free live) (hi : i < r.count) (hp : p ∈ live) (hc : r.Contains p) :
    Tally r (i :: free) (live.erase p) := by
  have hsum := h.sum
  have hperm := (List.perm_cons_erase hp).countP_eq (fun p => decide (r.Contains p))
  rw [List.countP_cons_of_pos (by simpa using hc)] at hperm
  refine ⟨List.forall_mem_cons.mpr ⟨hi,h.lt⟩,?_⟩
  simp only [List.length_cons]
  omega

theorem cons_other (h : Tally r free live) (hp : ¬ r.Contains p) : Tally r free (p :: live) := by
  refine ⟨h.lt,?_⟩
  rw [List.countP_cons_of_neg (by simpa using hp)]
  exact h.sum

theorem erase_other (h : Tally r free live) (hp : ¬ r.Contains p) :
    Tally r free (live.erase p) := by
  refine ⟨h.lt,?_⟩
  by_cases hm : p ∈ live
  · have hperm := (List.perm_cons_erase hm).countP_eq (fun p => decide (r.Contains p))
    rw [List.countP_cons_of_neg (by simpa using hp)] at hperm
    rw [← hperm]
    exact h.sum
  · rw [List.erase_of_not_mem hm]
    exact h.sum

theorem live_perm {live' : List Nat} (h : Tally r free live) (hp : live.Perm live') :
    Tally r free live' := ⟨h.lt,hp.countP_eq _ ▸ h.sum⟩

/-- All indices are free exactly when no live block lies in the memory. -/
theorem length_eq_iff (h : Tally r free live) :
    free.length=r.count ↔ ∀ p ∈ live, ¬ r.Contains p := by
  have hsum := h.sum
  constructor
  · intro he
    have h0 : live.countP (fun p => decide (r.Contains p))=0 := by omega
    simpa using List.countP_eq_zero.mp h0
  · intro hl
    have h0 : live.countP (fun p => decide (r.Contains p))=0 :=
      List.countP_eq_zero.mpr (by simpa using hl)
    omega

end Tally

end Lib
