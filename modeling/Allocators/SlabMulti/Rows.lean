import Allocators.SlabMulti.Shelf

/-! Which blocks are live, as the rows of a cache tell it; the order of the rows does not matter. -/

namespace Allocators.SlabMulti

open Lib Extent

/-- The rows account for all blocks. With more blocks in a slab than an index can tell apart they
still do so by number. -/
structure Sound (count blockSize : Nat) (rows : List Row) (live : List Nat) : Prop where
  pos : 0 < blockSize
  shaped : ∀ r ∈ rows, r.2.blockSize=blockSize ∧ r.2.count=count
  apart : Tiled (rows.map fun r => r.region.extent)
  located : ∀ p ∈ live, ∃ r ∈ rows, r.region.HasBlock p
  tally : ∀ r ∈ rows, Tally r.region r.free live
  balance : live.length+(rows.map fun r => r.free.length).sum=count*rows.length

/-- The same block by block. -/
structure Exact (rows : List Row) (live : List Nat) : Prop where
  nodup : live.Nodup
  accounts : ∀ r ∈ rows, Accounts r.region r.free live

variable {count blockSize : Nat} {rows rows' rest : List Row} {live : List Nat} {r r' : Row}

namespace Sound

theorem size_pos (h : Sound count blockSize rows live) (hr : r ∈ rows) : 0 < r.region.size := by
  rw [show r.region.size=blockSize from (h.shaped r hr).1]
  exact h.pos

theorem count_eq (h : Sound count blockSize rows live) (hr : r ∈ rows) : r.region.count=count :=
  (h.shaped r hr).2

theorem perm (h : Sound count blockSize rows live) (hp : rows.Perm rows') :
    Sound count blockSize rows' live := by
  refine ⟨h.pos,fun r hr => h.shaped r (hp.mem_iff.mpr hr),
    (tiled_perm (hp.map _)).mp h.apart,?_,fun r hr => h.tally r (hp.mem_iff.mpr hr),?_⟩
  · intro p hm
    obtain ⟨r,hr,hb⟩ := h.located p hm
    exact ⟨r,hp.mem_iff.mp hr,hb⟩
  · rw [← hp.length_eq,← (hp.map _).sum_eq]
    exact h.balance

theorem live_perm {live' : List Nat} (h : Sound count blockSize rows live)
    (hp : live.Perm live') : Sound count blockSize rows live' :=
  ⟨h.pos,h.shaped,h.apart,fun p hm => h.located p (hp.mem_iff.mpr hm),
    fun r hr => (h.tally r hr).live_perm hp,hp.length_eq ▸ h.balance⟩

theorem region_eq (h : Sound count blockSize rows live) (hr : r ∈ rows) :
    r.region=⟨r.1,blockSize,count⟩ := by
  obtain ⟨h1,h2⟩ := h.shaped r hr
  rw [Row.region,h1,h2]

/-- No memory has two slabs. -/
theorem nodup_mem (h : Sound count blockSize rows live) (hc : 0 < count) :
    (rows.map Prod.fst).Nodup := by
  have ht := h.apart
  rw [Tiled,List.pairwise_map] at ht
  rw [List.Nodup,List.pairwise_map]
  refine ht.imp_of_mem fun {x y} hx hy hxy he => ?_
  have hx0 : 0 < (Row.region x).count := by
    rw [h.count_eq hx]
    exact hc
  have hcx : (Row.region x).Contains ((Row.region x).block 0) :=
    Region.contains_block (h.size_pos hx) hx0
  have hxy' : Row.region x=Row.region y := by
    rw [h.region_eq hx,h.region_eq hy,he]
  exact Region.not_contains_of_apart hxy hcx (hxy' ▸ hcx)

/-- A pointer into one slab is in no other. -/
theorem not_contains_rest (h : Sound count blockSize (r :: rest) live) {p : Nat}
    (hc : r.region.Contains p) : ∀ t ∈ rest, ¬ t.region.Contains p := by
  intro t ht
  have hd := (tiled_cons.mp h.apart).1
  exact Region.not_contains_of_apart (hd _ (List.mem_map_of_mem ht)) hc

/-- Two positions whose slabs have the same pointer are one. -/
theorem position_unique (h : Sound count blockSize rows live) {i j p : Nat}
    (hi : rows[i]?=some r) (hj : rows[j]?=some r') (hc : r.region.Contains p)
    (hc' : r'.region.Contains p) : i=j := by
  by_contra hne
  obtain ⟨lo,tail,rfl,rfl⟩ := Vector.eq_mid r hi
  have hm := Vector.mem_append_of_getElem? lo tail r hj (Ne.symm hne)
  exact (h.perm List.perm_middle).not_contains_rest hc r' hm hc'

/-- A live pointer into a slab's memory is one of its blocks. -/
theorem hasBlock (h : Sound count blockSize (r :: rest) live) {p : Nat} (hm : p ∈ live)
    (hc : r.region.Contains p) : r.region.HasBlock p := by
  obtain ⟨t,ht,hb⟩ := h.located p hm
  rcases List.mem_cons.mp ht with rfl | ht'
  · exact hb
  · exact absurd (hb.contains (h.size_pos ht)) (h.not_contains_rest hc t ht')

theorem shaped_of_region (h : Sound count blockSize (r :: rest) live)
    (hr : r'.region=r.region) : ∀ t ∈ r' :: rest, t.2.blockSize=blockSize ∧ t.2.count=count := by
  intro t ht
  rcases List.mem_cons.mp ht with rfl | ht
  · have h1 : t.2.blockSize=r.2.blockSize := congrArg Region.size hr
    have h2 : t.2.count=r.2.count := congrArg Region.count hr
    rw [h1,h2]
    exact h.shaped r (by simp)
  · exact h.shaped t (List.mem_cons_of_mem _ ht)

theorem apart_of_region (h : Sound count blockSize (r :: rest) live) (hr : r'.region=r.region) :
    Tiled ((r' :: rest).map fun r => r.region.extent) := by
  have ht := h.apart
  rw [List.map_cons] at ht ⊢
  rw [hr]
  exact ht

theorem located_of_region (h : Sound count blockSize (r :: rest) live) (hr : r'.region=r.region)
    {p : Nat} (hp : p ∈ live) : ∃ t ∈ r' :: rest, t.region.HasBlock p := by
  obtain ⟨t,ht,hb⟩ := h.located p hp
  rcases List.mem_cons.mp ht with rfl | ht
  · exact ⟨r',by simp,by rw [hr]; exact hb⟩
  · exact ⟨t,List.mem_cons_of_mem _ ht,hb⟩

/-- A free index is taken; its block is live. -/
theorem take (h : Sound count blockSize (r :: rest) live) (hr : r'.region=r.region) {idx : Nat}
    (hf : (idx :: r'.free).Perm r.free) :
    Sound count blockSize (r' :: rest) (r.region.block idx :: live) := by
  have hpos := h.size_pos (List.mem_cons_self)
  have htal : Tally r.region (idx :: r'.free) live :=
    (h.tally r (List.mem_cons_self)).perm hf.symm
  have hi : idx < r.region.count := htal.lt idx (List.mem_cons_self)
  have hc := Region.contains_block hpos hi
  refine ⟨h.pos,h.shaped_of_region hr,h.apart_of_region hr,?_,?_,?_⟩
  · intro p hp
    rcases List.mem_cons.mp hp with rfl | hp
    · exact ⟨r',by simp,by rw [hr]; exact ⟨idx,hi,rfl⟩⟩
    · exact h.located_of_region hr hp
  · intro t ht
    rcases List.mem_cons.mp ht with rfl | ht
    · rw [hr]
      exact htal.take hpos
    · exact (h.tally t (List.mem_cons_of_mem _ ht)).cons_other (h.not_contains_rest hc t ht)
  · have hb := h.balance
    have hl := hf.length_eq
    simp only [List.map_cons,List.sum_cons,List.length_cons] at hb hl ⊢
    omega

/-- The index of a live block is free again. -/
theorem give (h : Sound count blockSize (r :: rest) live) (hr : r'.region=r.region) {p : Nat}
    (hm : p ∈ live) (hc : r.region.Contains p)
    (hf : r'.free.Perm (toIndexSizeT (r.region.index p) :: r.free)) :
    Sound count blockSize (r' :: rest) (live.erase p) := by
  have hpos := h.size_pos (List.mem_cons_self)
  have hi := ((h.hasBlock hm hc).block_index hpos).1
  have htal : Tally r.region (toIndexSizeT (r.region.index p) :: r.free) (live.erase p) :=
    (h.tally r (List.mem_cons_self)).give (lt_of_le_of_lt (toIndexSizeT_le _) hi) hm hc
  refine ⟨h.pos,h.shaped_of_region hr,h.apart_of_region hr,?_,?_,?_⟩
  · exact fun q hq => h.located_of_region hr (List.mem_of_mem_erase hq)
  · intro t ht
    rcases List.mem_cons.mp ht with rfl | ht
    · rw [hr]
      exact htal.perm hf.symm
    · exact (h.tally t (List.mem_cons_of_mem _ ht)).erase_other (h.not_contains_rest hc t ht)
  · have hb := h.balance
    have hl := hf.length_eq
    have hlive := List.length_erase_of_mem hm
    have hone : 0 < live.length := List.length_pos_of_mem hm
    simp only [List.map_cons,List.sum_cons,List.length_cons] at hb hl ⊢
    omega

/-- No live block lies in memory apart from all slabs. -/
theorem not_live_of_fresh (h : Sound count blockSize rows live) {x : Region}
    (hx : ∀ t ∈ rows, x.extent.Apart t.region.extent) : ∀ p ∈ live, ¬ x.Contains p := by
  intro p hp hc
  obtain ⟨t,ht,hb⟩ := h.located p hp
  exact Region.not_contains_of_apart (hx t ht) hc (hb.contains (h.size_pos ht))

/-- A slab with all its indices joins. -/
theorem grow (h : Sound count blockSize rows live)
    (hs : r.2.blockSize=blockSize ∧ r.2.count=count)
    (hx : ∀ t ∈ rows, r.region.extent.Apart t.region.extent) (hlt : ∀ i ∈ r.free, i < count)
    (hlen : r.free.length=count) : Sound count blockSize (r :: rows) live := by
  have hc : r.region.count=count := hs.2
  refine ⟨h.pos,?_,?_,?_,?_,?_⟩
  · intro t ht
    rcases List.mem_cons.mp ht with rfl | ht
    · exact hs
    · exact h.shaped t ht
  · refine tiled_cons.mpr ⟨?_,h.apart⟩
    intro e he
    obtain ⟨t,ht,rfl⟩ := List.mem_map.mp he
    exact hx t ht
  · intro p hp
    obtain ⟨t,ht,hb⟩ := h.located p hp
    exact ⟨t,List.mem_cons_of_mem _ ht,hb⟩
  · intro t ht
    rcases List.mem_cons.mp ht with rfl | ht
    · exact .fresh (hc.symm ▸ hlt) (hlen.trans hc.symm) (h.not_live_of_fresh hx)
    · exact h.tally t ht
  · have hb := h.balance
    simp only [List.map_cons,List.sum_cons,List.length_cons,Nat.mul_add,Nat.mul_one]
    omega

/-- The slab holds no live block exactly when its index lists are complete. -/
theorem complete_iff (h : Sound count blockSize (r :: rest) live) :
    r.free.length=count ↔ ∀ p ∈ live, ¬ r.region.Contains p := by
  rw [← (h.tally r (List.mem_cons_self)).length_eq_iff,h.count_eq (List.mem_cons_self)]

/-- A slab without live blocks leaves. -/
theorem remove (h : Sound count blockSize (r :: rest) live) (hlen : r.free.length=count) :
    Sound count blockSize rest live := by
  have hno := h.complete_iff.mp hlen
  refine ⟨h.pos,fun t ht => h.shaped t (List.mem_cons_of_mem _ ht),(tiled_cons.mp h.apart).2,
    ?_,fun t ht => h.tally t (List.mem_cons_of_mem _ ht),?_⟩
  · intro p hp
    obtain ⟨t,ht,hb⟩ := h.located p hp
    rcases List.mem_cons.mp ht with rfl | ht'
    · exact absurd (hb.contains (h.size_pos ht)) (hno p hp)
    · exact ⟨t,ht',hb⟩
  · have hb := h.balance
    simp only [List.map_cons,List.sum_cons,List.length_cons,Nat.mul_add,Nat.mul_one] at hb
    omega

end Sound

namespace Exact

theorem perm (h : Exact rows live) (hp : rows.Perm rows') : Exact rows' live :=
  ⟨h.nodup,fun r hr => h.accounts r (hp.mem_iff.mpr hr)⟩

theorem live_perm {live' : List Nat} (h : Exact rows live) (hp : live.Perm live') :
    Exact rows live' :=
  ⟨hp.nodup_iff.mp h.nodup,fun r hr => (h.accounts r hr).congr fun _ _ => hp.mem_iff.symm⟩

theorem not_live (h : Exact (r :: rest) live) {idx : Nat} (hi : idx ∈ r.free) :
    r.region.block idx ∉ live := (h.accounts r (List.mem_cons_self)).not_live hi

theorem take (h : Exact (r :: rest) live) (hs : Sound count blockSize (r :: rest) live)
    (hr : r'.region=r.region) {idx : Nat} (hf : (idx :: r'.free).Perm r.free) :
    Exact (r' :: rest) (r.region.block idx :: live) := by
  have hpos := hs.size_pos (List.mem_cons_self)
  have hacc : Accounts r.region (idx :: r'.free) live :=
    (h.accounts r (List.mem_cons_self)).perm hf.symm
  have hi := hacc.lt (List.mem_cons_self)
  refine ⟨List.nodup_cons.mpr ⟨hacc.not_live (List.mem_cons_self),h.nodup⟩,?_⟩
  intro t ht
  rcases List.mem_cons.mp ht with rfl | ht
  · rw [hr]
    exact hacc.take hpos
  · refine (h.accounts t (List.mem_cons_of_mem _ ht)).cons_other
      (hs.size_pos (List.mem_cons_of_mem _ ht)) ?_
    exact hs.not_contains_rest (Region.contains_block hpos hi) t ht

theorem give (h : Exact (r :: rest) live) (hs : Sound count blockSize (r :: rest) live)
    (hmax : count ≤ maxSlabBlocks) (hr : r'.region=r.region) {p : Nat} (hm : p ∈ live)
    (hc : r.region.Contains p) (hf : r'.free.Perm (toIndexSizeT (r.region.index p) :: r.free)) :
    Exact (r' :: rest) (live.erase p) := by
  have hpos := hs.size_pos (List.mem_cons_self)
  have hcount := hs.count_eq (List.mem_cons_self)
  obtain ⟨hi,he⟩ := (hs.hasBlock hm hc).block_index hpos
  have hidx : toIndexSizeT (r.region.index p)=r.region.index p :=
    toIndexSizeT_of_lt (lt_of_lt_of_le (hcount ▸ hi) (hmax.trans (by decide)))
  refine ⟨h.nodup.erase p,?_⟩
  intro t ht
  rcases List.mem_cons.mp ht with rfl | ht
  · have hg := (h.accounts r (List.mem_cons_self)).give hpos h.nodup hi (he.symm ▸ hm)
    rw [he,← hidx] at hg
    rw [hr]
    exact hg.perm hf.symm
  · exact (h.accounts t (List.mem_cons_of_mem _ ht)).erase_other
      (hs.size_pos (List.mem_cons_of_mem _ ht)) (hs.not_contains_rest hc t ht)

theorem grow (h : Exact rows live) (hs : Sound count blockSize rows live)
    (hr : r.2.blockSize=blockSize ∧ r.2.count=count)
    (hx : ∀ t ∈ rows, r.region.extent.Apart t.region.extent)
    (hf : (List.range count).Perm r.free) : Exact (r :: rows) live := by
  have hc : r.region.count=count := hr.2
  have hb : r.region.size=blockSize := hr.1
  refine ⟨h.nodup,?_⟩
  intro t ht
  rcases List.mem_cons.mp ht with rfl | ht
  · exact .fresh (hc.symm ▸ hf) (hb.symm ▸ hs.pos) (hs.not_live_of_fresh hx)
  · exact h.accounts t ht

theorem remove (h : Exact (r :: rest) live) : Exact rest live :=
  ⟨h.nodup,fun t ht => h.accounts t (List.mem_cons_of_mem _ ht)⟩

end Exact

end Allocators.SlabMulti
