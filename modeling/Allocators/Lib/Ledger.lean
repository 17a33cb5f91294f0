import Allocators.Lib.Extent

/-! Memory granted in ranges, and the pieces it is cut into. -/

namespace Lib

open Extent

/-- The ranges granted are disjoint and leave the null address out; the pieces are disjoint and
each lies in one of the ranges. -/
structure Ledger (granted pieces : List Extent) : Prop where
  grants : Tiled granted
  nonnull : ∀ g ∈ granted, 0 < g.1
  tiled : Tiled pieces
  within : ∀ p ∈ pieces, 0 < p.2 ∧ ∃ g ∈ granted, p.bytes ⊆ g.bytes

namespace Ledger

variable {granted pieces pieces' cut : List Extent} {e g p : Extent}

theorem nil : Ledger [] [] := ⟨by simp [Tiled],by simp,by simp [Tiled],by simp⟩

theorem perm (h : Ledger granted pieces) (hp : pieces.Perm pieces') : Ledger granted pieces' :=
  ⟨h.grants,h.nonnull,(tiled_perm hp).mp h.tiled,fun p hm => h.within p (hp.mem_iff.mpr hm)⟩

/-- Pieces may be forgotten. -/
theorem sublist (h : Ledger granted pieces) (hs : pieces'.Sublist pieces) :
    Ledger granted pieces' :=
  ⟨h.grants,h.nonnull,h.tiled.sublist hs,fun p hm => h.within p (hs.subset hm)⟩

theorem subperm (h : Ledger granted pieces) (hs : pieces'.Subperm pieces) :
    Ledger granted pieces' := by
  obtain ⟨l,hp,hsub⟩ := hs
  exact (h.sublist hsub).perm hp

theorem base_pos (h : Ledger granted pieces) (hp : p ∈ pieces) : 0 < p.1 := by
  obtain ⟨hpos,g,hg,hsub⟩ := h.within p hp
  have hmem : p.1 ∈ g.bytes := hsub (mem_bytes.mpr ⟨le_rfl,by omega⟩)
  have hge := (mem_bytes.mp hmem).1
  have := h.nonnull g hg
  omega

/-- A range apart from all others is granted, and cut. -/
theorem grant (h : Ledger granted pieces) (hn : 0 < g.1) (hg : ∀ x ∈ granted, g.Apart x)
    (hc : Tiled cut) (hin : ∀ c ∈ cut, 0 < c.2 ∧ c.bytes ⊆ g.bytes) :
    Ledger (g :: granted) (cut ++ pieces) := by
  refine ⟨tiled_cons.mpr ⟨hg,h.grants⟩,?_,tiled_append.mpr ⟨hc,h.tiled,?_⟩,?_⟩
  · intro x hx
    rcases List.mem_cons.mp hx with rfl | hx
    · exact hn
    · exact h.nonnull x hx
  · intro c hcm p hp
    obtain ⟨_,x,hx,hsub⟩ := h.within p hp
    exact ((hg x hx).symm.of_subset hsub).symm.of_subset (hin c hcm).2
  · intro p hp
    rcases List.mem_append.mp hp with hp | hp
    · exact ⟨(hin p hp).1,g,List.mem_cons_self,(hin p hp).2⟩
    · obtain ⟨hpos,x,hx,hsub⟩ := h.within p hp
      exact ⟨hpos,x,List.mem_cons_of_mem _ hx,hsub⟩

/-- A range that is one piece is given back. -/
theorem give (h : Ledger granted (e :: pieces)) : Ledger (granted.erase e) pieces := by
  obtain ⟨hap,ht⟩ := tiled_cons.mp h.tiled
  refine ⟨h.grants.sublist List.erase_sublist,fun g hg => h.nonnull g (List.mem_of_mem_erase hg),
    ht,?_⟩
  intro p hp
  obtain ⟨hpos,g,hg,hsub⟩ := h.within p (List.mem_cons_of_mem _ hp)
  refine ⟨hpos,g,(List.mem_erase_of_ne ?_).mpr hg,hsub⟩
  rintro rfl
  -- the piece would lie in the range and apart from it
  have hmem : p.1 ∈ p.bytes := mem_bytes.mpr ⟨le_rfl,by omega⟩
  exact Set.disjoint_left.mp (hap p hp) (hsub hmem) hmem

end Ledger

end Lib
