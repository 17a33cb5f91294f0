import Allocators.SlabMulti.Rows

/-! What `allocate` and the two halves of `deallocate` do to the rows of a cache. -/

namespace Allocators.SlabMulti

open Lib Vector Extent

/-- The dispatcher as one cache sees it: the index list of its size and the next block. -/
structure Supply where
  indices : List Nat
  mem : Nat

instance : Dispatch Supply where
  getIndicies d _ := some d.indices
  getBlock d := (some d.mem,d)

/-- The memory of the slabs lies apart from a block. -/
def Cache.Fresh (c : Cache) (mem : Nat) : Prop :=
  ∀ p ∈ c.ptrs, Extent.Apart (mem,c.blockSize*c.count) (p,c.blockSize*c.count)

instance (c : Cache) (mem : Nat) : Decidable (c.Fresh mem) :=
  inferInstanceAs (Decidable (∀ p ∈ c.ptrs, _))

/-- The active slab has an index to hand out. -/
def Cache.CanServe (c : Cache) : Prop :=
  ∃ slab, c.slabs[c.actBlock]?=some slab ∧ slab.availible ≠ []

instance (c : Cache) : Decidable c.CanServe :=
  decidable_of_iff ((c.slabs[c.actBlock]?.any fun slab => !slab.availible.isEmpty)=true) (by
    simp [Cache.CanServe,Option.any_eq_true])

/-- The next `allocate` takes the last free index of the slab in front and adds a slab. -/
def Cache.Grows (c : Cache) : Prop :=
  c.actBlock=0 ∧ ∃ slab, c.slabs[c.actBlock]?=some slab ∧ slab.availible.length=1 ∧
    slab.foreigns=[]

instance (c : Cache) : Decidable c.Grows :=
  decidable_of_iff (c.actBlock=0 ∧ (c.slabs[c.actBlock]?.any fun slab =>
    decide (slab.availible.length=1 ∧ slab.foreigns=[]))=true) (by
      simp [Cache.Grows,Option.any_eq_true])

/-- The four ways through `allocate`. -/
inductive Served (s : Shelf) (d : Supply) : Shelf → Nat → Prop
  | stay {lo hi r availible idx} : s.rows=lo ++ r :: hi → s.act=lo.length →
      r.2.availible=availible ++ [idx] → availible ≠ [] →
      Served s d { s with
        rows := lo ++ (r.1,{ r.2 with availible := availible }) :: hi
        mySize := s.mySize+1 } (r.1+idx*r.2.blockSize)
  | merge {lo hi r idx} : s.rows=lo ++ r :: hi → s.act=lo.length →
      r.2.availible=[idx] → r.2.foreigns ≠ [] →
      Served s d { s with
        rows := lo ++ (r.1,{ r.2 with availible := r.2.foreigns, foreigns := [] }) :: hi
        mySize := s.mySize+1 } (r.1+idx*r.2.blockSize)
  | back {lo hi r idx} : s.rows=lo ++ r :: hi → s.act=lo.length →
      r.2.availible=[idx] → r.2.foreigns=[] → lo ≠ [] →
      Served s d { s with
        rows := lo ++ (r.1,{ r.2 with availible := [] }) :: hi
        act := s.act-1
        mySize := s.mySize+1 } (r.1+idx*r.2.blockSize)
  | grow {hi r idx} : s.rows=r :: hi → s.act=0 → r.2.availible=[idx] → r.2.foreigns=[] →
      Served s d { s with
        rows := (d.mem,⟨s.blockSize,s.count,d.indices,[]⟩) ::
          (hi ++ [(r.1,{ r.2 with availible := [] })])
        mySize := s.mySize+1 } (r.1+idx*r.2.blockSize)

/-- What the exclusive half of `deallocate` does for each decision. -/
inductive Rearranged (s : Shelf) : Decision → Shelf → Prop
  | nothing : Rearranged s .nothing { s with mySize := s.mySize-1 }
  | splice {it} : s.act ≤ it → it < s.rows.length →
      Rearranged s (.splice it) { s with
        rows := moveBefore s.rows s.act it, act := s.act+1, mySize := s.mySize-1 }
  | behind {it} : s.act < it → it < s.rows.length →
      Rearranged s (.toDispatch it) { s with rows := swapPop s.rows it, mySize := s.mySize-1 }
  | front {it} : it < s.act → it < s.rows.length →
      Rearranged s (.toDispatch it) { s with
        rows := s.rows.eraseIdx it, act := s.act-1, mySize := s.mySize-1 }
  | active : s.act < s.rows.length →
      Rearranged s (.toDispatch s.act) { s with
        rows := swapPop s.rows s.act, act := s.rows.length-1-1, mySize := s.mySize-1 }

namespace Shelf

variable {s s' : Shelf}

/-- The active slab decides whether `allocate` is defined. -/
theorem canServe_iff {lo hi : List Row} {r : Row} (h : s.rows=lo ++ r :: hi)
    (ha : s.act=lo.length) : s.cache.CanServe ↔ r.2.availible ≠ [] := by
  simp [Cache.CanServe,active_slab h ha]

theorem exists_active (h : s.act < s.rows.length) :
    ∃ lo r hi, s.rows=lo ++ r :: hi ∧ s.act=lo.length := by
  obtain ⟨lo,hi,he,hl⟩ := eq_mid _ (List.getElem?_eq_getElem h)
  exact ⟨lo,_,hi,he,hl.symm⟩

theorem grows_iff {lo hi : List Row} {r : Row} (h : s.rows=lo ++ r :: hi) (ha : s.act=lo.length) :
    s.cache.Grows ↔ lo=[] ∧ (∃ idx, r.2.availible=[idx]) ∧ r.2.foreigns=[] := by
  have h0 : s.cache.actBlock=0 ↔ lo=[] := by
    rw [show s.cache.actBlock=lo.length from ha,List.length_eq_zero_iff]
  simp only [Cache.Grows,active_slab h ha,Option.some.injEq,exists_eq_left',h0,
    List.length_eq_one_iff]

/-- `allocate` is defined when the active slab can serve and the dispatcher has memory; it goes one
of the four ways. -/
theorem allocate_served {δ : Type} [Dispatch δ] (hact : s.act < s.rows.length)
    (h : s.cache.CanServe) (d : δ) :
    (¬ s.cache.Grows ∧ ∃ s' ptr, s.cache.allocate d=some (d,s'.cache,some ptr) ∧
      ∀ supply, Served s supply s' ptr) ∨
    (s.cache.Grows ∧ ∀ d' availible mem, Dispatch.getIndicies d s.blockSize=some availible →
      Dispatch.getBlock d=(some mem,d') →
      ∃ s' ptr, s.cache.allocate d=some (d',s'.cache,some ptr) ∧
        Served s ⟨availible,mem⟩ s' ptr) := by
  obtain ⟨lo,r,hi,hr,ha⟩ := exists_active hact
  have hne := (canServe_iff hr ha).mp h
  rw [grows_iff hr ha]
  rcases List.eq_nil_or_concat' r.2.availible with hnil | ⟨availible,idx,he⟩
  · exact absurd hnil hne
  · by_cases hav : availible=[]
    · subst hav
      by_cases hf : r.2.foreigns=[]
      · cases lo with
        | nil =>
          right
          refine ⟨⟨rfl,⟨idx,he⟩,hf⟩,?_⟩
          intro d' availible mem hi' hb
          exact ⟨_,_,allocate_grow hr ha he hf hi' hb,.grow hr ha he hf⟩
        | cons x lo =>
          left
          have hlo : x :: lo ≠ [] := List.cons_ne_nil x lo
          refine ⟨fun hx => hlo hx.1,_,_,allocate_back hr ha he hf hlo d,?_⟩
          intro _
          exact .back hr ha he hf hlo
      · left
        refine ⟨fun hx => hf hx.2.2,_,_,allocate_merge hr ha he hf d,?_⟩
        intro _
        exact .merge hr ha he hf
    · left
      refine ⟨fun ⟨_,⟨i,hx⟩,_⟩ => ?_,_,_,allocate_stay hr ha he hav d,?_⟩
      · rw [he] at hx
        have hl := congrArg List.length hx
        simp only [List.length_append,List.length_cons,List.length_nil] at hl
        exact hav (List.length_eq_zero_iff.mp (by omega))
      · intro _
        exact .stay hr ha he hav

theorem allocate_supply (hact : s.act < s.rows.length) (h : s.cache.CanServe) (d : Supply) :
    ∃ s' ptr, s.cache.allocate d=some (d,s'.cache,some ptr) ∧ Served s d s' ptr := by
  rcases allocate_served hact h d with ⟨_,s',ptr,he,hs⟩ | ⟨_,hg⟩
  · exact ⟨s',ptr,he,hs d⟩
  · exact hg d d.indices d.mem rfl rfl

theorem act_lt_of_allocate {δ : Type} [Dispatch δ] {d : δ} (h : s.cache.allocate d ≠ none) :
    s.act < s.rows.length := by
  by_contra hn
  have hnone : s.cache.slabs[s.cache.actBlock]?=none := by
    simpa [cache] using Nat.le_of_not_lt hn
  exact h (by simp only [Cache.allocate,hnone])

theorem canServe_of_allocate {δ : Type} [Dispatch δ] (hact : s.act < s.rows.length) {d : δ}
    (h : s.cache.allocate d ≠ none) : s.cache.CanServe := by
  obtain ⟨lo,r,hi,hr,ha⟩ := exists_active hact
  refine (canServe_iff hr ha).mpr fun he => h ?_
  exact allocate_empty hr ha he d

/-- A call that is defined is served. -/
theorem supply_of_allocate {d : Supply} (h : s.cache.allocate d ≠ none) :
    ∃ s' ptr, s.cache.allocate d=some (d,s'.cache,some ptr) ∧ Served s d s' ptr := by
  have hact := act_lt_of_allocate h
  exact allocate_supply hact (canServe_of_allocate hact h) d

/-- What a call that returned a block did, and what it took from the dispatcher. -/
theorem served_of_allocate {δ : Type} [Dispatch δ] {d d' : δ} {c : Cache} {ptr : Nat}
    {availible : List Nat} (hi : Dispatch.getIndicies d s.blockSize=some availible)
    (h : s.cache.allocate d=some (d',c,some ptr)) :
    ∃ s', c=s'.cache ∧
      ((¬ s.cache.Grows ∧ d'=d ∧ ∀ supply, Served s supply s' ptr) ∨
        (s.cache.Grows ∧ ∃ mem, Dispatch.getBlock d=(some mem,d') ∧
          Served s ⟨availible,mem⟩ s' ptr)) := by
  have hne : s.cache.allocate d ≠ none := by simp [h]
  have hact := act_lt_of_allocate hne
  rcases allocate_served hact (canServe_of_allocate hact hne) d with
    ⟨hg,s',p,he,hs⟩ | ⟨hg,hs⟩
  · obtain ⟨rfl,hx⟩ := Prod.mk.inj (Option.some.inj (he.symm.trans h))
    obtain ⟨rfl,hp⟩ := Prod.mk.inj hx
    obtain rfl := Option.some.inj hp
    exact ⟨s',rfl,.inl ⟨hg,rfl,hs⟩⟩
  · cases hb : Dispatch.getBlock d with
    | mk block d'' =>
      cases block with
      | none =>
        obtain ⟨lo,r,tail,hr,ha⟩ := exists_active hact
        obtain ⟨rfl,⟨idx,he⟩,hf⟩ := (grows_iff hr ha).mp hg
        obtain ⟨c',hx⟩ := allocate_exhausted hr ha he hf hi hb
        rw [hx] at h
        cases h
      | some mem =>
        obtain ⟨s',p,he,hs⟩ := hs d'' availible mem hi hb
        obtain ⟨rfl,hx⟩ := Prod.mk.inj (Option.some.inj (he.symm.trans h))
        obtain ⟨rfl,hp⟩ := Prod.mk.inj hx
        obtain rfl := Option.some.inj hp
        exact ⟨s',rfl,.inr ⟨hg,mem,rfl,hs⟩⟩

/-- The search starts at the active slab. -/
theorem act_lt_of_locate {ptr : Nat} {thisThread : Bool}
    (h : s.cache.locate ptr thisThread ≠ none) : s.act < s.rows.length := by
  by_contra hn
  have hnone : s.cache.ptrs[s.cache.actMem]?=none := by
    simpa [cache] using Nat.le_of_not_lt hn
  have hs : s.cache.search ptr=none := by
    rw [Cache.search]
    cases s.cache.ptrs.length with
    | zero => rfl
    | succ n => simp only [Cache.searchLoop,hnone]
  exact h (by simp only [Cache.locate,hs])

theorem rearrange_defined (hact : s.act < s.rows.length) {decision : Decision}
    (h : decision=.nothing ∨ (∃ it, decision=.splice it ∧ s.act ≤ it ∧ it < s.rows.length) ∨
      ∃ it, decision=.toDispatch it ∧ it < s.rows.length) :
    ∃ s', s.cache.rearrange decision=some s'.cache ∧ Rearranged s decision s' := by
  rcases h with rfl | ⟨it,rfl,hle,hlt⟩ | ⟨it,rfl,hlt⟩
  · exact ⟨_,rearrange_nothing s,.nothing⟩
  · exact ⟨_,rearrange_splice hle hlt,.splice hle hlt⟩
  · rcases Nat.lt_trichotomy it s.act with hi | rfl | hi
    · exact ⟨_,rearrange_front hi hlt,.front hi hlt⟩
    · exact ⟨_,rearrange_active hact,.active hact⟩
    · exact ⟨_,rearrange_behind hi hlt,.behind hi hlt⟩

/-- A rearrangement is defined for the positions of the vectors, a splice from the active block
on. -/
theorem rearranged_of_some {decision : Decision} {c : Cache}
    (h : s.cache.rearrange decision=some c) : ∃ s', c=s'.cache ∧ Rearranged s decision s' := by
  cases decision with
  | nothing =>
    rw [rearrange_nothing] at h
    exact ⟨_,(Option.some.inj h).symm,.nothing⟩
  | splice it =>
    by_cases hlt : it < s.rows.length
    · by_cases hle : s.act ≤ it
      · rw [rearrange_splice hle hlt] at h
        exact ⟨_,(Option.some.inj h).symm,.splice hle hlt⟩
      · rw [rearrange_splice_none (by omega)] at h
        cases h
    · simp [Cache.rearrange,Cache.spliceBoth,cache,hlt] at h
  | toDispatch it =>
    by_cases hlt : it < s.rows.length
    · rcases Nat.lt_trichotomy it s.act with hi | rfl | hi
      · rw [rearrange_front hi hlt] at h
        exact ⟨_,(Option.some.inj h).symm,.front hi hlt⟩
      · rw [rearrange_active hlt] at h
        exact ⟨_,(Option.some.inj h).symm,.active hlt⟩
      · rw [rearrange_behind hi hlt] at h
        exact ⟨_,(Option.some.inj h).symm,.behind hi hlt⟩
    · simp [Cache.rearrange,Cache.memToDispatch,cache,hlt] at h

/-- The decision, by the slab it is about. -/
theorem decision_cases (s : Shelf) (it : Nat) (slab : Slab) :
    (s.cache.decision it slab=.splice it ∧ slab.size ≤ s.count/4 ∧ s.act < it) ∨
    (s.cache.decision it slab=.toDispatch it ∧ slab.availible.length+slab.foreigns.length=slab.count ∧
      1 < s.rows.length ∧ s.count*s.rows.length-s.count < s.mySize ∧
      ¬ (slab.size ≤ s.count/4 ∧ s.act < it)) ∨
    (s.cache.decision it slab=.nothing ∧
      ¬ (slab.size ≤ s.count/4 ∧ s.act < it) ∧
      ¬ (slab.availible.length+slab.foreigns.length=slab.count ∧ 1 < s.rows.length ∧
        s.count*s.rows.length-s.count < s.mySize)) := by
  by_cases h1 : slab.size ≤ s.count/4 ∧ s.act < it
  · refine .inl ⟨?_,h1⟩
    simp [Cache.decision,cache,h1]
  · by_cases h2 : slab.empty ∧ Cache.minSlabs < s.rows.length ∧
        s.count*s.rows.length-s.count < s.mySize
    · refine .inr (.inl ⟨?_,of_decide_eq_true h2.1,h2.2.1,h2.2.2,h1⟩)
      simp only [Cache.decision,cache,List.length_map]
      rw [if_neg h1,if_pos h2]
    · refine .inr (.inr ⟨?_,h1,fun hx => h2 ⟨decide_eq_true hx.1,hx.2⟩⟩)
      simp only [Cache.decision,cache,List.length_map]
      rw [if_neg h1,if_neg h2]

theorem splice_of_decision {it k : Nat} {slab : Slab} (h : s.cache.decision it slab=.splice k) :
    k=it ∧ slab.size ≤ s.count/4 ∧ s.act < it := by
  rcases decision_cases s it slab with ⟨he,hx⟩ | ⟨he,_⟩ | ⟨he,_⟩
  · exact ⟨(Decision.splice.inj (he.symm.trans h)).symm,hx⟩
  · cases he.symm.trans h
  · cases he.symm.trans h

theorem toDispatch_of_decision {it k : Nat} {slab : Slab}
    (h : s.cache.decision it slab=.toDispatch k) :
    k=it ∧ slab.availible.length+slab.foreigns.length=slab.count ∧ 1 < s.rows.length ∧
      s.count*s.rows.length-s.count < s.mySize ∧ ¬ (slab.size ≤ s.count/4 ∧ s.act < it) := by
  rcases decision_cases s it slab with ⟨he,_⟩ | ⟨he,hx⟩ | ⟨he,_⟩
  · cases he.symm.trans h
  · exact ⟨(Decision.toDispatch.inj (he.symm.trans h)).symm,hx⟩
  · cases he.symm.trans h

end Shelf

section Core

variable {s s' : Shelf} {d : Supply} {ptr : Nat} {decision : Decision}

/-- What the four ways through `allocate` have in common: the active row gives one index away. -/
theorem Served.core (h : Served s d s' ptr) :
    s'.count=s.count ∧ s'.blockSize=s.blockSize ∧ s'.mySize=s.mySize+1 ∧
      s'.act < s'.rows.length ∧
      ∃ r r' rest idx, s.rows[s.act]?=some r ∧ s.rows.Perm (r :: rest) ∧ r'.region=r.region ∧
        (idx :: r'.free).Perm r.free ∧ ptr=r.region.block idx ∧
        (s'.rows.Perm (r' :: rest) ∨
          s.cache.Grows ∧ s'.rows.Perm ((d.mem,⟨s.blockSize,s.count,d.indices,[]⟩) :: r' :: rest)) := by
  cases h with
  | @stay lo hi r availible idx hr ha he hne =>
    refine ⟨rfl,rfl,rfl,by simp [ha],r,(r.1,{ r.2 with availible := availible }),lo ++ hi,idx,
      by rw [hr,ha,getElem?_mid],hr ▸ List.perm_middle,rfl,?_,rfl,.inl List.perm_middle⟩
    simp only [Row.free,he,List.append_assoc,List.singleton_append]
    exact List.perm_middle.symm
  | @merge lo hi r idx hr ha he hf =>
    refine ⟨rfl,rfl,rfl,by simp [ha],r,
      (r.1,{ r.2 with availible := r.2.foreigns, foreigns := [] }),lo ++ hi,idx,
      by rw [hr,ha,getElem?_mid],hr ▸ List.perm_middle,rfl,?_,rfl,.inl List.perm_middle⟩
    simp [Row.free,he]
  | @back lo hi r idx hr ha he hf hlo =>
    refine ⟨rfl,rfl,rfl,by simp [ha]; omega,r,(r.1,{ r.2 with availible := [] }),lo ++ hi,idx,
      by rw [hr,ha,getElem?_mid],hr ▸ List.perm_middle,rfl,?_,rfl,.inl List.perm_middle⟩
    simp [Row.free,he,hf]
  | @grow hi r idx hr ha he hf =>
    refine ⟨rfl,rfl,rfl,by simp [ha],r,(r.1,{ r.2 with availible := [] }),hi,idx,
      by rw [hr,ha]; rfl,hr ▸ .refl _,rfl,?_,rfl,.inr ⟨?_,?_⟩⟩
    · simp [Row.free,he,hf]
    · have hr' : s.rows=[] ++ r :: hi := hr
      exact (Shelf.grows_iff hr' ha).mpr ⟨rfl,⟨idx,he⟩,hf⟩
    · exact .cons _ (List.perm_append_singleton _ hi)

theorem Served.length (h : Served s d s' ptr) :
    s.cache.Grows ∧ s'.rows.length=s.rows.length+1 ∨
      ¬ s.cache.Grows ∧ s'.rows.length=s.rows.length := by
  cases h with
  | @stay lo hi r availible idx hr ha he hne =>
    refine .inr ⟨?_,by simp [hr]⟩
    intro hg
    obtain ⟨_,⟨i,hx⟩,_⟩ := (Shelf.grows_iff hr ha).mp hg
    have hl := congrArg List.length (he.symm.trans hx)
    simp only [List.length_append,List.length_cons,List.length_nil] at hl
    exact hne (List.length_eq_zero_iff.mp (by omega))
  | @merge lo hi r idx hr ha he hf =>
    exact .inr ⟨fun hg => hf ((Shelf.grows_iff hr ha).mp hg).2.2,by simp [hr]⟩
  | @back lo hi r idx hr ha he hf hlo =>
    exact .inr ⟨fun hg => hlo ((Shelf.grows_iff hr ha).mp hg).1,by simp [hr]⟩
  | @grow hi r idx hr ha he hf =>
    have hr' : s.rows=[] ++ r :: hi := hr
    exact .inl ⟨(Shelf.grows_iff hr' ha).mpr ⟨rfl,⟨idx,he⟩,hf⟩,by simp [hr]⟩

/-- `allocate` takes no memory away; a new slab brings its own. -/
theorem Served.ptrs_perm (h : Served s d s' ptr) :
    ¬ s.cache.Grows ∧ s'.cache.ptrs.Perm s.cache.ptrs ∨
      s.cache.Grows ∧ s'.cache.ptrs.Perm (d.mem :: s.cache.ptrs) := by
  obtain ⟨_,_,_,_,r,r',rest,idx,_,hp,hr,_,_,hrows⟩ := h.core
  have hfst : r'.1=r.1 := congrArg Region.base hr
  have hold : (s.rows.map Prod.fst).Perm (r'.1 :: rest.map Prod.fst) := by
    rw [hfst]
    exact hp.map Prod.fst
  have hlen := hp.length_eq
  rcases hrows with hrows | ⟨hg,hrows⟩
  · refine .inl ⟨?_,(hrows.map Prod.fst).trans hold.symm⟩
    intro hg
    have hl := hrows.length_eq
    cases h.length with
    | inl hx =>
      simp only [List.length_cons] at hl hlen
      omega
    | inr hx => exact hx.1 hg
  · exact .inr ⟨hg,(hrows.map Prod.fst).trans (hold.symm.cons _)⟩

theorem Rearranged.fields (h : Rearranged s decision s') :
    s'.count=s.count ∧ s'.blockSize=s.blockSize ∧ s'.mySize=s.mySize-1 := by
  cases h <;> exact ⟨rfl,rfl,rfl⟩

/-- Either no row is lost, or the one the decision is about. -/
theorem Rearranged.core (h : Rearranged s decision s') :
    ((∀ it, decision ≠ .toDispatch it) ∧ s'.rows.Perm s.rows) ∨
    ∃ it r, decision=.toDispatch it ∧ s.rows[it]?=some r ∧ (r :: s'.rows).Perm s.rows := by
  cases h with
  | nothing => exact .inl ⟨fun _ => Decision.noConfusion,.refl _⟩
  | splice hle hlt =>
    exact .inl ⟨fun _ => Decision.noConfusion,moveBefore_perm hle (List.getElem?_eq_getElem hlt)⟩
  | @behind it hlt hlen =>
    have hx := List.getElem?_eq_getElem hlen
    exact .inr ⟨it,_,rfl,hx,swapPop_perm hx⟩
  | @front it hlt hlen =>
    obtain ⟨r,hx⟩ : ∃ r, s.rows[it]?=some r := ⟨_,List.getElem?_eq_getElem hlen⟩
    refine .inr ⟨it,r,rfl,hx,?_⟩
    obtain ⟨lo,hi,he,rfl⟩ := eq_mid r hx
    simp only [he,eraseIdx_mid]
    exact List.perm_middle.symm
  | active hlen =>
    have hx := List.getElem?_eq_getElem hlen
    exact .inr ⟨_,_,rfl,hx,swapPop_perm hx⟩

theorem Rearranged.act_lt (h : Rearranged s decision s') (hact : s.act < s.rows.length)
    (hs : ∀ it, decision=.splice it → s.act < it)
    (hd : ∀ it, decision=.toDispatch it → 1 < s.rows.length) : s'.act < s'.rows.length := by
  cases h with
  | nothing => exact hact
  | @splice it hle hlt =>
    have hlen := (moveBefore_perm hle (List.getElem?_eq_getElem hlt)).length_eq
    have := hs it rfl
    simp only [hlen]
    omega
  | @behind it hlt hlen =>
    have hl := length_swapPop (List.getElem?_eq_getElem hlen)
    simp only [hl]
    omega
  | @front it hlt hlen =>
    have hl := List.length_eraseIdx_of_lt hlen
    simp only [hl]
    omega
  | active hlen =>
    have hl := length_swapPop (List.getElem?_eq_getElem hlen)
    have := hd _ rfl
    simp only [hl]
    omega

end Core

end Allocators.SlabMulti
