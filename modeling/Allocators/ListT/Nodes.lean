import Allocators.ListT.Refinement

/-! Which nodes are allocated, and which of them the lists own. -/

namespace Allocators.ListT

open Function Lib Links Sequence

variable {α : Type}

def sentinels (l : ListT) : Nat × Nat := (l.myHead,l.myEnd)

/-- The nodes keep their data and the lists their sentinels. -/
structure Preserves (m m' : Memory α) : Prop where
  data_eq : m'.dataOf=m.dataOf
  sentinels_eq : ∀ o, (m'.lists o).map sentinels=(m.lists o).map sentinels

namespace Preserves

variable {m m₁ m' : Memory α} {o p n this it : Nat} {l : ListT}

theorem trans (h : Preserves m m₁) (h' : Preserves m₁ m') : Preserves m m' :=
  ⟨h'.data_eq.trans h.data_eq,fun o => (h'.sentinels_eq o).trans (h.sentinels_eq o)⟩

/-- A node is written to, but not its data. -/
theorem update {node node' : Node α} (hn : m.nodes p=some node) (hd : node'.data=node.data) :
    Preserves m { m with nodes := Function.update m.nodes p (some node') } := by
  refine ⟨?_,fun _ => rfl⟩
  funext r
  by_cases hr : r=p
  · simp [Memory.dataOf,hr,hn,hd]
  · simp [Memory.dataOf,hr]

theorem setNext {q : Option Nat} (h : m.setNext p q=some m') : Preserves m m' := by
  obtain ⟨node,hn,rfl⟩ := Option.map_eq_some_iff.mp h
  exact update hn rfl

theorem setPrev {q : Option Nat} (h : m.setPrev p q=some m') : Preserves m m' := by
  obtain ⟨node,hn,rfl⟩ := Option.map_eq_some_iff.mp h
  exact update hn rfl

theorem setSize {f : Nat → Nat} (h : m.setSize this f=some m') : Preserves m m' := by
  obtain ⟨l,hl,rfl⟩ := Option.map_eq_some_iff.mp h
  refine ⟨rfl,?_⟩
  intro o
  by_cases ho : o=this
  · simp [ho,hl,sentinels]
  · simp [ho]

theorem insertAt (h : m.insertAt this n it=some m') : Preserves m m' := by
  simp only [Memory.insertAt,Option.bind_eq_bind,Option.bind_eq_some_iff] at h
  obtain ⟨_,_,_,_,m₁,h1,m₂,h2,m₃,h3,m₄,h4,h5⟩ := h
  exact ((((setNext h1).trans (setNext h2)).trans (setPrev h3)).trans (setPrev h4)).trans
    (setSize h5)

theorem unlink (h : m.unlink p=some m') : Preserves m m' := by
  simp only [Memory.unlink,Option.bind_eq_bind,Option.bind_eq_some_iff] at h
  obtain ⟨_,_,_,_,m₁,h1,_,_,_,_,h2⟩ := h
  exact (setNext h1).trans (setPrev h2)

theorem splice {pos other : Nat} (h : m.splice this pos other it=some m') : Preserves m m' := by
  simp only [Memory.splice,Option.bind_eq_bind,Option.bind_eq_some_iff] at h
  obtain ⟨m₁,h1,m₂,h2,h3⟩ := h
  exact ((unlink h1).trans (setSize h2)).trans (insertAt h3)

/-- A list is where it was, with the same sentinels. -/
theorem exists_list (h : Preserves m m') (hl : m.lists o=some l) :
    ∃ l', m'.lists o=some l' ∧ sentinels l'=sentinels l := by
  have he := h.sentinels_eq o
  rw [hl,Option.map_some] at he
  exact Option.map_eq_some_iff.mp he

end Preserves

theorem chain_congr {l l' : ListT} (h : sentinels l'=sentinels l) (s : List (Nat × α)) :
    chain l' s=chain l s := by
  obtain ⟨h1,h2⟩ := Prod.mk.inj h
  rw [chain,chain,h1,h2]

/-- Some list has the node. -/
def Owned (lists : Nat → Option ListT) (seqs : Nat → List (Nat × α)) (p : Nat) : Prop :=
  ∃ o, p ∈ owned lists seqs o

theorem mem_chain {l : ListT} {s : List (Nat × α)} {p : Nat} :
    p ∈ chain l s ↔ p=l.myHead ∨ p=l.myEnd ∨ p ∈ names s := by
  rw [chain,List.mem_cons,List.mem_append,List.mem_singleton,or_comm (a := p ∈ names s)]

section Owned

variable {lists lists' : Nat → Option ListT} {seqs : Nat → List (Nat × α)} {this p k : Nat}
  {l : ListT} {e : Nat × α}

theorem owned_congr (h : ∀ o, (lists' o).map sentinels=(lists o).map sentinels) (o : Nat) :
    owned lists' seqs o=owned lists seqs o := by
  have ho := h o
  cases hl : lists o with
  | none =>
    rw [hl,Option.map_none,Option.map_eq_none_iff] at ho
    rw [owned,owned,hl,ho]
  | some l =>
    rw [hl,Option.map_some] at ho
    obtain ⟨l',hl',hs⟩ := Option.map_eq_some_iff.mp ho
    rw [owned_eq hl,owned_eq hl',chain_congr hs]

theorem Owned.congr (h : ∀ o, (lists' o).map sentinels=(lists o).map sentinels) :
    Owned lists' seqs p ↔ Owned lists seqs p := by
  simp only [Owned,owned_congr h]

/-- One list and the others. -/
theorem owned_update_iff (hl : lists this=some l) (s : List (Nat × α)) :
    Owned lists (update seqs this s) p ↔
      p ∈ chain l s ∨ ∃ o, o ≠ this ∧ p ∈ owned lists seqs o := by
  have hthis : owned lists (update seqs this s) this=chain l s := by
    rw [owned_eq hl,update_self]
  have hother : ∀ o, o ≠ this → owned lists (update seqs this s) o=owned lists seqs o := by
    intro o ho
    simp only [owned,update_of_ne ho]
  constructor
  · rintro ⟨o,ho⟩
    by_cases hot : o=this
    · exact .inl (hthis ▸ hot ▸ ho)
    · exact .inr ⟨o,hot,hother o hot ▸ ho⟩
  · rintro (hp | ⟨o,hot,hp⟩)
    · exact ⟨this,hthis ▸ hp⟩
    · exact ⟨o,hother o hot ▸ hp⟩

theorem owned_iff (hl : lists this=some l) : Owned lists seqs p ↔
    p ∈ chain l (seqs this) ∨ ∃ o, o ≠ this ∧ p ∈ owned lists seqs o := by
  rw [← owned_update_iff hl (seqs this),update_eq_self]

theorem owned_new_iff (hl : lists this=none) (l : ListT) (s : List (Nat × α)) :
    Owned (update lists this (some l)) (update seqs this s) p ↔
      p ∈ chain l s ∨ Owned lists seqs p := by
  rw [owned_update_iff (update_self ..)]
  apply or_congr_right
  constructor
  · rintro ⟨o,ho,hp⟩
    rw [owned,update_of_ne ho] at hp
    exact ⟨o,hp⟩
  · rintro ⟨o,hp⟩
    have ho : o ≠ this := by
      rintro rfl
      simp [owned,hl] at hp
    refine ⟨o,ho,?_⟩
    rw [owned,update_of_ne ho]
    exact hp

theorem owned_move {other : Nat} (lists : Nat → Option ListT) (seqs : Nat → List (Nat × α))
    (o : Nat) : owned (update (update lists this (lists other)) other none)
      (update (update seqs this (seqs other)) other []) o=
      if o=other then [] else if o=this then owned lists seqs other else owned lists seqs o := by
  rw [owned]
  split_ifs with h1 h2
  · rw [h1,update_self]
  · rw [update_of_ne h1,update_of_ne h1,h2,update_self,update_self]
    rfl
  · rw [update_of_ne h1,update_of_ne h1,update_of_ne h2,update_of_ne h2]
    rfl

theorem owned_insert (hl : lists this=some l) :
    Owned lists (update seqs this (insertBefore k e (seqs this))) p ↔
      p=e.1 ∨ Owned lists seqs p := by
  have hmem : p ∈ names (insertBefore k e (seqs this)) ↔ p=e.1 ∨ p ∈ names (seqs this) := by
    rw [names,((insertBefore_perm k e (seqs this)).map Prod.fst).mem_iff]
    exact List.mem_cons
  rw [owned_update_iff hl,owned_iff hl,mem_chain,mem_chain,hmem]
  tauto

end Owned

namespace Represents

variable {m m' : Memory α} {seqs : Nat → List (Nat × α)} {this other p k : Nat} {l : ListT}
  {s : List (Nat × α)} {dels : List Nat}

/-- No other list has what a list gives up. -/
theorem owned_shrink (h : Represents m seqs) (hl : m.lists this=some l)
    (hsub : ∀ p ∈ dels, p ∈ chain l (seqs this))
    (hmem : p ∈ chain l s ↔ p ∈ chain l (seqs this) ∧ p ∉ dels) :
    Owned m.lists (update seqs this s) p ↔ Owned m.lists seqs p ∧ p ∉ dels := by
  have hother : (∃ o, o ≠ this ∧ p ∈ owned m.lists seqs o) → p ∉ dels := by
    rintro ⟨o,ho,hp⟩ hd
    exact h.apart o this ho hp (owned_eq hl ▸ hsub p hd)
  rw [owned_update_iff hl,owned_iff hl,hmem,or_and_right]
  exact or_congr_right ⟨fun ho => ⟨ho,hother ho⟩,And.left⟩

theorem owned_remove (h : Represents m seqs) (hl : m.lists this=some l)
    (hk : k ∈ names (seqs this)) : Owned m.lists (update seqs this (remove k (seqs this))) p ↔
      Owned m.lists seqs p ∧ p ≠ k := by
  obtain ⟨lo,v,hi,hs⟩ := exists_mid hk
  have hnd := (h.held this l hl).nodup
  rw [hs,chain,names_append,names_cons] at hnd
  have hlo : k ∉ names lo := by grind
  have hmem : p ∈ chain l (remove k (seqs this)) ↔ p ∈ chain l (seqs this) ∧ p ∉ [k] := by
    rw [hs,remove_mid v hlo,mem_chain,mem_chain,names_append,names_append,names_cons]
    grind
  rw [h.owned_shrink hl (fun q hq => mem_chain.mpr (by grind)) hmem,List.mem_singleton]

theorem owned_clear (h : Represents m seqs) (hl : m.lists this=some l) :
    Owned m.lists (update seqs this []) p ↔
      Owned m.lists seqs p ∧ p ∉ names (seqs this) := by
  have hnd := (h.held this l hl).nodup
  rw [chain] at hnd
  have hmem : p ∈ chain l ([] : List (Nat × α)) ↔ p ∈ chain l (seqs this) ∧ p ∉ names (seqs this) := by
    rw [mem_chain,mem_chain,names_nil]
    grind
  exact h.owned_shrink hl (fun q hq => mem_chain.mpr (.inr (.inr hq))) hmem

end Represents

theorem loose_iff {m : Memory α} {seqs : Nat → List (Nat × α)} {p : Nat} :
    Loose m seqs p ↔ (m.dataOf p).isSome ∧ ¬ Owned m.lists seqs p :=
  and_congr_right fun _ => not_exists.symm

theorem Preserves.loose_iff {m m' : Memory α} {seqs : Nat → List (Nat × α)} {p : Nat}
    (h : Preserves m m') : Loose m' seqs p ↔ (m.dataOf p).isSome ∧ ¬ Owned m.lists seqs p := by
  rw [ListT.loose_iff,h.data_eq,Owned.congr h.sentinels_eq]

theorem constructNode_allocated {m : Memory α} {n p : Nat} (v : α) :
    ((m.constructNode n v).dataOf p).isSome ↔ p=n ∨ (m.dataOf p).isSome := by
  by_cases hp : p=n
  · simp [Memory.constructNode,Memory.dataOf,hp]
  · simp [Memory.constructNode,Memory.dataOf,hp]

namespace Represents

variable {m m' : Memory α} {seqs : Nat → List (Nat × α)} {this other p n it : Nat} {l : ListT}
  {v : α}

theorem emplace_loose (hl : m.lists this=some l) (hn : m.nodes n=none)
    (hm : m.emplace this it n v=some m') :
    Loose m' (update seqs this (insertBefore it (n,v) (seqs this))) p ↔ Loose m seqs p := by
  have hlists : (m.constructNode n v).lists=m.lists := rfl
  have hnew : p=n → ¬ (m.dataOf p).isSome := by
    rintro rfl
    simp [Memory.dataOf,hn]
  rw [(Preserves.insertAt hm).loose_iff,loose_iff,constructNode_allocated,hlists,owned_insert hl]
  tauto

theorem clear_loose (h : Represents m seqs) (hl : m.lists this=some l)
    (hm : m.clear this=some m') : Loose m' (update seqs this []) p ↔ Loose m seqs p := by
  have hold := h.held this l hl
  have he : l.myEnd ∈ chain l (seqs this) := mem_chain.mpr (.inr (.inl rfl))
  obtain ⟨m₁,m₂,h1,hgone,hrest,hb⟩ := Memory.clear_spec hl
    ((length_names _).trans hold.size.symm) hold.linked hold.nodup (hold.allocated he)
  obtain rfl : m'=m₂ := Option.some.inj (hm.symm.trans h1)
  have hsent : ∀ o, (m'.lists o).map sentinels=(m.lists o).map sentinels := by
    intro o
    rw [hb.lists_eq]
    by_cases ho : o=this
    · simp [ho,hl,sentinels]
    · simp [ho]
  have hdata : (m'.dataOf p).isSome ↔ (m.dataOf p).isSome ∧ p ∉ names (seqs this) := by
    rw [hb.data_eq,Memory.dataOf,Memory.dataOf]
    by_cases hp : p ∈ names (seqs this)
    · simp [hgone p hp,hp]
    · simp [hrest p hp,hp]
  have hown : p ∈ names (seqs this) → Owned m.lists seqs p :=
    fun hp => ⟨this,owned_eq hl ▸ mem_chain.mpr (.inr (.inr hp))⟩
  rw [loose_iff,loose_iff,hdata,Owned.congr hsent,h.owned_clear hl]
  tauto

theorem splice_loose {l₂ : ListT} (h : Represents m seqs) (hl : m.lists this=some l)
    (hl₂ : m.lists other=some l₂) (hn : n ∈ names (seqs other)) {pos : Nat}
    (hm : m.splice this pos other n=some m') :
    Loose m' ((Op.splice this pos other n).apply seqs) p ↔ Loose m seqs p := by
  obtain ⟨v,hv⟩ := lookup_of_mem hn
  have hown : p=n → Owned m.lists seqs p := by
    rintro rfl
    exact ⟨other,owned_eq hl₂ ▸ mem_chain.mpr (.inr (.inr hn))⟩
  simp only [Op.apply,hv]
  rw [(Preserves.splice hm).loose_iff,loose_iff,owned_insert hl,h.owned_remove hl₂ hn]
  tauto

theorem construct_loose [Inhabited α] {myHead myEnd : Nat} (hnone : m.lists this=none)
    (hhead : m.nodes myHead=none) (hend : m.nodes myEnd=none)
    (hm : m.construct this myHead myEnd=some m') :
    Loose m' (update seqs this []) p ↔ Loose m seqs p := by
  simp only [Memory.construct,Option.bind_eq_bind,Option.bind_eq_some_iff] at hm
  obtain ⟨m₁,h1,m₂,h2,m₃,h3,h4⟩ := hm
  have hpres := (((Preserves.setNext h1).trans (Preserves.setPrev h2)).trans
    (Preserves.setNext h3)).trans (Preserves.setPrev h4)
  have hnew : p=myHead ∨ p=myEnd → ¬ (m.dataOf p).isSome := by
    rintro (rfl | rfl)
    · simp [Memory.dataOf,hhead]
    · simp [Memory.dataOf,hend]
  have hdata : (m'.dataOf p).isSome ↔ p=myEnd ∨ p=myHead ∨ (m.dataOf p).isSome := by
    rw [hpres.data_eq]
    exact (constructNode_allocated default).trans (or_congr_right (constructNode_allocated default))
  have howned : Owned m'.lists (update seqs this []) p ↔
      (p=myHead ∨ p=myEnd) ∨ Owned m.lists seqs p := by
    rw [Owned.congr hpres.sentinels_eq]
    refine (owned_new_iff hnone ⟨myHead,myEnd,0⟩ []).trans (or_congr_left ?_)
    rw [mem_chain,names_nil]
    simp
  rw [loose_iff,loose_iff,hdata,howned]
  tauto

/-- No call on elements loses a node. -/
theorem run_loose [Inhabited α] {w : World α} (h : Represents w.memory w.seqs) {op : Op α}
    (hv : w.Valid op) (hm : op.run w.memory=some m') :
    Loose m' (op.apply w.seqs) p ↔ Loose w.memory w.seqs p := by
  cases op with
  | construct this myHead myEnd =>
    obtain ⟨hc,⟨hhead,_⟩,⟨hend,_⟩,_⟩ := hv
    have hnone : w.memory.lists this=none := by simpa [World.Constructed] using hc
    exact construct_loose hnone hhead hend hm
  | emplace this it n data =>
    obtain ⟨⟨l,hl,_⟩,hn,_⟩ := hv
    exact emplace_loose hl hn hm
  | emplaceBack this n data =>
    obtain ⟨hc,hn,_⟩ := hv
    obtain ⟨l,hl⟩ := Option.isSome_iff_exists.mp hc
    have hm : w.memory.emplace this l.myEnd n data=some m' := Memory.emplaceBack_eq hl ▸ hm
    have hend : insertBefore l.myEnd (n,data) (w.seqs this)=w.seqs this ++ [(n,data)] :=
      (h.held this l hl).insertBefore_end _
    rw [Op.apply,← hend]
    exact emplace_loose hl hn hm
  | erase this pos => exact (Op.returns_of_run hm).elim
  | clear this =>
    obtain ⟨l,hl⟩ := Option.isSome_iff_exists.mp hv
    exact h.clear_loose hl hm
  | splice this pos other it =>
    obtain ⟨⟨l,hl,_⟩,hc,hit,_⟩ := hv
    obtain ⟨l₂,hl₂⟩ := Option.isSome_iff_exists.mp hc
    exact h.splice_loose hl hl₂ hit hm

/-- Lists share no node. -/
theorem owned_others_iff (h : Represents m seqs) : (∃ o, o ≠ this ∧ p ∈ owned m.lists seqs o) ↔
    Owned m.lists seqs p ∧ p ∉ owned m.lists seqs this := by
  constructor
  · rintro ⟨o,hot,ho⟩
    exact ⟨⟨o,ho⟩,fun hp => h.apart o this hot ho hp⟩
  · rintro ⟨⟨o,ho⟩,hp⟩
    refine ⟨o,?_,ho⟩
    rintro rfl
    exact hp ho

/-- The list at `this` is no more. -/
theorem forget (h : Represents m seqs) (hlists : m'.lists=update m.lists this none)
    (hsame : ∀ o, o ≠ this → ∀ p ∈ owned m.lists seqs o, m'.nodes p=m.nodes p)
    (hb : ∀ p, (m'.dataOf p).isSome → 0 < p ∧ p < 2^64) : Represents m' (update seqs this []) := by
  have hthis : owned m'.lists (update seqs this []) this=[] := by
    rw [owned,hlists,update_self]
  have hother : ∀ o, o ≠ this → owned m'.lists (update seqs this []) o=owned m.lists seqs o := by
    intro o ho
    rw [hlists,owned_update_ne _ _ ho]
  refine ⟨?_,?_,hb⟩
  · intro o l hl
    have ho : o ≠ this := by
      rintro rfl
      rw [hlists,update_self] at hl
      cases hl
    rw [hlists,update_of_ne ho] at hl
    rw [update_of_ne ho]
    exact (h.held o l hl).congr fun p hp => hsame o ho p (owned_eq hl ▸ hp)
  · intro o o' hne
    by_cases ho : o=this
    · rw [ho,hthis]
      exact List.disjoint_nil_left _
    · by_cases ho' : o'=this
      · rw [ho',hthis]
        exact List.disjoint_nil_right _
      · rw [hother o ho,hother o' ho']
        exact h.apart o o' hne

/-- The destructor of a list: its nodes are deleted. -/
theorem destroy (h : Represents m seqs) (hlists : m'.lists=update m.lists this none)
    (hgone : ∀ p ∈ owned m.lists seqs this, m'.nodes p=none)
    (hrest : ∀ p ∉ owned m.lists seqs this, m'.nodes p=m.nodes p) :
    Represents m' (update seqs this []) ∧
      ∀ p, Loose m' (update seqs this []) p ↔ Loose m seqs p := by
  have hdata : ∀ p, (m'.dataOf p).isSome ↔
      (m.dataOf p).isSome ∧ p ∉ owned m.lists seqs this := by
    intro p
    by_cases hp : p ∈ owned m.lists seqs this
    · simp [Memory.dataOf,hgone p hp,hp]
    · simp [Memory.dataOf,hrest p hp,hp]
  refine ⟨h.forget hlists ?_ fun p hp => h.bounded p ((hdata p).mp hp).1,?_⟩
  · exact fun o ho p hp => hrest p fun hx => h.apart o this ho hp hx
  · intro p
    have hown : Owned m'.lists (update seqs this []) p ↔
        ∃ o, o ≠ this ∧ p ∈ owned m.lists seqs o := by
      apply exists_congr
      intro o
      by_cases ho : o=this
      · simp [ho,owned,hlists]
      · rw [hlists,owned_update_ne _ _ ho]
        exact (and_iff_right ho).symm
    have hmine : p ∈ owned m.lists seqs this → Owned m.lists seqs p := fun hp => ⟨this,hp⟩
    rw [ListT.loose_iff,ListT.loose_iff,hdata,hown,h.owned_others_iff]
    tauto

/-- All nodes of `other` go to `this`. -/
theorem move (h : Represents m seqs) (hne : this ≠ other) (hnodes : m'.nodes=m.nodes)
    (hlists : m'.lists=update (update m.lists this (m.lists other)) other none) :
    Represents m' (update (update seqs this (seqs other)) other []) := by
  refine ⟨?_,?_,?_⟩
  · intro o l hl
    have ho : o ≠ other := by
      rintro rfl
      rw [hlists,update_self] at hl
      cases hl
    rw [hlists,update_of_ne ho] at hl
    rw [update_of_ne ho]
    by_cases hot : o=this
    · rw [hot,update_self] at hl ⊢
      exact (h.held other l hl).congr fun p _ => congrFun hnodes p
    · rw [update_of_ne hot] at hl ⊢
      exact (h.held o l hl).congr fun p _ => congrFun hnodes p
  · intro o o' hoo
    rw [hlists,owned_move,owned_move]
    split_ifs
    all_goals first
      | exact List.disjoint_nil_left _
      | exact List.disjoint_nil_right _
      | exact h.apart _ _ (by grind)
  · intro p hp
    rw [Memory.dataOf,hnodes] at hp
    exact h.bounded p hp

/-- What `this` had is lost. -/
theorem move_loose (h : Represents m seqs) (hne : this ≠ other) (hnodes : m'.nodes=m.nodes)
    (hlists : m'.lists=update (update m.lists this (m.lists other)) other none) :
    Loose m' (update (update seqs this (seqs other)) other []) p ↔
      Loose m seqs p ∨ p ∈ owned m.lists seqs this := by
  have hdata : m'.dataOf p=m.dataOf p := by
    rw [Memory.dataOf,Memory.dataOf,hnodes]
  have hown : Owned m'.lists (update (update seqs this (seqs other)) other []) p ↔
      ∃ o, o ≠ this ∧ p ∈ owned m.lists seqs o := by
    constructor
    · rintro ⟨o,ho⟩
      rw [hlists,owned_move] at ho
      split_ifs at ho with h1 h2
      · cases ho
      · exact ⟨other,Ne.symm hne,ho⟩
      · exact ⟨o,h2,ho⟩
    · rintro ⟨o,hot,ho⟩
      by_cases h1 : o=other
      · refine ⟨this,?_⟩
        rw [hlists,owned_move,if_neg hne,if_pos rfl]
        exact h1 ▸ ho
      · refine ⟨o,?_⟩
        rw [hlists,owned_move,if_neg h1,if_neg hot]
        exact ho
  have halloc : p ∈ owned m.lists seqs this → (m.dataOf p).isSome := h.allocated
  have hmine : p ∈ owned m.lists seqs this → Owned m.lists seqs p := fun hp => ⟨this,hp⟩
  rw [ListT.loose_iff,ListT.loose_iff,hdata,hown,h.owned_others_iff]
  tauto

end Represents

end Allocators.ListT
