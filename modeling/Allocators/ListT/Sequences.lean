import Allocators.ListT.Writes
import Mathlib.Data.List.Perm.Subperm

/-! The sequences that the lists stand for: what each write does to them. -/

namespace Allocators.ListT

open Function Lib Links Sequence

variable {α : Type}

/-- All nodes of a list in their order, with the two sentinels. -/
def chain (l : ListT) (s : List (Nat × α)) : List Nat := l.myHead :: (names s ++ [l.myEnd])

theorem length_chain (l : ListT) (s : List (Nat × α)) : (chain l s).length=s.length+2 := by
  simp [chain,length_names]

/-- The counter is no part of the chain. -/
theorem chain_resize (l : ListT) (k : Nat) (s : List (Nat × α)) :
    chain { l with mySize := k } s=chain l s := rfl

section Split

variable {l : ListT} {lo hi : List (Nat × α)} {pre post : List Nat} {x z : Nat}

/-- Between two parts of the sequence, `x` is the last node of the first and `z` the first one of
the second. -/
structure Split (l : ListT) (lo hi : List (Nat × α)) (pre : List Nat) (x z : Nat)
    (post : List Nat) : Prop where
  before : l.myHead :: names lo=pre ++ [x]
  behind : names hi ++ [l.myEnd]=z :: post

theorem exists_split (l : ListT) (lo hi : List (Nat × α)) :
    ∃ pre x z post, Split l lo hi pre x z post := by
  obtain ⟨z,post,hpost⟩ : ∃ z post, names hi ++ [l.myEnd]=z :: post := by
    cases hi <;> exact ⟨_,_,rfl⟩
  have hpre := List.dropLast_append_getLast (List.cons_ne_nil l.myHead (names lo))
  exact ⟨_,_,z,post,hpre.symm,hpost⟩

theorem Split.chain_eq (h : Split l lo hi pre x z post) :
    chain l (lo ++ hi)=pre ++ x :: z :: post := by
  have hc : chain l (lo ++ hi)=(l.myHead :: names lo) ++ (names hi ++ [l.myEnd]) := by simp [chain]
  rw [hc,h.before,h.behind,List.append_assoc,List.singleton_append]

theorem Split.chain_mid (h : Split l lo hi pre x z post) (n : Nat) (v : α) :
    chain l (lo ++ (n,v) :: hi)=pre ++ x :: n :: z :: post := by
  have hc : chain l (lo ++ (n,v) :: hi)=
      (l.myHead :: names lo) ++ n :: (names hi ++ [l.myEnd]) := by simp [chain]
  rw [hc,h.before,h.behind,List.append_assoc,List.singleton_append]

theorem Split.not_mem (h : Split l lo hi pre x z post) (hnd : (chain l (lo ++ hi)).Nodup) :
    z ∉ names lo := by
  rw [h.chain_eq,List.append_cons,← h.before,List.nodup_append] at hnd
  exact fun hz => hnd.2.2 z (List.mem_cons_of_mem _ hz) z List.mem_cons_self rfl

theorem Split.not_mem_mid (h : Split l lo hi pre x z post) {n : Nat} {v : α}
    (hnd : (chain l (lo ++ (n,v) :: hi)).Nodup) : n ∉ names lo := by
  rw [h.chain_mid,List.append_cons,← h.before,List.nodup_append] at hnd
  exact fun hn => hnd.2.2 n (List.mem_cons_of_mem _ hn) n List.mem_cons_self rfl

end Split

/-- The list `l` has the elements `s`, each one the name of its node and its data. -/
structure Holds (m : Memory α) (l : ListT) (s : List (Nat × α)) : Prop where
  nodup : (chain l s).Nodup
  linked : Linked m.nextOf m.prevOf (chain l s)
  size : l.mySize=s.length
  data : ∀ e ∈ s, m.dataOf e.1=some e.2

namespace Holds

variable {m m' : Memory α} {l : ListT} {s : List (Nat × α)} {p : Nat}

theorem allocated (h : Holds m l s) (hp : p ∈ chain l s) : (m.dataOf p).isSome := by
  rcases h.linked.isSome (by rw [length_chain]; omega) hp with hs | hs
  · obtain ⟨q,hq⟩ := Option.isSome_iff_exists.mp hs
    exact Memory.isSome_of_nextOf hq
  · obtain ⟨q,hq⟩ := Option.isSome_iff_exists.mp hs
    exact Memory.isSome_of_prevOf hq

/-- Only the nodes of a list matter to it. -/
theorem congr (h : Holds m l s) (hm : ∀ p ∈ chain l s, m'.nodes p=m.nodes p) : Holds m' l s := by
  refine ⟨h.nodup,h.linked.congr ?_ ?_,h.size,?_⟩
  · intro p hp
    rw [Memory.nextOf,Memory.nextOf,hm p (List.dropLast_subset _ hp)]
  · intro p hp
    rw [Memory.prevOf,Memory.prevOf,hm p (List.mem_of_mem_tail hp)]
  · intro e he
    have hmem : e.1 ∈ chain l s := by
      have hn : e.1 ∈ names s := List.mem_map_of_mem he
      simp [chain,hn]
    rw [Memory.dataOf,hm e.1 hmem]
    exact h.data e he

/-- A position: the sequence behind it begins with its node. -/
theorem position (h : Holds m l s) (hp : p ∈ names s ++ [l.myEnd]) :
    ∃ lo hi pre x post, s=lo ++ hi ∧ Split l lo hi pre x p post ∧ m.prevOf p=some x := by
  obtain ⟨lo,hi,rest,rfl,hrest⟩ : ∃ lo hi rest, s=lo ++ hi ∧ names hi ++ [l.myEnd]=p :: rest := by
    rcases List.mem_append.mp hp with hp | hp
    · obtain ⟨lo,v,hi,rfl⟩ := exists_mid hp
      exact ⟨lo,(p,v) :: hi,names hi ++ [l.myEnd],rfl,rfl⟩
    · obtain rfl := List.mem_singleton.mp hp
      exact ⟨s,[],[],by simp,rfl⟩
  obtain ⟨pre,x,z,post,hsp⟩ := exists_split l lo hi
  obtain rfl : p=z := (List.cons.inj (hrest.symm.trans hsp.behind)).1
  have hlink := h.linked
  rw [hsp.chain_eq] at hlink
  exact ⟨lo,hi,pre,x,post,rfl,hsp,(linked_mid.mp hlink).2.1.2⟩

/-- An element and its neighbours. -/
theorem around (h : Holds m l s) (hp : p ∈ names s) :
    ∃ lo v hi pre x z post, s=lo ++ (p,v) :: hi ∧ Split l lo hi pre x z post ∧
      m.prevOf p=some x ∧ m.nextOf p=some z := by
  obtain ⟨lo,v,hi,rfl⟩ := exists_mid hp
  obtain ⟨pre,x,z,post,hsp⟩ := exists_split l lo hi
  have hlink := h.linked
  rw [hsp.chain_mid] at hlink
  obtain ⟨_,⟨_,hprev⟩,hlink⟩ := linked_mid.mp hlink
  obtain ⟨⟨hnext,_⟩,_⟩ := List.isChain_cons_cons.mp hlink
  exact ⟨lo,v,hi,pre,x,z,post,rfl,hsp,hprev,hnext⟩

variable {lo hi : List (Nat × α)} {pre post : List Nat} {x z n : Nat} {v : α}
  {lists : Nat → Option ListT} {ps : List Nat}

/-- The list after a node came between `x` and `z`. -/
theorem linkIn (h : Holds m l (lo ++ hi)) (hsp : Split l lo hi pre x z post)
    (hn : n ∉ chain l (lo ++ hi)) (hv : m.dataOf n=some v)
    (hlen : (lo ++ (n,v) :: hi).length < 2^64)
    (hb : Becomes m m' (update (update m.nextOf x (some n)) n (some z))
      (update (update m.prevOf n (some x)) z (some n)) lists ps) :
    Holds m' { l with mySize := toSizeT (l.mySize+1) } (lo ++ (n,v) :: hi) := by
  have hnd := h.nodup
  have hlink := h.linked
  rw [hsp.chain_eq] at hn hnd hlink
  have hnd' : (pre ++ x :: n :: z :: post).Nodup := by
    rw [List.append_cons,List.nodup_middle,← List.append_cons]
    exact List.nodup_cons.mpr ⟨hn,hnd⟩
  refine ⟨?_,?_,?_,?_⟩
  · rw [chain_resize,hsp.chain_mid]
    exact hnd'
  · rw [hb.next_eq,hb.prev_eq,chain_resize,hsp.chain_mid]
    exact hlink.link hnd'
  · have hsize := h.size
    rw [List.length_append] at hsize
    rw [List.length_append,List.length_cons] at hlen ⊢
    change toSizeT (l.mySize+1)=_
    rw [toSizeT,hsize,Nat.mod_eq_of_lt (by omega)]
    omega
  · intro e he
    rw [hb.data_eq]
    rcases List.mem_append.mp he with he | he
    · exact h.data e (List.mem_append_left _ he)
    · rcases List.mem_cons.mp he with rfl | he
      · exact hv
      · exact h.data e (List.mem_append_right _ he)

/-- The list after its node between `x` and `z` left. -/
theorem unlink (h : Holds m l (lo ++ (p,v) :: hi)) (hsp : Split l lo hi pre x z post)
    (hlen : (lo ++ (p,v) :: hi).length < 2^64)
    (hb : Becomes m m' (update m.nextOf x (some z)) (update m.prevOf z (some x)) lists ps) :
    Holds m' { l with mySize := subSizeT l.mySize 1 } (lo ++ hi) ∧ p ∉ chain l (lo ++ hi) := by
  have hnd := h.nodup
  have hlink := h.linked
  rw [hsp.chain_mid] at hnd hlink
  have hmid : p ∉ pre ++ x :: z :: post ∧ (pre ++ x :: z :: post).Nodup := by
    rw [List.append_cons,List.nodup_middle,← List.append_cons] at hnd
    exact List.nodup_cons.mp hnd
  refine ⟨⟨?_,?_,?_,?_⟩,hsp.chain_eq ▸ hmid.1⟩
  · rw [chain_resize,hsp.chain_eq]
    exact hmid.2
  · rw [hb.next_eq,hb.prev_eq,chain_resize,hsp.chain_eq]
    exact hlink.unlink hnd
  · have hsize := h.size
    rw [List.length_append,List.length_cons] at hsize hlen
    change subSizeT l.mySize 1=_
    rw [List.length_append,subSizeT_of_le (by omega) (by omega)]
    omega
  · intro e he
    rw [hb.data_eq]
    apply h.data e
    rcases List.mem_append.mp he with he | he
    · exact List.mem_append_left _ he
    · exact List.mem_append_right _ (List.mem_cons_of_mem _ he)

end Holds

/-- The nodes of the list at `o`. -/
def owned (lists : Nat → Option ListT) (seqs : Nat → List (Nat × α)) (o : Nat) : List Nat :=
  match lists o with
  | some l => chain l (seqs o)
  | none => []

section Owned

variable {lists : Nat → Option ListT} {seqs : Nat → List (Nat × α)} {o this : Nat} {l : ListT}

theorem owned_eq (h : lists o=some l) : owned lists seqs o=chain l (seqs o) := by
  rw [owned,h]

theorem owned_update_ne (l : Option ListT) (s : List (Nat × α)) (h : o ≠ this) :
    owned (update lists this l) (update seqs this s) o=owned lists seqs o := by
  simp only [owned,update_of_ne h]

end Owned

/-- Each list holds its sequence, no node is in two lists, and an address is a `size_t` and not
null. -/
structure Represents (m : Memory α) (seqs : Nat → List (Nat × α)) : Prop where
  held : ∀ o l, m.lists o=some l → Holds m l (seqs o)
  apart : ∀ o o', o ≠ o' → (owned m.lists seqs o).Disjoint (owned m.lists seqs o')
  bounded : ∀ p, (m.dataOf p).isSome → 0 < p ∧ p < 2^64

/-- A node that is in no list. -/
def Loose (m : Memory α) (seqs : Nat → List (Nat × α)) (p : Nat) : Prop :=
  (m.dataOf p).isSome ∧ ∀ o, p ∉ owned m.lists seqs o

/-- The list at `o` and its nodes are as they were. -/
def Kept (m m' : Memory α) (seqs : Nat → List (Nat × α)) (o : Nat) : Prop :=
  m'.lists o=m.lists o ∧ ∀ p ∈ owned m.lists seqs o, m'.nodes p=m.nodes p

theorem Kept.trans {m m₁ m₂ : Memory α} {seqs seqs₁ : Nat → List (Nat × α)} {o : Nat}
    (h : Kept m m₁ seqs o) (h' : Kept m₁ m₂ seqs₁ o) (hs : seqs₁ o=seqs o) :
    Kept m m₂ seqs o := by
  refine ⟨h'.1.trans h.1,fun p hp => (h'.2 p ?_).trans (h.2 p hp)⟩
  rw [owned,h.1,hs]
  exact hp

namespace Represents

variable {m m' : Memory α} {seqs : Nat → List (Nat × α)} {o this p n : Nat} {l l' : ListT}
  {s' : List (Nat × α)} {ps : List Nat} {v : α} {next prev : Nat → Option Nat}

theorem allocated (h : Represents m seqs) (hp : p ∈ owned m.lists seqs o) :
    (m.dataOf p).isSome := by
  cases hl : m.lists o with
  | none => simp [owned,hl] at hp
  | some l =>
    rw [owned_eq hl] at hp
    exact (h.held o l hl).allocated hp

/-- Nothing that is in a list was written to. -/
theorem congr (h : Represents m seqs) (hlists : m'.lists=m.lists)
    (hm : ∀ o, ∀ p ∈ owned m.lists seqs o, m'.nodes p=m.nodes p)
    (hb : ∀ p, (m'.dataOf p).isSome → 0 < p ∧ p < 2^64) : Represents m' seqs := by
  refine ⟨?_,?_,hb⟩
  · intro o l hl
    rw [hlists] at hl
    exact (h.held o l hl).congr fun p hp => hm o p (owned_eq hl ▸ hp)
  · intro o o' ho
    rw [hlists]
    exact h.apart o o' ho

/-- One list has changed, within nodes that no other list has. -/
theorem replace (h : Represents m seqs) (hlists : m'.lists=update m.lists this (some l'))
    (hh : Holds m' l' s') (hsub : ∀ p ∈ chain l' s', ∀ o, o ≠ this → p ∉ owned m.lists seqs o)
    (hm : ∀ o, o ≠ this → ∀ p ∈ owned m.lists seqs o, m'.nodes p=m.nodes p)
    (hb : ∀ p, (m'.dataOf p).isSome → 0 < p ∧ p < 2^64) :
    Represents m' (update seqs this s') ∧ ∀ o, o ≠ this → Kept m m' seqs o := by
  have hthis : owned m'.lists (update seqs this s') this=chain l' s' := by
    rw [owned_eq (l := l') (by rw [hlists,update_self]),update_self]
  have hother : ∀ o, o ≠ this → owned m'.lists (update seqs this s') o=owned m.lists seqs o := by
    intro o ho
    rw [hlists,owned_update_ne _ _ ho]
  refine ⟨⟨?_,?_,hb⟩,fun o ho => ⟨?_,hm o ho⟩⟩
  · intro o l hl
    by_cases ho : o=this
    · subst ho
      rw [hlists,update_self] at hl
      obtain rfl := Option.some.inj hl
      rw [update_self]
      exact hh
    · rw [hlists,update_of_ne ho] at hl
      rw [update_of_ne ho]
      exact (h.held o l hl).congr fun p hp => hm o ho p (owned_eq hl ▸ hp)
  · intro o o' ho
    by_cases h1 : o=this
    · subst h1
      rw [hthis,hother o' (Ne.symm ho)]
      exact fun p hp hq => hsub p hp o' (Ne.symm ho) hq
    · by_cases h2 : o'=this
      · subst h2
        rw [hthis,hother o h1]
        exact fun p hp hq => hsub p hq o h1 hp
      · rw [hother o h1,hother o' h2]
        exact h.apart o o' ho
  · rw [hlists,update_of_ne ho]

/-- A new node is in no list. -/
theorem constructNode (h : Represents m seqs) (hn : m.nodes n=none)
    (hlt : 0 < n ∧ n < 2^64) (v : α) :
    Represents (m.constructNode n v) seqs ∧ Loose (m.constructNode n v) seqs n ∧
      (m.constructNode n v).dataOf n=some v ∧ ∀ o, Kept m (m.constructNode n v) seqs o := by
  have hout : ∀ o, n ∉ owned m.lists seqs o := by
    intro o ho
    have ha := h.allocated ho
    simp [Memory.dataOf,hn] at ha
  have hsame : ∀ o, ∀ p ∈ owned m.lists seqs o, (m.constructNode n v).nodes p=m.nodes p := by
    intro o p hp
    have hne : p ≠ n := fun he => hout o (he ▸ hp)
    exact update_of_ne hne _ _
  have hdata : (m.constructNode n v).dataOf n=some v := by
    simp [Memory.dataOf,Memory.constructNode]
  refine ⟨h.congr rfl hsame ?_,⟨by simp [hdata],hout⟩,hdata,fun o => ⟨rfl,hsame o⟩⟩
  intro p hp
  by_cases hpn : p=n
  · exact hpn ▸ hlt
  · apply h.bounded p
    simpa [Memory.dataOf,Memory.constructNode,hpn] using hp

theorem delete (h : Represents m seqs) (hp : Loose m seqs p) :
    ∃ m', m.delete p=some m' ∧ Represents m' seqs ∧ ∀ o, Kept m m' seqs o := by
  have hsame : ∀ o, ∀ q ∈ owned m.lists seqs o, update m.nodes p none q=m.nodes q := by
    intro o q hq
    have hne : q ≠ p := fun he => hp.2 o (he ▸ hq)
    exact update_of_ne hne _ _
  refine ⟨_,Memory.delete_eq hp.1,h.congr rfl hsame ?_,fun o => ⟨rfl,hsame o⟩⟩
  intro q hq
  by_cases hqp : q=p
  · simp [Memory.dataOf,hqp] at hq
  · apply h.bounded q
    simpa [Memory.dataOf,hqp] using hq

/-- No other list has a node of this one, nor a loose node. -/
theorem not_mem_other (h : Represents m seqs) (hl : m.lists this=some l)
    (hp : p ∈ chain l (seqs this) ∨ Loose m seqs p) (ho : o ≠ this) :
    p ∉ owned m.lists seqs o := by
  rcases hp with hp | hp
  · rw [← owned_eq hl] at hp
    exact fun hx => h.apart o this ho hx hp
  · exact hp.2 o

/-- The rewritten list is the only one that changes. -/
theorem rewrite (h : Represents m seqs) (hl : m.lists this=some l)
    (hb : Becomes m m' next prev (update m.lists this (some l')) ps) (hh : Holds m' l' s')
    (hsub : ∀ p ∈ chain l' s', p ∈ chain l (seqs this) ∨ Loose m seqs p)
    (hps : ∀ p ∈ ps, p ∈ chain l (seqs this) ∨ Loose m seqs p) :
    Represents m' (update seqs this s') ∧ ∀ o, o ≠ this → Kept m m' seqs o := by
  refine h.replace hb.lists_eq hh (fun p hp o ho => h.not_mem_other hl (hsub p hp) ho)
    (fun o ho p hp => hb.rest p ?_) ?_
  · intro hx
    exact h.not_mem_other hl (hps p hx) ho hp
  · intro p hp
    rw [hb.data_eq] at hp
    exact h.bounded p hp

/-- The number of elements is a `size_t` value. -/
theorem length_lt (h : Represents m seqs) {c : List Nat} (hnd : c.Nodup)
    (hc : ∀ p ∈ c, (m.dataOf p).isSome) : c.length ≤ 2^64 := by
  have hsub : c ⊆ List.range (2^64) := fun p hp => List.mem_range.mpr (h.bounded p (hc p hp)).2
  simpa using (List.subperm_of_subset hnd hsub).length_le

/-- A loose node joins a list in front of a position. -/
theorem insertAt (h : Represents m seqs) (hl : m.lists this=some l)
    (hp : p ∈ names (seqs this) ++ [l.myEnd]) (hn : Loose m seqs n) (hv : m.dataOf n=some v) :
    ∃ m', m.insertAt this n p=some m' ∧
      Represents m' (update seqs this (insertBefore p (n,v) (seqs this))) ∧
      ∀ o, o ≠ this → Kept m m' seqs o := by
  have hold := h.held this l hl
  obtain ⟨lo,hi,pre,x,post,hs,hsp,hprev⟩ := hold.position hp
  rw [hs] at hold
  have hc : chain l (seqs this)=pre ++ x :: p :: post := hs ▸ hsp.chain_eq
  have hx : x ∈ chain l (seqs this) := by simp [hc]
  have hpm : p ∈ chain l (seqs this) := by simp [hc]
  have hout : n ∉ chain l (seqs this) := owned_eq hl ▸ hn.2 this
  obtain ⟨m',hm',hb⟩ := (Becomes.refl m).insertAt hprev
    ((h.held this l hl).allocated hpm) ((h.held this l hl).allocated hx) hn.1 hl
  have hnode : ∀ q ∈ n :: chain l (seqs this), q ∈ chain l (seqs this) ∨ Loose m seqs q := by
    intro q hq
    rcases List.mem_cons.mp hq with rfl | hq
    · exact .inr hn
    · exact .inl hq
  have hlen : (lo ++ (n,v) :: hi).length < 2^64 := by
    have hle := h.length_lt (List.nodup_cons.mpr ⟨hout,(h.held this l hl).nodup⟩) fun q hq =>
      (hnode q hq).elim (h.held this l hl).allocated And.left
    rw [List.length_cons,length_chain,hs,List.length_append] at hle
    rw [List.length_append,List.length_cons]
    omega
  have hins : insertBefore p (n,v) (seqs this)=lo ++ (n,v) :: hi := by
    rw [hs]
    refine insertBefore_mid _ (hsp.not_mem hold.nodup) ?_
    intro e he
    cases hi with
    | nil => cases he
    | cons a hi =>
      obtain rfl := Option.some.inj he
      exact (List.cons.inj hsp.behind).1
  have hh := hold.linkIn hsp (hs ▸ hout) hv hlen hb
  refine ⟨m',hm',hins ▸ h.rewrite hl hb hh (fun q hq => hnode q ?_) fun q hq => hnode q ?_⟩
  · rw [chain_resize,hsp.chain_mid] at hq
    rw [hc]
    grind
  · rw [hc]
    grind

/-- A node leaves its list and is loose then. -/
theorem unlinked (h : Represents m seqs) (hl : m.lists this=some l) (hp : p ∈ names (seqs this)) :
    ∃ v x z, lookup p (seqs this)=some (p,v) ∧ m.prevOf p=some x ∧ m.nextOf p=some z ∧
      (m.dataOf x).isSome ∧ (m.dataOf z).isSome ∧
      ∀ m', Becomes m m' (update m.nextOf x (some z)) (update m.prevOf z (some x))
          (update m.lists this (some { l with mySize := subSizeT l.mySize 1 })) [z,x] →
        Represents m' (update seqs this (remove p (seqs this))) ∧
        Loose m' (update seqs this (remove p (seqs this))) p ∧ m'.dataOf p=some v ∧
        ∀ o, o ≠ this → Kept m m' seqs o := by
  have hold := h.held this l hl
  obtain ⟨lo,v,hi,pre,x,z,post,hs,hsp,hprev,hnext⟩ := hold.around hp
  have hc : chain l (seqs this)=pre ++ x :: p :: z :: post := hs ▸ hsp.chain_mid p v
  have hplo : p ∉ names lo := hsp.not_mem_mid (hs ▸ hold.nodup)
  refine ⟨v,x,z,by rw [hs,lookup_mid _ hplo],hprev,hnext,hold.allocated (by simp [hc]),
    hold.allocated (by simp [hc]),?_⟩
  intro m' hb
  have hlen : (lo ++ (p,v) :: hi).length < 2^64 := by
    have hle := h.length_lt hold.nodup fun q hq => hold.allocated hq
    rw [length_chain,hs] at hle
    omega
  obtain ⟨hh,hpout⟩ := Holds.unlink (hs ▸ hold) hsp hlen hb
  rw [hs,remove_mid _ hplo]
  obtain ⟨hr,hk⟩ := h.rewrite hl hb hh
    (fun q hq => .inl (by rw [chain_resize,hsp.chain_eq] at hq; rw [hc]; grind))
    fun q hq => .inl (by rw [hc]; grind)
  have hv : m'.dataOf p=some v := by
    rw [hb.data_eq]
    exact hold.data (p,v) (by simp [hs])
  refine ⟨hr,⟨by simp [hv],?_⟩,hv,hk⟩
  intro o ho
  by_cases hot : o=this
  · subst hot
    rw [owned_eq (by rw [hb.lists_eq,update_self]),update_self,chain_resize] at ho
    exact hpout ho
  · rw [hb.lists_eq,owned_update_ne _ _ hot] at ho
    exact h.not_mem_other hl (.inl (by simp [hc])) hot ho

/-- All nodes between the sentinels are gone. -/
theorem clear (h : Represents m seqs) (hl : m.lists this=some l) :
    ∃ m', m.clear this=some m' ∧ Represents m' (update seqs this []) ∧
      ∀ o, o ≠ this → Kept m m' seqs o := by
  have hold := h.held this l hl
  have he : l.myEnd ∈ chain l (seqs this) := by simp [chain]
  obtain ⟨m₁,m',hm',hgone,hrest,hb⟩ := Memory.clear_spec hl
    ((length_names _).trans hold.size.symm) hold.linked hold.nodup (hold.allocated he)
  have hnd : [l.myHead,l.myEnd].Nodup := hold.nodup.sublist (by simp [chain])
  have hne : l.myHead ≠ l.myEnd := by simpa using hnd
  have hh : Holds m' { l with mySize := 0 } [] := by
    refine ⟨hnd,?_,rfl,by simp⟩
    rw [hb.next_eq,hb.prev_eq]
    exact List.isChain_pair.mpr ⟨update_self ..,update_self ..⟩
  have hsub : ∀ p ∈ [l.myEnd,l.myHead], p ∈ chain l (seqs this) := by
    intro p hp
    have hp : p=l.myEnd ∨ p=l.myHead := by simpa using hp
    rcases hp with rfl | rfl <;> simp [chain]
  refine ⟨m',hm',h.replace hb.lists_eq hh ?_ ?_ ?_⟩
  · intro p hp o ho
    refine h.not_mem_other hl (.inl (hsub p ?_)) ho
    have hp : p=l.myHead ∨ p=l.myEnd := by simpa [chain] using hp
    rcases hp with rfl | rfl <;> simp
  · intro o ho p hp
    have hout : p ∉ chain l (seqs this) := fun hx => h.not_mem_other hl (.inl hx) ho hp
    rw [hb.rest p fun hx => hout (hsub p hx)]
    exact hrest p fun hx => hout (by simp [chain,hx])
  · intro p hp
    rw [hb.data_eq] at hp
    by_cases hps : p ∈ names (seqs this)
    · simp [Memory.dataOf,hgone p hps] at hp
    · apply h.bounded p
      rwa [Memory.dataOf,hrest p hps] at hp

/-- A new list is empty. -/
theorem construct [Inhabited α] {myHead myEnd : Nat} (h : Represents m seqs) (this : Nat)
    (hhead : m.nodes myHead=none) (hend : m.nodes myEnd=none) (hne : myHead ≠ myEnd)
    (hhl : 0 < myHead ∧ myHead < 2^64) (hel : 0 < myEnd ∧ myEnd < 2^64) :
    ∃ m', m.construct this myHead myEnd=some m' ∧ Represents m' (update seqs this []) ∧
      ∀ o, o ≠ this → Kept m m' seqs o := by
  obtain ⟨h1,⟨_,hout1⟩,_,hk1⟩ := h.constructNode hhead hhl default
  have hend1 : (m.constructNode myHead default).nodes myEnd=none := by
    simpa [Memory.constructNode,Ne.symm hne] using hend
  obtain ⟨h2,⟨ha2,hout2⟩,_,hk2⟩ := h1.constructNode hend1 hel default
  set m₂ := (m.constructNode myHead default).constructNode myEnd default with hm₂
  have hah : (m₂.dataOf myHead).isSome := by
    simp [hm₂,Memory.constructNode,Memory.dataOf,hne]
  set l : ListT := ⟨myHead,myEnd,0⟩ with hl'
  have b0 : Becomes m₂ { m₂ with lists := update m₂.lists this (some l) } m₂.nextOf m₂.prevOf
      (update m₂.lists this (some l)) [] := ⟨rfl,rfl,rfl,rfl,fun _ _ => rfl⟩
  obtain ⟨m₃,h3,b3⟩ := b0.setNext ha2 none
  obtain ⟨m₄,h4,b4⟩ := b3.setPrev hah none
  obtain ⟨m₅,h5,b5⟩ := b4.setNext hah (some myEnd)
  obtain ⟨m₆,h6,b6⟩ := b5.setPrev ha2 (some myHead)
  have hh : Holds m₆ l [] := by
    refine ⟨by simp [chain,hl',hne],?_,rfl,by simp⟩
    rw [b6.next_eq,b6.prev_eq]
    exact List.isChain_pair.mpr ⟨update_self ..,update_self ..⟩
  have hloose : ∀ p, p=myHead ∨ p=myEnd → ∀ o, p ∉ owned m₂.lists seqs o := by
    rintro p (rfl | rfl)
    · exact hout1
    · exact hout2
  obtain ⟨hr,hk⟩ := h2.replace b6.lists_eq hh
    (fun p hp o _ => hloose p (by simpa [chain] using hp) o)
    (fun o _ p hp => b6.rest p fun hx => hloose p (by grind) o hp) fun p hp => by
      rw [b6.data_eq] at hp
      exact h2.bounded p hp
  refine ⟨m₆,?_,hr,fun o ho => ((hk1 o).trans (hk2 o) rfl).trans (hk o ho) rfl⟩
  simp only [Memory.construct,← hm₂,← hl',h3,h4,h5,h6,Option.bind_eq_bind,Option.bind_some]

end Represents

end Allocators.ListT
