import Allocators.Lib.Links
import Allocators.ListT.Memory

/-! What the operations write, link by link. -/

namespace Allocators.ListT

open Function

variable {α : Type}

namespace Memory

def nextOf (m : Memory α) (p : Nat) : Option Nat := (m.nodes p).bind Node.next

def prevOf (m : Memory α) (p : Nat) : Option Nat := (m.nodes p).bind Node.prev

def dataOf (m : Memory α) (p : Nat) : Option α := (m.nodes p).map Node.data

theorem exists_node {m : Memory α} {p : Nat} (h : (m.dataOf p).isSome) : ∃ n, m.nodes p=some n :=
  Option.isSome_iff_exists.mp (by simpa [dataOf] using h)

theorem isSome_of_nextOf {m : Memory α} {p q : Nat} (h : m.nextOf p=some q) :
    (m.dataOf p).isSome := by
  obtain ⟨n,hn,_⟩ := Option.bind_eq_some_iff.mp h
  simp [dataOf,hn]

theorem isSome_of_prevOf {m : Memory α} {p q : Nat} (h : m.prevOf p=some q) :
    (m.dataOf p).isSome := by
  obtain ⟨n,hn,_⟩ := Option.bind_eq_some_iff.mp h
  simp [dataOf,hn]

end Memory

/-- From `m` to `m'` the links became `next` and `prev` and the objects `lists`; the data stayed,
and so did all nodes but the `ps`. -/
structure Becomes (m m' : Memory α) (next prev : Nat → Option Nat) (lists : Nat → Option ListT)
    (ps : List Nat) : Prop where
  next_eq : m'.nextOf=next
  prev_eq : m'.prevOf=prev
  data_eq : m'.dataOf=m.dataOf
  lists_eq : m'.lists=lists
  rest : ∀ p ∉ ps, m'.nodes p=m.nodes p

namespace Becomes

variable {m m' : Memory α} {next prev : Nat → Option Nat} {lists : Nat → Option ListT}
  {ps : List Nat} {p : Nat}

theorem refl (m : Memory α) : Becomes m m m.nextOf m.prevOf m.lists [] :=
  ⟨rfl,rfl,rfl,rfl,fun _ _ => rfl⟩

/-- A node that is still allocated, with its links. -/
theorem node (h : Becomes m m' next prev lists ps) (hp : (m.dataOf p).isSome) :
    ∃ n, m'.nodes p=some n ∧ n.next=next p ∧ n.prev=prev p := by
  obtain ⟨n,hn⟩ := Memory.exists_node (m := m') (p := p) (h.data_eq ▸ hp)
  refine ⟨n,hn,?_,?_⟩
  · rw [← h.next_eq,Memory.nextOf,hn,Option.bind_some]
  · rw [← h.prev_eq,Memory.prevOf,hn,Option.bind_some]

/-- One node with new links. -/
theorem write {n : Node α} (h : Becomes m m' next prev lists ps) (hn : m'.nodes p=some n)
    (n' : Node α) (hd : n'.data=n.data) : Becomes m { m' with nodes := update m'.nodes p (some n') }
      (update next p n'.next) (update prev p n'.prev) lists (p :: ps) := by
  refine ⟨?_,?_,?_,h.lists_eq,?_⟩
  · rw [← h.next_eq]
    funext r
    by_cases hr : r=p
    · simp [Memory.nextOf,hr]
    · simp [Memory.nextOf,hr]
  · rw [← h.prev_eq]
    funext r
    by_cases hr : r=p
    · simp [Memory.prevOf,hr]
    · simp [Memory.prevOf,hr]
  · rw [← h.data_eq]
    funext r
    by_cases hr : r=p
    · simp [Memory.dataOf,hr,hn,hd]
    · simp [Memory.dataOf,hr]
  · intro r hr
    obtain ⟨hrp,hr⟩ := not_or.mp (mt List.mem_cons.mpr hr)
    rw [← h.rest r hr]
    exact update_of_ne hrp _ _

theorem setNext (h : Becomes m m' next prev lists ps) (hp : (m.dataOf p).isSome)
    (q : Option Nat) : ∃ m'', m'.setNext p q=some m'' ∧
      Becomes m m'' (update next p q) prev lists (p :: ps) := by
  obtain ⟨n,hn,_,hprev⟩ := h.node hp
  have hw := h.write hn { n with next := q } rfl
  refine ⟨_,by rw [Memory.setNext,hn,Option.map_some],?_⟩
  simpa only [hprev,update_eq_self] using hw

theorem setPrev (h : Becomes m m' next prev lists ps) (hp : (m.dataOf p).isSome)
    (q : Option Nat) : ∃ m'', m'.setPrev p q=some m'' ∧
      Becomes m m'' next (update prev p q) lists (p :: ps) := by
  obtain ⟨n,hn,hnext,_⟩ := h.node hp
  have hw := h.write hn { n with prev := q } rfl
  refine ⟨_,by rw [Memory.setPrev,hn,Option.map_some],?_⟩
  simpa only [hnext,update_eq_self] using hw

theorem setSize (h : Becomes m m' next prev lists ps) {this : Nat} {l : ListT}
    (hl : lists this=some l) (f : Nat → Nat) : ∃ m'', m'.setSize this f=some m'' ∧
      Becomes m m'' next prev (update lists this (some { l with mySize := f l.mySize })) ps := by
  have hl' : m'.lists this=some l := h.lists_eq ▸ hl
  have hs : m'.setSize this f=some { m' with
      lists := update m'.lists this (some { l with mySize := f l.mySize }) } := by
    rw [Memory.setSize,hl',Option.map_some]
  exact ⟨_,hs,h.next_eq,h.prev_eq,h.data_eq,by rw [h.lists_eq],h.rest⟩

variable {x y z n this : Nat} {l : ListT}

/-- The node `n` between `z` and the node `x` before it. -/
theorem insertAt (h : Becomes m m' next prev lists ps) (hz : prev z=some x)
    (hzs : (m.dataOf z).isSome) (hx : (m.dataOf x).isSome) (hn : (m.dataOf n).isSome)
    (hl : lists this=some l) : ∃ m'', m'.insertAt this n z=some m'' ∧
      Becomes m m'' (update (update next x (some n)) n (some z))
        (update (update prev n (some x)) z (some n))
        (update lists this (some { l with mySize := toSizeT (l.mySize+1) }))
        (z :: n :: n :: x :: ps) := by
  obtain ⟨node,hnode,_,hprev⟩ := h.node hzs
  rw [hz] at hprev
  obtain ⟨m₁,h1,b1⟩ := h.setNext hx (some n)
  obtain ⟨m₂,h2,b2⟩ := b1.setNext hn (some z)
  obtain ⟨m₃,h3,b3⟩ := b2.setPrev hn (some x)
  obtain ⟨m₄,h4,b4⟩ := b3.setPrev hzs (some n)
  obtain ⟨m₅,h5,b5⟩ := b4.setSize hl fun k => toSizeT (k+1)
  refine ⟨m₅,?_,b5⟩
  simp only [Memory.insertAt,hnode,hprev,h1,h2,h3,h4,h5,Option.bind_eq_bind,Option.bind_some]

/-- The two neighbours of `y` point at each other. -/
theorem unlink (h : Becomes m m' next prev lists ps) (hp : prev y=some x) (hn : next y=some z)
    (hy : (m.dataOf y).isSome) (hx : (m.dataOf x).isSome) (hz : (m.dataOf z).isSome) :
    ∃ m'', m'.unlink y=some m'' ∧ Becomes m m'' (update next x (some z))
      (update prev z (some x)) lists (z :: x :: ps) := by
  obtain ⟨node,hnode,hnext,hprev⟩ := h.node hy
  obtain ⟨m₁,h1,b1⟩ := h.setNext hx (some z)
  obtain ⟨m₂,h2,b2⟩ := b1.setPrev hz (some x)
  -- the first write leaves the links of `y`, also if `y` is its own neighbour
  obtain ⟨node₁,hnode₁,hnext₁,hprev₁⟩ := b1.node hy
  rw [update_apply,hn,ite_self] at hnext₁
  rw [hp] at hprev hprev₁
  rw [hn] at hnext
  refine ⟨m₂,?_,b2⟩
  simp only [Memory.unlink,hnode,hprev,hnext,h1,hnode₁,hnext₁,hprev₁,h2,Option.bind_eq_bind,
    Option.bind_some]

end Becomes

namespace Memory

open Lib Links

variable {m : Memory α} {prev : Nat → Option Nat} {ps : List Nat} {it this : Nat}

theorem delete_eq {p : Nat} (h : (m.dataOf p).isSome) :
    m.delete p=some { m with nodes := update m.nodes p none } := by
  obtain ⟨n,hn⟩ := exists_node h
  rw [delete,hn,Option.map_some]

/-- Any number of steps beyond that of the nodes is enough for the loop. -/
theorem clearLoop_spec (fuel : Nat) {myEnd : Nat} (hl : Linked m.nextOf prev (ps ++ [myEnd]))
    (hnd : (ps ++ [myEnd]).Nodup) (hf : ps.length < fuel) (hit : (ps ++ [myEnd]).head?=some it) :
    ∃ m', clearLoop myEnd fuel m it=some m' ∧ m'.lists=m.lists ∧
      (∀ p ∈ ps, m'.nodes p=none) ∧ ∀ p ∉ ps, m'.nodes p=m.nodes p := by
  induction ps generalizing m it fuel with
  | nil =>
    obtain ⟨k,rfl⟩ : ∃ k, fuel=k+1 := ⟨fuel-1,by simp at hf; omega⟩
    obtain rfl : myEnd=it := by simpa using hit
    exact ⟨m,by rw [clearLoop,if_pos rfl],rfl,by simp,fun _ _ => rfl⟩
  | cons p ps ih =>
    obtain ⟨k,rfl⟩ : ∃ k, fuel=k+1 := ⟨fuel-1,by simp at hf; omega⟩
    obtain rfl : p=it := by simpa using hit
    rw [List.cons_append,List.nodup_cons] at hnd
    obtain ⟨hp,hnd⟩ := hnd
    obtain ⟨q,hq⟩ : ∃ q, (ps ++ [myEnd]).head?=some q := by
      cases ps <;> exact ⟨_,rfl⟩
    obtain ⟨post,hpost⟩ := List.head?_eq_some_iff.mp hq
    have hlink := hl
    rw [List.cons_append,hpost] at hlink
    obtain ⟨⟨hnext,_⟩,_⟩ := List.isChain_cons_cons.mp hlink
    obtain ⟨n,hn,hnn⟩ := Option.bind_eq_some_iff.mp hnext
    set m₁ : Memory α := { m with nodes := update m.nodes p none } with hm₁
    have hdel : m.delete p=some m₁ := delete_eq (isSome_of_nextOf hnext)
    have hl₁ : Linked m₁.nextOf prev (ps ++ [myEnd]) := by
      refine Linked.congr (List.IsChain.tail hl) ?_ fun _ _ => rfl
      intro a ha
      have hne : a ≠ p := fun he => hp (he ▸ List.dropLast_subset _ ha)
      simp [nextOf,hm₁,hne]
    obtain ⟨m',hm',hlists,hgone,hrest⟩ := ih k hl₁ hnd (by simpa using hf) hq
    have hps : p ∉ ps := fun hx => hp (List.mem_append_left _ hx)
    refine ⟨m',?_,hlists,?_,?_⟩
    · have hne : ¬ p=myEnd := fun he => hp (by simp [he])
      simp only [clearLoop,if_neg hne,hn,hdel,hnn,Option.bind_eq_bind,Option.bind_some,
        Option.getD_some]
      exact hm'
    · intro r hr
      rcases List.mem_cons.mp hr with rfl | hr
      · rw [hrest r hps]
        simp [hm₁]
      · exact hgone r hr
    · intro r hr
      obtain ⟨hrp,hr⟩ := not_or.mp (mt List.mem_cons.mpr hr)
      rw [hrest r hr]
      simp [hm₁,hrp]

/-- Between the loop and the last lines only the two sentinels are left. -/
theorem clear_spec {l : ListT} (hlist : m.lists this=some l) (hsize : ps.length=l.mySize)
    (hl : Linked m.nextOf m.prevOf (l.myHead :: (ps ++ [l.myEnd])))
    (hnd : (l.myHead :: (ps ++ [l.myEnd])).Nodup) (he : (m.dataOf l.myEnd).isSome) :
    ∃ m₁ m', m.clear this=some m' ∧ (∀ p ∈ ps, m₁.nodes p=none) ∧
      (∀ p ∉ ps, m₁.nodes p=m.nodes p) ∧
      Becomes m₁ m' (update m₁.nextOf l.myHead (some l.myEnd))
        (update m₁.prevOf l.myEnd (some l.myHead))
        (update m.lists this (some { l with mySize := 0 })) [l.myEnd,l.myHead] := by
  obtain ⟨it,hit⟩ : ∃ it, (ps ++ [l.myEnd]).head?=some it := by
    cases ps <;> exact ⟨_,rfl⟩
  obtain ⟨post,hpost⟩ := List.head?_eq_some_iff.mp hit
  have hlink := hl
  rw [hpost] at hlink
  obtain ⟨⟨hnext,_⟩,_⟩ := List.isChain_cons_cons.mp hlink
  obtain ⟨n,hn,hnn⟩ := Option.bind_eq_some_iff.mp hnext
  obtain ⟨hhead,hnd⟩ := List.nodup_cons.mp hnd
  obtain ⟨m₁,h1,hlists,hgone,hrest⟩ :=
    clearLoop_spec (l.mySize+1) (List.IsChain.tail hl) hnd (by omega) hit
  have hsame : ∀ p ∉ ps, m₁.dataOf p=m.dataOf p := by
    intro p hp
    rw [dataOf,dataOf,hrest p hp]
  have hhs : (m₁.dataOf l.myHead).isSome := by
    rw [hsame _ fun hx => hhead (List.mem_append_left _ hx)]
    exact isSome_of_nextOf hnext
  have hes : (m₁.dataOf l.myEnd).isSome := by
    rw [hsame _ fun hx => (List.nodup_append.mp hnd).2.2 _ hx _ (by simp) rfl]
    exact he
  obtain ⟨m₂,h2,b2⟩ := (Becomes.refl m₁).setSize (hlists ▸ hlist) fun _ => 0
  obtain ⟨m₃,h3,b3⟩ := b2.setNext hhs (some l.myEnd)
  obtain ⟨m₄,h4,b4⟩ := b3.setPrev hes (some l.myHead)
  rw [hlists] at b4
  refine ⟨m₁,m₄,?_,hgone,hrest,b4⟩
  simp only [clear,hlist,hn,hnn,h1,h2,h3,h4,Option.bind_eq_bind,Option.bind_some]

end Memory

end Allocators.ListT
