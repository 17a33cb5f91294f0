import Allocators.Lib.Run
import Allocators.ListT.Sequences

/-! Any number of lists, and any calls on them: each list is the sequence that the calls make. -/

namespace Allocators.ListT

open Function Lib Links Sequence

variable {α : Type}

/-- A call on the list at `this`; new nodes are where `operator new` puts them. -/
inductive Op (α : Type)
  | construct (this myHead myEnd : Nat)
  | emplace (this it n : Nat) (data : α)
  | emplaceBack (this n : Nat) (data : α)
  | erase (this pos : Nat)
  | clear (this : Nat)
  | splice (this pos other it : Nat)

namespace Op

def run [Inhabited α] (m : Memory α) : Op α → Option (Memory α)
  | .construct this myHead myEnd => m.construct this myHead myEnd
  | .emplace this it n data => m.emplace this it n data
  | .emplaceBack this n data => m.emplaceBack this n data
  | .erase this pos => m.erase this pos
  | .clear this => m.clear this
  | .splice this pos other it => m.splice this pos other it

/-- The operation on sequences; a position that is no element is the end. -/
def apply (seqs : Nat → List (Nat × α)) : Op α → Nat → List (Nat × α)
  | .construct this _ _ => update seqs this []
  | .emplace this it n data => update seqs this (insertBefore it (n,data) (seqs this))
  | .emplaceBack this n data => update seqs this (seqs this ++ [(n,data)])
  | .erase this pos => update seqs this (remove pos (seqs this))
  | .clear this => update seqs this []
  | .splice this pos other it =>
    match lookup it (seqs other) with
    | none => seqs
    | some e =>
      let seqs := update seqs other (remove it (seqs other))
      update seqs this (insertBefore pos e (seqs this))

/-- The call returns. -/
def Returns : Op α → Prop
  | .erase _ _ => False
  | _ => True

instance : DecidablePred (Returns (α := α))
  | .erase _ _ => inferInstanceAs (Decidable False)
  | .construct _ _ _ | .emplace _ _ _ _ | .emplaceBack _ _ _ | .clear _ | .splice _ _ _ _ =>
    inferInstanceAs (Decidable True)

/-- The lists it is about. -/
def touched : Op α → List Nat
  | .construct this _ _ | .emplace this _ _ _ | .emplaceBack this _ _ | .erase this _
  | .clear this => [this]
  | .splice this _ other _ => [this,other]

theorem returns_of_run [Inhabited α] {m m' : Memory α} {op : Op α} (h : op.run m=some m') :
    op.Returns := by
  cases op with
  | erase this pos =>
    obtain ⟨_,_,hnone⟩ := Option.bind_eq_some_iff.mp h
    cases hnone
  | _ => trivial

/-- All other sequences stay. -/
theorem apply_of_not_mem {seqs : Nat → List (Nat × α)} {op : Op α} {o : Nat}
    (h : o ∉ op.touched) : op.apply seqs o=seqs o := by
  cases op with
  | splice this pos other it =>
    obtain ⟨h1,h2⟩ : o ≠ this ∧ o ≠ other := by simpa [touched] using h
    cases hl : lookup it (seqs other) with
    | none => simp only [apply,hl]
    | some e =>
      simp only [apply,hl]
      rw [update_of_ne h1,update_of_ne h2]
  | _ =>
    simp only [touched,List.mem_singleton] at h
    exact update_of_ne h _ _

end Op

/-- The memory, and next to it the sequence that each list is meant to be. -/
structure World (α : Type) where
  memory : Memory α
  seqs : Nat → List (Nat × α)

namespace World

/-- What `operator new` may return. -/
def Fresh (w : World α) (n : Nat) : Prop := w.memory.nodes n=none ∧ 0 < n ∧ n < 2^64

def Constructed (w : World α) (this : Nat) : Prop := (w.memory.lists this).isSome=true

/-- An element of the list, or its end. -/
def Position (w : World α) (this p : Nat) : Prop :=
  ∃ l, w.memory.lists this=some l ∧ p ∈ names (w.seqs this) ++ [l.myEnd]

/-- The calls with valid positions. -/
def Valid (w : World α) : Op α → Prop
  | .construct this myHead myEnd => ¬ w.Constructed this ∧ w.Fresh myHead ∧ w.Fresh myEnd ∧
      myHead ≠ myEnd
  | .emplace this it n _ => w.Position this it ∧ w.Fresh n
  | .emplaceBack this n _ => w.Constructed this ∧ w.Fresh n
  | .erase this pos => w.Constructed this ∧ pos ∈ names (w.seqs this)
  | .clear this => w.Constructed this
  | .splice this pos other it => w.Position this pos ∧ w.Constructed other ∧
      it ∈ names (w.seqs other) ∧ pos ≠ it

instance (w : World α) (n : Nat) : Decidable (w.Fresh n) :=
  match h : w.memory.nodes n with
  | none => decidable_of_iff (0 < n ∧ n < 2^64) (by simp [Fresh,h])
  | some _ => .isFalse (by simp [Fresh,h])

instance (w : World α) (this : Nat) : Decidable (w.Constructed this) :=
  inferInstanceAs (Decidable (_=true))

instance (w : World α) (this p : Nat) : Decidable (w.Position this p) :=
  match h : w.memory.lists this with
  | none => .isFalse (by simp [Position,h])
  | some l => decidable_of_iff (p ∈ names (w.seqs this) ++ [l.myEnd]) (by simp [Position,h])

instance (w : World α) : (op : Op α) → Decidable (w.Valid op)
  | .construct .. => inferInstanceAs (Decidable (_ ∧ _))
  | .emplace .. => inferInstanceAs (Decidable (_ ∧ _))
  | .emplaceBack .. => inferInstanceAs (Decidable (_ ∧ _))
  | .erase .. => inferInstanceAs (Decidable (_ ∧ _))
  | .clear this => inferInstanceAs (Decidable (w.Constructed this))
  | .splice .. => inferInstanceAs (Decidable (_ ∧ _))

variable [Inhabited α]

def step (w : World α) (op : Op α) : Option (World α) :=
  if w.Valid op then (op.run w.memory).map fun m => ⟨m,op.apply w.seqs⟩ else none

def machine (α : Type) [Inhabited α] : Machine (World α) (Op α) where
  start w := w=⟨⟨fun _ => none,fun _ => none⟩,fun _ => []⟩
  next := step

end World

/-- The end is the position behind all elements. -/
theorem Holds.insertBefore_end {m : Memory α} {l : ListT} {s : List (Nat × α)} (h : Holds m l s)
    (e : Nat × α) : insertBefore l.myEnd e s=s ++ [e] := by
  have hend : l.myEnd ∉ names s := by
    have hnd := (List.nodup_cons.mp h.nodup).2
    exact fun hx => (List.nodup_append.mp hnd).2.2 _ hx _ (by simp) rfl
  have hmid : insertBefore l.myEnd e (s ++ [])=s ++ [e] := insertBefore_mid e hend (by simp)
  rwa [List.append_nil] at hmid

theorem Memory.emplaceBack_eq {m : Memory α} {this n : Nat} {l : ListT} {v : α}
    (hl : m.lists this=some l) : m.emplaceBack this n v=m.emplace this l.myEnd n v := by
  have hl' : (m.constructNode n v).lists this=some l := hl
  simp only [emplaceBack,emplace,hl',Option.bind_eq_bind,Option.bind_some]

namespace Represents

variable {m : Memory α} {seqs : Nat → List (Nat × α)} {this other p n : Nat} {l : ListT} {v : α}

theorem emplace (h : Represents m seqs) (hl : m.lists this=some l)
    (hp : p ∈ names (seqs this) ++ [l.myEnd]) (hn : m.nodes n=none) (hlt : 0 < n ∧ n < 2^64)
    (v : α) : ∃ m', m.emplace this p n v=some m' ∧
      Represents m' (update seqs this (insertBefore p (n,v) (seqs this))) ∧
      ∀ o, o ≠ this → Kept m m' seqs o := by
  obtain ⟨h1,hloose,hv,hk1⟩ := h.constructNode hn hlt v
  obtain ⟨m',hm',hr,hk⟩ := h1.insertAt hl hp hloose hv
  exact ⟨m',hm',hr,fun o ho => (hk1 o).trans (hk o ho) rfl⟩

theorem emplaceBack (h : Represents m seqs) (hl : m.lists this=some l) (hn : m.nodes n=none)
    (hlt : 0 < n ∧ n < 2^64) (v : α) :
    ∃ m', m.emplaceBack this n v=some m' ∧
      Represents m' (update seqs this (seqs this ++ [(n,v)])) ∧
      ∀ o, o ≠ this → Kept m m' seqs o := by
  rw [Memory.emplaceBack_eq hl,← (h.held this l hl).insertBefore_end]
  exact h.emplace hl (by simp) hn hlt v

theorem eraseBody (h : Represents m seqs) (hl : m.lists this=some l)
    (hp : p ∈ names (seqs this)) :
    ∃ m', m.eraseBody this p=some m' ∧ Represents m' (update seqs this (remove p (seqs this))) ∧
      ∀ o, o ≠ this → Kept m m' seqs o := by
  obtain ⟨v,x,z,_,hprev,hnext,hx,hz,hun⟩ := h.unlinked hl hp
  obtain ⟨m₁,h1,b1⟩ := (Becomes.refl m).setSize hl fun k => subSizeT k 1
  obtain ⟨m₂,h2,b2⟩ := b1.unlink hprev hnext (Memory.isSome_of_prevOf hprev) hx hz
  obtain ⟨hr,hloose,_,hk⟩ := hun m₂ b2
  obtain ⟨m₃,h3,hr3,hk3⟩ := hr.delete hloose
  refine ⟨m₃,?_,hr3,fun o ho => (hk o ho).trans (hk3 o) (update_of_ne ho _ _)⟩
  simp only [Memory.eraseBody,h1,h2,h3,Option.bind_eq_bind,Option.bind_some]

/-- The element leaves its list before the place for it is looked at, so that both lists may be
one. -/
theorem splice {l₂ : ListT} (h : Represents m seqs) (hl : m.lists this=some l)
    (hp : p ∈ names (seqs this) ++ [l.myEnd]) (hl₂ : m.lists other=some l₂)
    (hn : n ∈ names (seqs other)) (hne : p ≠ n) :
    ∃ m', m.splice this p other n=some m' ∧ Represents m' ((Op.splice this p other n).apply seqs) ∧
      ∀ o, o ≠ this → o ≠ other → Kept m m' seqs o := by
  obtain ⟨v,x,z,hlook,hprev,hnext,hx,hz,hun⟩ := h.unlinked hl₂ hn
  obtain ⟨m₁,h1,b1⟩ := (Becomes.refl m).unlink hprev hnext (Memory.isSome_of_prevOf hprev) hx hz
  obtain ⟨m₂,h2,b2⟩ := b1.setSize hl₂ fun k => subSizeT k 1
  obtain ⟨hr,hloose,hv,hk⟩ := hun m₂ b2
  set seqs₁ := update seqs other (remove n (seqs other)) with hseqs
  obtain ⟨l₁,hl₁,hp₁⟩ : ∃ l₁, m₂.lists this=some l₁ ∧ p ∈ names (seqs₁ this) ++ [l₁.myEnd] := by
    rw [b2.lists_eq]
    by_cases ho : this=other
    · subst ho
      obtain rfl : l=l₂ := Option.some.inj (hl.symm.trans hl₂)
      refine ⟨_,update_self ..,?_⟩
      rw [hseqs,update_self]
      rcases List.mem_append.mp hp with hp | hp
      · exact List.mem_append_left _ (mem_names_remove hp hne)
      · exact List.mem_append_right _ hp
    · rw [update_of_ne ho,hseqs,update_of_ne ho]
      exact ⟨l,hl,hp⟩
  obtain ⟨m₃,h3,hr3,hk3⟩ := hr.insertAt hl₁ hp₁ hloose hv
  refine ⟨m₃,?_,?_,fun o ho ho' => (hk o ho').trans (hk3 o ho) (update_of_ne ho' _ _)⟩
  · simp only [Memory.splice,h1,h2,h3,Option.bind_eq_bind,Option.bind_some]
  · simpa only [Op.apply,hlook] using hr3

/-- Every valid call but `erase` is defined, and does to the sequences what the operation does. -/
theorem run [Inhabited α] {w : World α} (h : Represents w.memory w.seqs) {op : Op α}
    (hv : w.Valid op) (hret : op.Returns) :
    ∃ m', op.run w.memory=some m' ∧ Represents m' (op.apply w.seqs) ∧
      ∀ o ∉ op.touched, Kept w.memory m' w.seqs o := by
  cases op with
  | construct this myHead myEnd =>
    obtain ⟨_,⟨hhead,hhl⟩,⟨hend,hel⟩,hne⟩ := hv
    obtain ⟨m',hm',hr,hk⟩ := h.construct this hhead hend hne hhl hel
    exact ⟨m',hm',hr,fun o ho => hk o (by simpa [Op.touched] using ho)⟩
  | emplace this it n data =>
    obtain ⟨⟨l,hl,hp⟩,hn,hlt⟩ := hv
    obtain ⟨m',hm',hr,hk⟩ := h.emplace hl hp hn hlt data
    exact ⟨m',hm',hr,fun o ho => hk o (by simpa [Op.touched] using ho)⟩
  | emplaceBack this n data =>
    obtain ⟨hc,hn,hlt⟩ := hv
    obtain ⟨l,hl⟩ := Option.isSome_iff_exists.mp hc
    obtain ⟨m',hm',hr,hk⟩ := h.emplaceBack hl hn hlt data
    exact ⟨m',hm',hr,fun o ho => hk o (by simpa [Op.touched] using ho)⟩
  | erase this pos => exact hret.elim
  | clear this =>
    obtain ⟨l,hl⟩ := Option.isSome_iff_exists.mp hv
    obtain ⟨m',hm',hr,hk⟩ := h.clear hl
    exact ⟨m',hm',hr,fun o ho => hk o (by simpa [Op.touched] using ho)⟩
  | splice this pos other it =>
    obtain ⟨⟨l,hl,hp⟩,hc,hit,hne⟩ := hv
    obtain ⟨l₂,hl₂⟩ := Option.isSome_iff_exists.mp hc
    obtain ⟨m',hm',hr,hk⟩ := h.splice hl hp hl₂ hit hne
    refine ⟨m',hm',hr,?_⟩
    intro o ho
    obtain ⟨h1,h2⟩ : o ≠ this ∧ o ≠ other := by simpa [Op.touched] using ho
    exact hk o h1 h2

end Represents

/-- What the links of a list show: from its head, `next` goes through the nodes of the sequence
and `mySize` of them come before its end; from its end, `prev` goes through them in reverse. -/
structure Mirrors (m : Memory α) (l : ListT) (s : List (Nat × α)) : Prop where
  size : (names s).length=l.mySize
  forward : follow m.nextOf (l.mySize+1) l.myHead=some (names s ++ [l.myEnd])
  backward : follow m.prevOf (l.mySize+1) l.myEnd=some ((names s).reverse ++ [l.myHead])
  nodup : (chain l s).Nodup
  data : ∀ e ∈ s, m.dataOf e.1=some e.2

theorem Holds.mirrors {m : Memory α} {l : ListT} {s : List (Nat × α)} (h : Holds m l s) :
    Mirrors m l s := by
  have hlen : (names s).length=l.mySize := (length_names s).trans h.size.symm
  have hf := h.linked.follow_next
  rw [List.length_append,hlen,List.length_singleton] at hf
  have hb : Linked m.nextOf m.prevOf ((l.myHead :: names s) ++ [l.myEnd]) := h.linked
  have hb := hb.follow_prev
  rw [List.length_cons,hlen,List.reverse_cons] at hb
  exact ⟨hlen,hf,hb,h.nodup,h.data⟩

namespace World

variable [Inhabited α] {w w' : World α}

theorem represents_start (h : (machine α).start w) : Represents w.memory w.seqs := by
  obtain rfl : w=_ := h
  exact ⟨by simp,by simp [owned],by simp [Memory.dataOf]⟩

theorem represents_next {op : Op α} (h : Represents w.memory w.seqs)
    (hn : (machine α).next w op=some w') : Represents w'.memory w'.seqs := by
  change step w op=some w' at hn
  rw [step] at hn
  split_ifs at hn with hv
  obtain ⟨m₁,hm₁,rfl⟩ := Option.map_eq_some_iff.mp hn
  obtain ⟨m',hm',hr,_⟩ := h.run hv (Op.returns_of_run hm₁)
  obtain rfl := Option.some.inj (hm'.symm.trans hm₁)
  exact hr

theorem represents_of_reachable (h : (machine α).Reachable w) : Represents w.memory w.seqs :=
  h.invariant (fun _ h0 => represents_start h0) fun _ _ _ hi hn => represents_next hi hn

/-- The call returns, does to the sequences what the operation does, and leaves all other lists
alone. -/
def Serves (w : World α) (op : Op α) : Prop :=
  ∃ m', op.run w.memory=some m' ∧ (machine α).next w op=some ⟨m',op.apply w.seqs⟩ ∧
    ∀ o ∉ op.touched, op.apply w.seqs o=w.seqs o ∧ Kept w.memory m' w.seqs o

theorem Serves.returns {op : Op α} (h : w.Serves op) : op.Returns := by
  obtain ⟨m',hm',_⟩ := h
  exact Op.returns_of_run hm'

/-- In every run every list mirrors its sequence and no node is in two lists. Every valid call does
what it is to do if and only if it is no `erase`; the statements of that one are right, up to the
missing `return`. -/
theorem reachable_refines (h : (machine α).Reachable w) :
    (∀ o l, w.memory.lists o=some l → Mirrors w.memory l (w.seqs o)) ∧
    (∀ o o' l l', o ≠ o' → w.memory.lists o=some l → w.memory.lists o'=some l' →
      (chain l (w.seqs o)).Disjoint (chain l' (w.seqs o'))) ∧
    (∀ op, w.Valid op → (w.Serves op ↔ op.Returns)) ∧
    ∀ this pos, w.Valid (.erase this pos) → ∃ m', w.memory.eraseBody this pos=some m' ∧
      (∀ o l, m'.lists o=some l → Mirrors m' l ((Op.erase this pos).apply w.seqs o)) ∧
      ∀ o, o ≠ this → Kept w.memory m' w.seqs o := by
  have hr := represents_of_reachable h
  refine ⟨fun o l hl => (hr.held o l hl).mirrors,?_,?_,?_⟩
  · intro o o' l l' ho hl hl'
    rw [← owned_eq hl,← owned_eq hl']
    exact hr.apart o o' ho
  · intro op hv
    refine ⟨Serves.returns,fun hret => ?_⟩
    obtain ⟨m',hm',_,hk⟩ := hr.run hv hret
    refine ⟨m',hm',?_,fun o ho => ⟨Op.apply_of_not_mem ho,hk o ho⟩⟩
    change step w op=_
    rw [step,if_pos hv,hm',Option.map_some]
  · intro this pos hv
    obtain ⟨hc,hp⟩ := hv
    obtain ⟨l,hl⟩ := Option.isSome_iff_exists.mp hc
    obtain ⟨m',hm',hr',hk⟩ := hr.eraseBody hl hp
    exact ⟨m',hm',fun o l hl => (hr'.held o l hl).mirrors,hk⟩

/-- Two lists: the last element of one goes to the front of it, and then to the end of the
other. -/
theorem reachable_refines_two_lists :
    ∃ w : World Nat, (machine Nat).Reachable w ∧
      (w.seqs 8=[(7,70),(5,50)] ∧ w.seqs 9=[(6,60)]) ∧
      ∀ l, w.memory.lists 8=some l → Mirrors w.memory l [(7,70),(5,50)] := by
  obtain ⟨w,hw,h8,h9⟩ := Machine.reachable_of_runFrom (machine Nat)
    ⟨⟨fun _ => none,fun _ => none⟩,fun _ => []⟩
    [.construct 8 1 2,.construct 9 3 4,.emplaceBack 8 5 50,.emplaceBack 8 6 60,.emplace 8 5 7 70,
      .splice 8 7 8 6,.splice 9 4 8 6]
    (fun w => w.seqs 8=[(7,70),(5,50)] ∧ w.seqs 9=[(6,60)]) rfl (by decide)
  exact ⟨w,hw,⟨h8,h9⟩,fun l hl => h8 ▸ (reachable_refines hw).1 8 l hl⟩

/-- One element, and the `erase` of it. -/
theorem erase_never_returns : ∃ w : World Nat, (machine Nat).Reachable w ∧ w.seqs 8=[(5,50)] ∧
    w.Valid (.erase 8 5) ∧ ¬ w.Serves (.erase 8 5) := by
  obtain ⟨w,hw,hs,hv⟩ := Machine.reachable_of_runFrom (machine Nat)
    ⟨⟨fun _ => none,fun _ => none⟩,fun _ => []⟩ [.construct 8 1 2,.emplaceBack 8 5 50]
    (fun w => w.seqs 8=[(5,50)] ∧ w.Valid (.erase 8 5)) rfl (by decide)
  exact ⟨w,hw,hs,hv,fun h => h.returns⟩

end World

end Allocators.ListT
