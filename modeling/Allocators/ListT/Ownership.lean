import Allocators.ListT.Allocation

/-! Who owns the nodes, over the whole life of the lists. -/

namespace Allocators.ListT

open Function Lib Links Sequence LifeEvent

variable {α : Type}

/-- The address at which an object is made. -/
def LifeOp.made : LifeOp α → Option Nat
  | .call (.construct this _ _) => some this
  | .moveConstruct this _ => some this
  | _ => none

namespace Estate

variable {w w' : Estate α} {op : LifeOp α} {this other p : Nat}

/-- The lists hold their sequences, and the log agrees with the memory. -/
structure Sound (w : Estate α) : Prop where
  represents : Represents w.heap.memory w.seqs
  consistent : w.heap.Consistent

/-- The nodes a move assignment finds in its target. -/
def dropped (w : Estate α) : LifeOp α → List Nat
  | .moveAssign this _ => owned w.heap.memory.lists w.seqs this
  | _ => []

/-- A list that has its sentinels is not one that was moved from. -/
theorem valid_call {op : Op α} (hv : w.Valid (.call op)) (hret : w.Returns (.call op)) :
    w.world.Valid op ∧ op.Returns := by
  cases op with
  | construct this myHead myEnd => exact ⟨hv.2,trivial⟩
  | emplace this it n data => exact ⟨hv.resolve_right fun hb => hb.1.2 hret,trivial⟩
  | emplaceBack this n data => exact ⟨hv.resolve_right fun hb => hb.1.2 hret,trivial⟩
  | erase this pos => exact hret.elim
  | clear this => exact ⟨hv.resolve_right fun hb => hb.2 hret,trivial⟩
  | splice this pos other it => exact ⟨hv.resolve_right fun hb => hb.1.2 hret,trivial⟩

theorem owned_of_not_living (h : ¬ w.Living this) : owned w.heap.memory.lists w.seqs this=[] := by
  have hnone : w.heap.objects this=none := by simpa [Living] using h
  simp [owned,Heap.memory,hnone]

/-- A list has no nodes if its head is null. -/
theorem Sound.dropped_eq_nil_iff (h : w.Sound) : w.dropped op=[] ↔ w.Spares op := by
  cases op with
  | moveAssign this other =>
    have hlists : w.heap.memory.lists this=(w.heap.objects this).bind Object.list? := rfl
    rw [dropped,Spares,owned,hlists]
    cases hx : w.heap.objects this with
    | none => simp
    | some x =>
      rw [Option.bind_some,Option.bind_some]
      cases hl : x.list? with
      | none => simp [(h.consistent.whole this x hx hl).1]
      | some l =>
        obtain rfl := Object.eq_ofList hl
        simp [chain,Object.ofList]
  | _ => simp [dropped,Spares]

theorem otherMove_memory (h : Heap α) (this : Nat) (hx : (h.objects other).isSome) :
    ∃ h', h.otherMove this other=some h' ∧ h'.memory.nodes=h.memory.nodes ∧
      h'.memory.lists=update (update h.memory.lists this (h.memory.lists other)) other none := by
  obtain ⟨x,hx⟩ := Option.isSome_iff_exists.mp hx
  set h₁ : Heap α := { h with objects := update h.objects this (some x) } with hh₁
  set h₂ : Heap α := { h₁ with
    objects := update h₁.objects other (some { x with myHead := none, myEnd := none }) } with hh₂
  refine ⟨h₂,?_,rfl,?_⟩
  · rw [Heap.otherMove,hx]
    rfl
  · have hlist : h.memory.lists other=x.list? := by simp [Heap.memory,hx]
    rw [hh₂,Heap.memory_setObject,hh₁,Heap.memory_setObject,hlist]
    rfl

theorem otherMove_none {h h' : Heap α} {o : Nat} (hr : h.otherMove this other=some h')
    (hne : o ≠ this) (ho : h.objects o=none) : h'.objects o=none := by
  obtain ⟨x,hx,hobj⟩ := Heap.otherMove_objects hr
  have hne' : o ≠ other := by
    rintro rfl
    cases ho.symm.trans hx
  rw [hobj,update_of_ne hne',update_of_ne hne,ho]

theorem Sound.call [Inhabited α] {op : Op α} (h : w.Sound) (hvalid : w.Valid (.call op))
    (hreturns : w.Returns (.call op)) :
    ∃ h', (LifeOp.call op).run w.heap=some h' ∧ Sound ⟨h',op.apply w.seqs⟩ ∧
      ∀ p, Loose h'.memory (op.apply w.seqs) p ↔ Loose w.heap.memory w.seqs p := by
  obtain ⟨hv,hret⟩ := valid_call hvalid hreturns
  obtain ⟨m',hm',hr,_⟩ := Represents.run (w := w.world) h.represents hv hret
  have hrun := Heap.call_memory (h := w.heap) op
  have hm' : op.run w.heap.memory=some m' := hm'
  rw [hm',Option.map_eq_some_iff] at hrun
  obtain ⟨h',hh',rfl⟩ := hrun
  exact ⟨h',hh',⟨hr,h.consistent.call hvalid hh'⟩,
    fun p => Represents.run_loose (w := w.world) h.represents hv hm'⟩

theorem Sound.move (h : w.Sound) (hne : this ≠ other) (hother : w.Living other) :
    ∃ h', w.heap.otherMove this other=some h' ∧
      Sound ⟨h',update (update w.seqs this (w.seqs other)) other []⟩ ∧
      ∀ p, Loose h'.memory (update (update w.seqs this (w.seqs other)) other []) p ↔
        Loose w.heap.memory w.seqs p ∨ p ∈ owned w.heap.memory.lists w.seqs this := by
  obtain ⟨h',hh',hnodes,hlists⟩ := otherMove_memory w.heap this hother
  exact ⟨h',hh',⟨h.represents.move hne hnodes hlists,h.consistent.otherMove hh'⟩,
    fun p => h.represents.move_loose hne hnodes hlists⟩

theorem Sound.destroy (h : w.Sound) (hthis : w.Living this) :
    ∃ h', w.heap.destroy this=some h' ∧ Sound ⟨h',update w.seqs this []⟩ ∧
      ∀ p, Loose h'.memory (update w.seqs this []) p ↔ Loose w.heap.memory w.seqs p := by
  obtain ⟨x,hx⟩ := Option.isSome_iff_exists.mp hthis
  have hlist : w.heap.memory.lists this=x.list? := by simp [Heap.memory,hx]
  obtain ⟨h',hh',hnodes⟩ := Heap.destroy_spec h.consistent hx
    fun l hl => h.represents.held this l (hlist.trans hl)
  have hobjects := Heap.destroy_objects hh'
  have hown : x.list?.elim [] (fun l => chain l (w.seqs this))=
      owned w.heap.memory.lists w.seqs this := by
    rw [owned,hlist]
    cases x.list? <;> rfl
  rw [hown] at hnodes
  have hlists : h'.memory.lists=update w.heap.memory.lists this none := by
    funext o
    by_cases ho : o=this
    · simp [Heap.memory,hobjects,ho]
    · simp [Heap.memory,hobjects,ho]
  obtain ⟨hr,hloose⟩ := h.represents.destroy hlists
    (fun p hp => (hnodes p).trans (if_pos hp)) fun p hp => (hnodes p).trans (if_neg hp)
  exact ⟨h',hh',⟨hr,h.consistent.destroy hh'⟩,hloose⟩

/-- There is no node at a null pointer. -/
theorem Sound.nodes_zero (h : w.Sound) : w.heap.nodes 0=none := by
  by_contra hn
  have hz : (w.heap.memory.dataOf 0).isSome := by
    obtain ⟨n,hn⟩ := Option.ne_none_iff_exists'.mp hn
    simp [Memory.dataOf,Heap.memory,hn]
  exact absurd (h.represents.bounded 0 hz).1 (Nat.lt_irrefl 0)

theorem insertAt_null {m : Memory α} (h : m.nodes 0=none) : m.insertAt this p 0=none := by
  simp [Memory.insertAt,h]

variable [Inhabited α]

theorem run_of_next (h : (machine α).next w op=some w') :
    w.Valid op ∧ op.run w.heap=some w'.heap := by
  change Estate.step w op=_ at h
  rw [Estate.step] at h
  split_ifs at h with hv
  obtain ⟨h',hr,rfl⟩ := Option.map_eq_some_iff.mp h
  exact ⟨hv,hr⟩

/-- No list object appears but the one that the call makes. -/
theorem objects_none_of_next {o : Nat} (hn : (machine α).next w op=some w')
    (ho : w.heap.objects o=none) (hm : op.made ≠ some o) : w'.heap.objects o=none := by
  obtain ⟨hv,hr⟩ := run_of_next hn
  cases op with
  | call op =>
    rcases Heap.Writes.call hv hr with hw | ⟨this,myHead,myEnd,h₁,rfl,h1,h2⟩
    · exact hw.objects_none ho
    · have hne : o ≠ this := fun he => hm (congrArg some he.symm)
      apply h2.objects_none
      exact (update_of_ne hne ..).trans (h1.objects_none ho)
  | moveConstruct this other =>
    have hne : o ≠ this := fun he => hm (congrArg some he.symm)
    exact otherMove_none hr hne ho
  | moveAssign this other =>
    obtain ⟨x,hx,hr⟩ := Option.bind_eq_some_iff.mp hr
    have hne : o ≠ this := by
      rintro rfl
      cases ho.symm.trans hx
    exact otherMove_none hr hne ho
  | destroy this =>
    rw [Heap.destroy_objects hr]
    by_cases hot : o=this
    · rw [hot,update_self]
    · rw [update_of_ne hot,ho]

theorem objects_none_of_runFrom {ops : List (LifeOp α)} {o : Nat}
    (hr : (machine α).runFrom w ops=some w') (ho : w.heap.objects o=none)
    (hm : o ∉ ops.filterMap LifeOp.made) : w'.heap.objects o=none := by
  induction ops generalizing w with
  | nil =>
    obtain rfl : w=w' := Option.some.inj hr
    exact ho
  | cons op ops ih =>
    obtain ⟨w₁,h1,h2⟩ := Option.bind_eq_some_iff.mp hr
    simp only [List.mem_filterMap,List.mem_cons,not_exists,not_and] at hm ih
    apply ih h2
    · exact objects_none_of_next h1 ho (hm op (.inl rfl))
    · exact fun op hop => hm op (.inr hop)

/-- Behind `erase` there is nothing, and a list that was moved from has no links to write to. -/
theorem Sound.run_eq_none (h : w.Sound) (hv : w.Valid op) (hret : ¬ w.Returns op) :
    op.run w.heap=none := by
  have hlists : ∀ {o}, ¬ w.world.Constructed o → w.heap.memory.lists o=none := fun hc => by
    simpa [World.Constructed,world] using hc
  cases op with
  | call op =>
    cases op with
    | construct this myHead myEnd => exact absurd trivial hret
    | emplace this it n data =>
      have hb := hv.resolve_left fun hw => hret ?_
      · obtain ⟨_,rfl,hn,hpos,_⟩ := hb
        have hz : (w.heap.constructNode n data).memory.nodes 0=none := by
          simpa [Heap.memory,Heap.constructNode,Nat.ne_of_lt hpos] using h.nodes_zero
        simp only [LifeOp.run,Heap.emplace,Heap.lift,insertAt_null hz,Option.map_none]
      · obtain ⟨⟨l,hl,_⟩,_⟩ := hw
        exact Option.isSome_of_mem hl
    | emplaceBack this n data =>
      have hl : (w.heap.constructNode n data).memory.lists this=none := hlists hret
      simp only [LifeOp.run,Heap.emplaceBack,Heap.lift,hl,Option.bind_eq_bind,Option.bind_none,
        Option.map_none]
    | erase this pos => exact Heap.erase_eq_none this pos
    | clear this =>
      simp [LifeOp.run,Heap.clear,hlists hret]
    | splice this pos other it =>
      have hb := hv.resolve_left fun hw => hret ?_
      · obtain ⟨_,rfl,_⟩ := hb
        rw [LifeOp.run,Heap.splice,Heap.lift,Option.map_eq_none_iff]
        refine Option.eq_none_iff_forall_ne_some.mpr fun m' hm' => ?_
        simp only [Memory.splice,Option.bind_eq_bind,Option.bind_eq_some_iff] at hm'
        obtain ⟨m₁,h1,m₂,h2,h3⟩ := hm'
        have hdata := ((Preserves.unlink h1).trans (.setSize h2)).data_eq
        have hz : m₂.nodes 0=none := by
          have := congrFun hdata 0
          simpa [Memory.dataOf,Heap.memory,h.nodes_zero] using this
        rw [insertAt_null hz] at h3
        cases h3
      · obtain ⟨⟨l,hl,_⟩,_⟩ := hw
        exact Option.isSome_of_mem hl
  | _ => exact absurd trivial hret

/-- Every valid call that returns loses no node unless it is a move assignment to a list that has
some. -/
theorem Sound.step (h : w.Sound) (hv : w.Valid op) (hret : w.Returns op) :
    ∃ h', (machine α).next w op=some ⟨h',op.apply w.seqs⟩ ∧ Sound ⟨h',op.apply w.seqs⟩ ∧
      ∀ p, Loose h'.memory (op.apply w.seqs) p ↔
        Loose w.heap.memory w.seqs p ∨ p ∈ w.dropped op := by
  have hnext : ∀ h', op.run w.heap=some h' →
      (machine α).next w op=some ⟨h',op.apply w.seqs⟩ := by
    intro h' hh'
    change Estate.step w op=_
    rw [Estate.step,if_pos hv,hh',Option.map_some]
  cases op with
  | call op =>
    obtain ⟨h',hh',hs,hl⟩ := h.call hv hret
    exact ⟨h',hnext h' hh',hs,fun p => (hl p).trans (or_iff_left List.not_mem_nil).symm⟩
  | moveConstruct this other =>
    obtain ⟨hthis,hother⟩ := hv
    have hne : this ≠ other := fun he => hthis (he ▸ hother)
    obtain ⟨h',hh',hs,hl⟩ := h.move hne hother
    rw [owned_of_not_living hthis] at hl
    exact ⟨h',hnext h' hh',hs,hl⟩
  | moveAssign this other =>
    obtain ⟨hne,hthis,hother⟩ := hv
    obtain ⟨h',hh',hs,hl⟩ := h.move hne hother
    obtain ⟨x,hx⟩ := Option.isSome_iff_exists.mp hthis
    refine ⟨h',hnext h' ?_,hs,hl⟩
    rw [LifeOp.run,Heap.moveAssign,hx,Option.bind_eq_bind,Option.bind_some,hh']
  | destroy this =>
    obtain ⟨h',hh',hs,hl⟩ := h.destroy hv
    exact ⟨h',hnext h' hh',hs,fun p => (hl p).trans (or_iff_left List.not_mem_nil).symm⟩

/-- A call is defined if and only if it returns. -/
theorem Sound.returns_of_next (h : w.Sound) (hn : (machine α).next w op=some w') :
    w.Returns op := by
  obtain ⟨hv,hr⟩ := run_of_next hn
  by_contra hret
  cases hr.symm.trans (h.run_eq_none hv hret)

/-- Over a run nodes are lost just where a move assignment finds some in its target. -/
theorem loose_iff_of_run {hist : List (Estate α × LifeOp α)} (r : (machine α).Run hist w) :
    w.Sound ∧ ((∀ p, ¬ Loose w.heap.memory w.seqs p) ↔ ∀ e ∈ hist, e.1.Spares e.2) := by
  induction r with
  | @start s h0 =>
    obtain rfl : s=_ := h0
    refine ⟨⟨⟨?_,?_,?_⟩,⟨⟨[],rfl,List.nodup_nil,?_⟩,?_⟩⟩,?_⟩
    · simp [Heap.memory]
    · simp [Heap.memory,owned]
    · simp [Heap.memory,Memory.dataOf]
    · simp
    · simp
    · simp [Loose,Heap.memory,Memory.dataOf]
  | @step hist s s' op r hn ih =>
    obtain ⟨hs,hiff⟩ := ih
    obtain ⟨h',hnext,hs',hl⟩ := hs.step (run_of_next hn).1 (hs.returns_of_next hn)
    obtain rfl := Option.some.inj (hnext.symm.trans hn)
    refine ⟨hs',?_⟩
    have hdrop : (∀ p, p ∉ s.dropped op) ↔ s.Spares op :=
      List.eq_nil_iff_forall_not_mem.symm.trans hs.dropped_eq_nil_iff
    simp only [hl,not_or,forall_and,List.forall_mem_cons,hiff,hdrop]
    exact and_comm

/-- The calls that are defined are all but `erase` and those that write to the links of a list that
was moved from. No node is ever deleted twice; when all lists are gone every node was deleted, if
and only if no move assignment was made to a list that had nodes. -/
theorem deleted_once_iff {hist : List (Estate α × LifeOp α)} (r : (machine α).Run hist w) :
    (∀ op, w.Valid op → ((∃ w', (machine α).next w op=some w') ↔ w.Returns op)) ∧
    (∃ alive, replay [] w.heap.log=some alive) ∧
    ((∀ o, w.heap.objects o=none) →
      (replay [] w.heap.log=some [] ↔ ∀ e ∈ hist, e.1.Spares e.2)) := by
  obtain ⟨hs,hiff⟩ := loose_iff_of_run r
  obtain ⟨alive,hr,_,hmem⟩ := hs.consistent.logged
  refine ⟨?_,⟨alive,hr⟩,?_⟩
  · intro op hv
    refine ⟨fun ⟨_,hn⟩ => hs.returns_of_next hn,fun hret => ?_⟩
    obtain ⟨h',hn,_⟩ := hs.step hv hret
    exact ⟨_,hn⟩
  · intro hnone
    have hloose : ∀ p, Loose w.heap.memory w.seqs p ↔ p ∈ alive := by
      intro p
      have hout : ∀ o, p ∉ owned w.heap.memory.lists w.seqs o := by
        intro o
        simp [owned,Heap.memory,hnone o]
      rw [hmem,Loose,and_iff_left hout]
      simp [Memory.dataOf,Heap.memory]
    rw [hr,Option.some.injEq,← hiff,List.eq_nil_iff_forall_not_mem]
    simp only [hloose]

/-- A run after which the objects it made are gone: no other list is there. -/
theorem exists_run {w : Estate α} (ops : List (LifeOp α)) (alive : List Nat)
    (h0 : (machine α).start w) (hr : ((machine α).runFrom w ops).any (fun w' => decide
      ((∀ o ∈ ops.filterMap LifeOp.made, w'.heap.objects o=none) ∧
        replay [] w'.heap.log=some alive))=true) :
    ∃ hist w', (machine α).Run hist w' ∧ (∀ o, w'.heap.objects o=none) ∧
      replay [] w'.heap.log=some alive := by
  obtain ⟨w',hw',hp⟩ := (Option.any_eq_true _ _).mp hr
  obtain ⟨hist,hrun⟩ := (Machine.Run.start h0).append hw'
  obtain ⟨hgone,hlog⟩ := of_decide_eq_true hp
  refine ⟨_,w',hrun,?_,hlog⟩
  intro o
  by_cases ho : o ∈ ops.filterMap LifeOp.made
  · exact hgone o ho
  · apply objects_none_of_runFrom hw' _ ho
    obtain rfl : w=_ := h0
    rfl

/-- A list is made, its nodes go to a second one, and both are destroyed. -/
theorem deleted_once_moved : ∃ (hist : List (Estate Nat × LifeOp Nat)) (w : Estate Nat),
    (machine Nat).Run hist w ∧ (∀ o, w.heap.objects o=none) ∧ ∀ e ∈ hist, e.1.Spares e.2 := by
  obtain ⟨hist,w,hr,hnone,hlog⟩ := exists_run (α := Nat)
    [.call (.construct 8 1 2),.moveConstruct 9 8,.destroy 8,.destroy 9] [] rfl (by decide)
  exact ⟨hist,w,hr,hnone,((deleted_once_iff hr).2.2 hnone).mp hlog⟩

/-- A list is assigned to another one by a move: the two sentinels of that one stay. And no step is
left at an `erase`, and at an `emplace_back` on a list that was moved from. -/
theorem deleted_once_fails :
    (∃ w : Estate Nat, (machine Nat).Reachable w ∧ (∀ o, w.heap.objects o=none) ∧
      replay [] w.heap.log=some [2,1]) ∧
    (∃ w : Estate Nat, (machine Nat).Reachable w ∧ w.Valid (.call (.erase 8 5)) ∧
      (machine Nat).next w (.call (.erase 8 5))=none) ∧
    ∃ w : Estate Nat, (machine Nat).Reachable w ∧ w.Valid (.call (.emplaceBack 8 5 50)) ∧
      (machine Nat).next w (.call (.emplaceBack 8 5 50))=none := by
  refine ⟨?_,?_,?_⟩
  · obtain ⟨hist,w,hr,hnone,hlog⟩ := exists_run (α := Nat)
      [.call (.construct 8 1 2),.call (.construct 9 3 4),.moveAssign 8 9,.destroy 8,.destroy 9] [2,1]
      rfl (by decide)
    exact ⟨w,⟨hist,hr⟩,hnone,hlog⟩
  · exact Machine.reachable_of_runFrom (machine Nat) ⟨⟨fun _ => none,fun _ => none,[]⟩,fun _ => []⟩
      [.call (.construct 8 1 2),.call (.emplaceBack 8 5 50)]
      (fun w => w.Valid (.call (.erase 8 5)) ∧ (machine Nat).next w (.call (.erase 8 5))=none)
      rfl (by decide)
  · exact Machine.reachable_of_runFrom (machine Nat) ⟨⟨fun _ => none,fun _ => none,[]⟩,fun _ => []⟩
      [.call (.construct 8 1 2),.moveConstruct 9 8]
      (fun w => w.Valid (.call (.emplaceBack 8 5 50)) ∧
        (machine Nat).next w (.call (.emplaceBack 8 5 50))=none)
      rfl (by decide)

end Estate

end Allocators.ListT
