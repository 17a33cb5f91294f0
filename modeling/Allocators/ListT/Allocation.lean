import Allocators.ListT.Heap
import Allocators.ListT.Nodes
import Mathlib.Logic.Relation

/-! What the functions do to the heap: to the links, to the log and to the list objects. -/

namespace Allocators.ListT

open Function Lib Links Sequence LifeEvent

variable {α : Type}

theorem Object.eq_ofList {x : Object} {l : ListT} (h : x.list?=some l) : x=.ofList l := by
  obtain ⟨_ | myHead,_ | myEnd,mySize⟩ := x
  · cases h
  · cases h
  · cases h
  · obtain rfl := Option.some.inj h
    rfl

namespace Heap

/-! With the log and the moved-from lists left out the functions are those of `Memory`. -/

section Memory

variable {h : Heap α}

@[simp] theorem memory_put (m : Memory α) : (h.put m).memory=m := by
  have hlists : (fun o => ((h.put m).objects o).bind Object.list?)=m.lists := by
    funext o
    cases hl : m.lists o with
    | some l => simp [put,hl,Object.ofList,Object.list?]
    | none =>
      cases ho : h.objects o with
      | none => simp [put,hl,ho]
      | some x => cases hx : x.list? <;> simp [put,hl,ho,hx,Option.filter]
  rw [memory,hlists]
  rfl

theorem lift_memory (f : Memory α → Option (Memory α)) : (h.lift f).map memory=f h.memory := by
  rw [lift,Option.map_map]
  cases f h.memory with
  | none => rfl
  | some m => simp

theorem delete_memory (p : Nat) : (h.delete p).map memory=h.memory.delete p := by
  rw [delete,Option.map_map,Memory.delete]
  rfl

theorem memory_setObject (this : Nat) (x : Option Object) :
    { h with objects := update h.objects this x }.memory=
      { h.memory with lists := update h.memory.lists this (x.bind Object.list?) } := by
  have hlists : (fun o => (update h.objects this x o).bind Object.list?)=
      update h.memory.lists this (x.bind Object.list?) := by
    funext o
    by_cases ho : o=this
    · simp [ho]
    · simp [ho,memory]
  rw [memory,hlists]
  rfl

theorem bind_memory {x : Option (Heap α)} {f : Heap α → Option (Heap α)}
    {g : Memory α → Option (Memory α)} (hf : ∀ h, (f h).map memory=g h.memory) :
    (x.bind f).map memory=(x.map memory).bind g := by
  cases x with
  | none => rfl
  | some h => exact hf h

theorem construct_memory [Inhabited α] (this myHead myEnd : Nat) :
    (h.construct this myHead myEnd).map memory=h.memory.construct this myHead myEnd := by
  rw [construct,lift_memory,memory_setObject]
  rfl

theorem erase_eq_none (this pos : Nat) : h.erase this pos=none := by
  simp [erase]

theorem erase_memory (this pos : Nat) : (h.erase this pos).map memory=h.memory.erase this pos := by
  rw [erase_eq_none]
  simp [Memory.erase]

theorem deleteLoop_memory (myEnd fuel it : Nat) :
    (h.deleteLoop (some myEnd) fuel it).map memory=Memory.clearLoop myEnd fuel h.memory it := by
  induction fuel generalizing h it with
  | zero => rfl
  | succ fuel ih =>
    rw [deleteLoop,Memory.clearLoop]
    by_cases hit : it=myEnd
    · rw [if_pos hit,if_pos (congrArg some hit)]
      rfl
    · rw [if_neg hit,if_neg fun he => hit (Option.some.inj he)]
      have hnodes : h.memory.nodes=h.nodes := rfl
      rw [hnodes]
      cases hn : h.nodes it with
      | none => rfl
      | some n =>
        simp only [Option.bind_eq_bind,Option.bind_some]
        rw [bind_memory (g := fun m => Memory.clearLoop myEnd fuel m (n.next.getD it)) fun _ => ih _,
          delete_memory]

theorem clear_memory (this : Nat) : (h.clear this).map memory=h.memory.clear this := by
  rw [clear,Memory.clear]
  cases h.memory.lists this with
  | none => rfl
  | some l =>
    have hnodes : h.memory.nodes=h.nodes := rfl
    simp only [Option.bind_eq_bind,Option.bind_some,hnodes]
    cases h.nodes l.myHead with
    | none => rfl
    | some n =>
      simp only [Option.bind_some]
      cases n.next with
      | none => rfl
      | some it =>
        simp only [Option.bind_some]
        rw [bind_memory fun _ => lift_memory _,deleteLoop_memory]

theorem splice_memory (this pos other it : Nat) :
    (h.splice this pos other it).map memory=h.memory.splice this pos other it := by
  rw [splice,lift_memory]

theorem emplaceBack_memory (this n : Nat) (data : α) :
    (h.emplaceBack this n data).map memory=h.memory.emplaceBack this n data := by
  rw [emplaceBack,lift_memory]
  rfl

theorem emplace_memory (this it n : Nat) (data : α) :
    (h.emplace this it n data).map memory=h.memory.emplace this it n data := by
  rw [emplace,lift_memory]
  rfl

/-- A call on elements is the one in the memory. -/
theorem call_memory [Inhabited α] (op : Op α) :
    ((LifeOp.call op).run h).map memory=op.run h.memory := by
  cases op with
  | construct this myHead myEnd => exact construct_memory this myHead myEnd
  | emplace this it n data => exact emplace_memory this it n data
  | emplaceBack this n data => exact emplaceBack_memory this n data
  | erase this pos => exact erase_memory this pos
  | clear this => exact clear_memory this
  | splice this pos other it => exact splice_memory this pos other it

end Memory

/-- One write: a node is made or deleted, or links and counters are set. -/
inductive Write : Heap α → Heap α → Prop
  | constructNode {h : Heap α} {n : Nat} (hn : h.nodes n=none) (v : α) :
    Write h (h.constructNode n v)
  | delete {h h' : Heap α} {p : Nat} (hd : h.delete p=some h') : Write h h'
  | links {h : Heap α} {m' : Memory α} (hp : Preserves h.memory m') : Write h (h.put m')

abbrev Writes : Heap α → Heap α → Prop := Relation.ReflTransGen Write

abbrev Deletes : Heap α → Heap α → Prop :=
  Relation.ReflTransGen fun h h' => ∃ p, h.delete p=some h'

namespace Deletes

variable {h h' : Heap α} {it : Nat}

theorem deletePtr {q : Option Nat} (hd : h.deletePtr q=some h') : Deletes h h' := by
  cases q with
  | none =>
    obtain rfl := Option.some.inj hd
    exact .refl
  | some p => exact .single ⟨p,hd⟩

theorem deleteLoop {last : Option Nat} {fuel : Nat} (hd : h.deleteLoop last fuel it=some h') :
    Deletes h h' := by
  induction fuel generalizing h it with
  | zero => cases hd
  | succ fuel ih =>
    rw [Heap.deleteLoop] at hd
    split_ifs at hd
    · obtain rfl := Option.some.inj hd
      exact .refl
    · simp only [Option.bind_eq_bind,Option.bind_eq_some_iff] at hd
      obtain ⟨n,_,h₁,h1,hd⟩ := hd
      exact (ih hd).head ⟨it,h1⟩

theorem destroyElements {x : Object} (hr : h.destroyElements x=some h') : Deletes h h' := by
  rw [Heap.destroyElements] at hr
  split at hr
  · obtain rfl := Option.some.inj hr
    exact .refl
  · split_ifs at hr
    · obtain rfl := Option.some.inj hr
      exact .refl
    · simp only [Option.bind_eq_bind,Option.bind_eq_some_iff] at hr
      obtain ⟨_,_,it,_,hr⟩ := hr
      exact deleteLoop hr

theorem objects_eq (hd : Deletes h h') : h'.objects=h.objects := by
  induction hd with
  | refl => rfl
  | tail _ hd ih =>
    obtain ⟨p,hd⟩ := hd
    obtain ⟨_,_,rfl⟩ := Option.map_eq_some_iff.mp hd
    exact ih

theorem writes (hd : Deletes h h') : Writes h h' := by
  induction hd with
  | refl => exact .refl
  | tail _ hd ih =>
    obtain ⟨p,hd⟩ := hd
    exact ih.tail (.delete hd)

end Deletes

namespace Writes

variable {h h' : Heap α} {this n p it o : Nat}

theorem lift {f : Memory α → Option (Memory α)}
    (hf : ∀ m', f h.memory=some m' → Preserves h.memory m') (hl : h.lift f=some h') :
    Writes h h' := by
  obtain ⟨m',hm',rfl⟩ := Option.map_eq_some_iff.mp hl
  exact .single (.links (hf m' hm'))

theorem emplace {data : α} (hn : h.nodes n=none) (hr : h.emplace this it n data=some h') :
    Writes h h' := by
  rw [Heap.emplace] at hr
  exact (lift (fun m' hm' => .insertAt hm') hr).head (.constructNode hn data)

theorem emplaceBack {data : α} (hn : h.nodes n=none) (hr : h.emplaceBack this n data=some h') :
    Writes h h' := by
  rw [Heap.emplaceBack] at hr
  refine (lift ?_ hr).head (.constructNode hn data)
  intro m' hm'
  obtain ⟨l,_,hm'⟩ := Option.bind_eq_some_iff.mp hm'
  exact .insertAt hm'

theorem splice {pos other : Nat} (hr : h.splice this pos other it=some h') : Writes h h' := by
  rw [Heap.splice] at hr
  exact lift (fun m' hm' => .splice hm') hr

theorem clear (hr : h.clear this=some h') : Writes h h' := by
  simp only [Heap.clear,Option.bind_eq_bind,Option.bind_eq_some_iff] at hr
  obtain ⟨l,_,_,_,it,_,h₁,h1,hr⟩ := hr
  apply (Deletes.deleteLoop h1).writes.trans
  apply lift ?_ hr
  intro m' hm'
  simp only [Option.bind_eq_some_iff] at hm'
  obtain ⟨m₁,h1,m₂,h2,h3⟩ := hm'
  exact ((Preserves.setSize h1).trans (.setNext h2)).trans (.setPrev h3)

/-- The two sentinels are made, then the object, and then the links are set. -/
theorem construct [Inhabited α] {myHead myEnd : Nat} (hhead : h.nodes myHead=none)
    (hend : h.nodes myEnd=none) (hne : myHead ≠ myEnd)
    (hr : h.construct this myHead myEnd=some h') :
    ∃ h₁, Writes h h₁ ∧
      Writes { h₁ with objects := update h₁.objects this (some ⟨some myHead,some myEnd,0⟩) } h' := by
  have hend' : (h.constructNode myHead default).nodes myEnd=none := by
    simpa [Heap.constructNode,Ne.symm hne] using hend
  rw [Heap.construct] at hr
  refine ⟨_,.tail (.single (.constructNode hhead default)) (.constructNode hend' default),
    lift ?_ hr⟩
  intro m' hm'
  simp only [Option.bind_eq_bind,Option.bind_eq_some_iff] at hm'
  obtain ⟨m₁,h1,m₂,h2,m₃,h3,h4⟩ := hm'
  exact (((Preserves.setNext h1).trans (.setPrev h2)).trans (.setNext h3)).trans (.setPrev h4)

/-- A call on elements is a row of writes; that of the constructor has the object in it. -/
theorem call [Inhabited α] {seqs : Nat → List (Nat × α)} {op : Op α}
    (hv : Estate.Valid ⟨h,seqs⟩ (.call op)) (hr : (LifeOp.call op).run h=some h') :
    Writes h h' ∨ ∃ this myHead myEnd h₁, op=.construct this myHead myEnd ∧ Writes h h₁ ∧
      Writes { h₁ with objects := update h₁.objects this (some ⟨some myHead,some myEnd,0⟩) } h' := by
  cases op with
  | construct this myHead myEnd =>
    obtain ⟨_,_,⟨hhead,_⟩,⟨hend,_⟩,hne⟩ := hv
    obtain ⟨h₁,hw⟩ := construct hhead hend hne hr
    exact .inr ⟨this,myHead,myEnd,h₁,rfl,hw⟩
  | emplace this it n data =>
    obtain ⟨_,hn,_⟩ | ⟨_,_,hn,_⟩ := hv
    · exact .inl (emplace hn hr)
    · exact .inl (emplace hn hr)
  | emplaceBack this n data =>
    obtain ⟨_,hn,_⟩ | ⟨_,hn,_⟩ := hv
    · exact .inl (emplaceBack hn hr)
    · exact .inl (emplaceBack hn hr)
  | erase this pos => exact absurd hr (by simp [LifeOp.run,erase_eq_none])
  | clear this => exact .inl (clear hr)
  | splice this pos other it => exact .inl (splice hr)

/-- No list object appears. -/
theorem objects_none (hw : Writes h h') (ho : h.objects o=none) : h'.objects o=none := by
  induction hw with
  | refl => exact ho
  | @tail h₁ h₂ _ hw ih =>
    cases hw with
    | constructNode => exact ih
    | delete hd =>
      obtain ⟨_,_,rfl⟩ := Option.map_eq_some_iff.mp hd
      exact ih
    | @links m' hp =>
      have hnone : m'.lists o=none := by
        have hsent := hp.sentinels_eq o
        simpa [memory,ih] using hsent
      simp [put,hnone,ih]

end Writes

/-- The log leaves just the allocated nodes alive, and a list has both sentinels or neither. -/
structure Consistent (h : Heap α) : Prop where
  logged : ∃ alive, replay [] h.log=some alive ∧ alive.Nodup ∧ ∀ p, p ∈ alive ↔ (h.nodes p).isSome
  whole : ∀ o x, h.objects o=some x → x.list?=none → x.myHead=none ∧ x.myEnd=none

namespace Consistent

variable {h h' : Heap α} {this n p : Nat}

theorem constructNode (hc : h.Consistent) (hn : h.nodes n=none) (v : α) :
    (h.constructNode n v).Consistent := by
  obtain ⟨alive,hr,hnd,hmem⟩ := hc.logged
  have hout : n ∉ alive := by
    rw [hmem,hn]
    simp
  refine ⟨⟨n :: alive,?_,List.nodup_cons.mpr ⟨hout,hnd⟩,?_⟩,hc.whole⟩
  · apply replay_trans hr
    rw [replay_cons,after,if_neg hout]
    rfl
  · intro p
    by_cases hp : p=n
    · simp [Heap.constructNode,hp]
    · simp [Heap.constructNode,hp,hmem]

theorem delete (hc : h.Consistent) (hd : h.delete p=some h') : h'.Consistent := by
  obtain ⟨n,hn,rfl⟩ := Option.map_eq_some_iff.mp hd
  obtain ⟨alive,hr,hnd,hmem⟩ := hc.logged
  have hin : p ∈ alive := by
    rw [hmem,hn]
    rfl
  refine ⟨⟨alive.erase p,?_,hnd.erase p,?_⟩,hc.whole⟩
  · apply replay_trans hr
    rw [replay_cons,after,if_pos hin]
    rfl
  · intro q
    rw [hnd.mem_erase_iff,hmem]
    by_cases hq : q=p
    · simp [hq]
    · simp [hq]

theorem links {m' : Memory α} (hc : h.Consistent) (hp : Preserves h.memory m') :
    (h.put m').Consistent := by
  obtain ⟨alive,hr,hnd,hmem⟩ := hc.logged
  refine ⟨⟨alive,hr,hnd,?_⟩,?_⟩
  · intro p
    have hp : (m'.nodes p).isSome=(h.nodes p).isSome := by
      have := congrArg Option.isSome (congrFun hp.data_eq p)
      simpa [Memory.dataOf,memory] using this
    rw [hmem,← hp]
    rfl
  · intro o x hx hnone
    cases hlist : m'.lists o with
    | some l =>
      have hx : some (Object.ofList l)=some x := by simpa [put,hlist] using hx
      rw [← Option.some.inj hx] at hnone
      cases hnone
    | none =>
      have hx : (h.objects o).filter (fun x => x.list?.isNone)=some x := by
        simpa [put,hlist] using hx
      exact hc.whole o x (Option.filter_eq_some_iff.mp hx).1 hnone

theorem writes (hc : h.Consistent) (hw : Writes h h') : h'.Consistent := by
  induction hw with
  | refl => exact hc
  | tail _ hw ih =>
    cases hw with
    | constructNode hn v => exact ih.constructNode hn v
    | delete hd => exact ih.delete hd
    | links hp => exact ih.links hp

theorem setObject (hc : h.Consistent) (this : Nat) {x : Option Object}
    (hx : ∀ y, x=some y → y.list?=none → y.myHead=none ∧ y.myEnd=none) :
    { h with objects := update h.objects this x }.Consistent := by
  refine ⟨hc.logged,?_⟩
  intro o y hy
  by_cases ho : o=this
  · exact hx y (by simpa [ho] using hy)
  · exact hc.whole o y (by simpa [ho] using hy)

theorem call [Inhabited α] {seqs : Nat → List (Nat × α)} {op : Op α} (hc : h.Consistent)
    (hv : Estate.Valid ⟨h,seqs⟩ (.call op)) (hr : (LifeOp.call op).run h=some h') :
    h'.Consistent := by
  rcases Writes.call hv hr with hw | ⟨this,myHead,myEnd,h₁,_,h1,h2⟩
  · exact hc.writes hw
  · refine ((hc.writes h1).setObject this ?_).writes h2
    intro y hy hnone
    rw [← Option.some.inj hy] at hnone
    cases hnone

theorem otherMove {other : Nat} (hc : h.Consistent) (hr : h.otherMove this other=some h') :
    h'.Consistent := by
  simp only [Heap.otherMove,Option.bind_eq_bind,Option.bind_eq_some_iff,Option.some.injEq] at hr
  obtain ⟨x,hx,rfl⟩ := hr
  refine (hc.setObject this ?_).setObject other ?_
  · intro y hy
    exact Option.some.inj hy ▸ hc.whole other x hx
  · intro y hy _
    rw [← Option.some.inj hy]
    exact ⟨rfl,rfl⟩

end Consistent

theorem otherMove_objects {h h' : Heap α} {this other : Nat} (hr : h.otherMove this other=some h') :
    ∃ x, h.objects other=some x ∧ h'.objects=update (update h.objects this (some x)) other
      (some { x with myHead := none, myEnd := none }) := by
  simp only [otherMove,Option.bind_eq_bind,Option.bind_eq_some_iff,Option.some.injEq] at hr
  obtain ⟨x,hx,rfl⟩ := hr
  exact ⟨x,hx,rfl⟩

section Destroy

variable {h h' : Heap α} {this p : Nat} {l : ListT} {x : Object} {s : List (Nat × α)}

/-- The destructor deletes nodes, and then the object is gone. -/
theorem destroy_deletes (hr : h.destroy this=some h') :
    ∃ h₁, Deletes h h₁ ∧ h'={ h₁ with objects := update h₁.objects this none } := by
  simp only [destroy,Option.bind_eq_bind,Option.bind_eq_some_iff,Option.some.injEq] at hr
  obtain ⟨x,_,h₁,h1,h₂,h2,h₃,h3,rfl⟩ := hr
  have hd := (Deletes.destroyElements h1).trans (Deletes.deletePtr h2)
  exact ⟨h₃,hd.trans (Deletes.deletePtr h3),rfl⟩

theorem Consistent.destroy (hc : h.Consistent) (hr : h.destroy this=some h') :
    h'.Consistent := by
  obtain ⟨h₁,h1,rfl⟩ := destroy_deletes hr
  exact (hc.writes h1.writes).setObject this fun y hy => by cases hy

theorem destroy_objects (hr : h.destroy this=some h') :
    h'.objects=update h.objects this none := by
  obtain ⟨h₁,h1,rfl⟩ := destroy_deletes hr
  exact congrArg (fun f => update f this none) h1.objects_eq

theorem destroyElements_ofList : h.destroyElements (.ofList l)=
    if l.mySize=0 then some h
    else (h.nodes l.myHead).bind fun n => n.next.bind fun it =>
      h.deleteLoop (some l.myEnd) (l.mySize+1) it := rfl

theorem destroy_ofList (hx : h.objects this=some (.ofList l)) : h.destroy this=
    (h.destroyElements (.ofList l)).bind fun h => (h.delete l.myHead).bind fun h =>
      (h.delete l.myEnd).bind fun h =>
        some { h with objects := update h.objects this none } := by
  rw [destroy,hx]
  rfl

/-- The loop deletes all nodes between the sentinels. -/
theorem destroyElements_spec (hh : Holds h.memory l s) :
    ∃ h₁, h.destroyElements (.ofList l)=some h₁ ∧
      (∀ p ∈ names s, h₁.nodes p=none) ∧ ∀ p ∉ names s, h₁.nodes p=h.nodes p := by
  have hlen : (names s).length=l.mySize := (length_names s).trans hh.size.symm
  by_cases h0 : l.mySize=0
  · have hnil : names s=[] := List.eq_nil_of_length_eq_zero (hlen.trans h0)
    refine ⟨h,?_,?_,fun _ _ => rfl⟩
    · rw [destroyElements_ofList,if_pos h0]
    · simp [hnil]
  · obtain ⟨it,post,hit⟩ : ∃ it post, names s ++ [l.myEnd]=it :: post :=
      List.exists_cons_of_ne_nil (by simp)
    have hlink : Linked h.memory.nextOf h.memory.prevOf (l.myHead :: (names s ++ [l.myEnd])) :=
      hh.linked
    have hnd := (List.nodup_cons.mp hh.nodup).2
    have hnext : h.memory.nextOf l.myHead=some it := by
      rw [hit] at hlink
      exact (List.isChain_cons_cons.mp hlink).1.1
    obtain ⟨n,hn,hnn⟩ := Option.bind_eq_some_iff.mp hnext
    have hfirst : (names s ++ [l.myEnd]).head?=some it := by rw [hit,List.head?_cons]
    obtain ⟨m',hm',_,hgone,hrest⟩ := Memory.clearLoop_spec (l.mySize+1) (List.IsChain.tail hlink) hnd
      (by omega) hfirst
    rw [← deleteLoop_memory,Option.map_eq_some_iff] at hm'
    obtain ⟨h₁,h1,rfl⟩ := hm'
    refine ⟨h₁,?_,hgone,hrest⟩
    have hn : h.nodes l.myHead=some n := hn
    rw [destroyElements_ofList,if_neg h0,hn,Option.bind_some,hnn,Option.bind_some,h1]

theorem delete_eq (hp : (h.nodes p).isSome) : h.delete p=
    some { h with nodes := update h.nodes p none, log := h.log ++ [.destroy p] } := by
  obtain ⟨n,hn⟩ := Option.isSome_iff_exists.mp hp
  rw [delete,hn,Option.map_some]

/-- The destructor deletes all nodes of the list, and no others. -/
theorem destroy_spec (hc : h.Consistent) (hx : h.objects this=some x)
    (held : ∀ l, x.list?=some l → Holds h.memory l s) :
    ∃ h', h.destroy this=some h' ∧
      ∀ p, h'.nodes p=if p ∈ x.list?.elim [] (fun l => chain l s) then none else h.nodes p := by
  cases hl : x.list? with
  | none =>
    obtain ⟨hhead,hend⟩ := hc.whole this x hx hl
    refine ⟨{ h with objects := update h.objects this none },?_,?_⟩
    · simp only [destroy,hx,destroyElements,hhead,hend,deletePtr,Option.bind_eq_bind,
        Option.bind_some]
    · intro p
      simp
  | some l =>
    have hh := held l hl
    obtain rfl := Object.eq_ofList hl
    obtain ⟨h₁,h1,hgone,hrest⟩ := destroyElements_spec hh
    have hnd := hh.nodup
    rw [chain,List.nodup_cons,List.mem_append,List.mem_singleton,not_or] at hnd
    obtain ⟨⟨hheadn,hne⟩,hnd⟩ := hnd
    have hendn : l.myEnd ∉ names s := fun hm => (List.nodup_append.mp hnd).2.2 _ hm _ (by simp) rfl
    have halloc : ∀ p, p ∈ chain l s → (h.nodes p).isSome := by
      intro p hp
      have := hh.allocated hp
      simpa [Memory.dataOf,memory] using this
    have hhead : (h₁.nodes l.myHead).isSome := by
      rw [hrest _ hheadn]
      exact halloc _ (mem_chain.mpr (.inl rfl))
    have h2 := delete_eq hhead
    set h₂ : Heap α := { h₁ with
      nodes := update h₁.nodes l.myHead none, log := h₁.log ++ [.destroy l.myHead] } with hh₂
    have hend : (h₂.nodes l.myEnd).isSome := by
      rw [hh₂]
      dsimp only
      rw [update_of_ne (Ne.symm hne),hrest _ hendn]
      exact halloc _ (mem_chain.mpr (.inr (.inl rfl)))
    have h3 := delete_eq hend
    set h₃ : Heap α := { h₂ with
      nodes := update h₂.nodes l.myEnd none, log := h₂.log ++ [.destroy l.myEnd] } with hh₃
    refine ⟨{ h₃ with objects := update h₃.objects this none },?_,?_⟩
    · rw [destroy_ofList hx,h1,Option.bind_some,h2,Option.bind_some,h3,Option.bind_some]
    · intro p
      simp only [Option.elim_some,mem_chain]
      by_cases hpe : p=l.myEnd
      · simp [hh₃,hpe]
      · by_cases hph : p=l.myHead
        · simp [hh₃,hh₂,hph,hne]
        · by_cases hpn : p ∈ names s
          · simp [hh₃,hh₂,hpe,hph,hpn,hgone p hpn]
          · simp [hh₃,hh₂,hpe,hph,hpn,hrest p hpn]

end Destroy

end Heap

end Allocators.ListT
