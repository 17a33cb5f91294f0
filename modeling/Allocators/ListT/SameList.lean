import Allocators.ListT.Nodes
import Allocators.ListT.Refinement

/-! `splice` within one list. The position may be the element itself. -/

namespace Allocators.ListT

open Function Lib Links Sequence

variable {α : Type}

/-- `splice` does to the list at `this` what `std::list::splice` does to `s`. -/
def SplicesWithin (m : Memory α) (this pos it : Nat) (s : List (Nat × α)) : Prop :=
  ∃ l m' l', m.lists this=some l ∧ m.splice this pos this it=some m' ∧ m'.lists this=some l' ∧
    l'.mySize=l.mySize ∧ Mirrors m' l' (relocate pos it s) ∧ (relocate pos it s).Perm s ∧
    (pos=it ∨ m.nextOf it=some pos → relocate pos it s=s)

theorem Op.apply_splice_same {seqs : Nat → List (Nat × α)} {this pos it : Nat} (hne : pos ≠ it) :
    (Op.splice this pos this it).apply seqs this=relocate pos it (seqs this) := by
  rw [relocate,if_neg hne]
  cases hl : lookup it (seqs this) with
  | none => simp only [Op.apply,hl]
  | some e => simp only [Op.apply,hl,update_self]

theorem Holds.relocate_next {m : Memory α} {l : ListT} {s : List (Nat × α)} {it pos : Nat}
    (h : Holds m l s) (hit : it ∈ names s) (hpos : m.nextOf it=some pos) :
    relocate pos it s=s := by
  obtain ⟨lo,v,hi,pre,x,z,post,rfl,hsp,_,hnext⟩ := h.around hit
  obtain rfl : pos=z := Option.some.inj (hpos.symm.trans hnext)
  have hnd : (l.myHead :: (names lo ++ it :: pos :: post)).Nodup := by
    have hnd := h.nodup
    rw [hsp.chain_mid,List.append_cons,← hsp.before,List.cons_append] at hnd
    exact hnd
  apply Sequence.relocate_next v
  · grind
  · grind
  · intro e he
    cases hi with
    | nil => cases he
    | cons a hi =>
      obtain rfl := Option.some.inj he
      exact (List.cons.inj hsp.behind).1

/-- No node of a list comes after itself. -/
theorem Mirrors.nextOf_ne {m : Memory α} {l : ListT} {s : List (Nat × α)} {p : Nat}
    (h : Mirrors m l s) (hp : p ∈ names s) : m.nextOf p ≠ some p := by
  intro hself
  obtain ⟨lo,v,hi,rfl⟩ := exists_mid hp
  obtain ⟨pre,x,z,post,hsp⟩ := exists_split l lo hi
  have hnd := h.nodup
  have hstep : (chain l (lo ++ (p,v) :: hi)).IsChain fun a b => m.nextOf a=some b :=
    follow_isChain h.forward
  rw [hsp.chain_mid,List.append_cons] at hnd hstep
  obtain ⟨_,hpz,_⟩ := List.isChain_append_cons_cons.mp hstep
  obtain rfl : p=z := Option.some.inj (hself.symm.trans hpz)
  grind

namespace Represents

variable {m : Memory α} {seqs : Nat → List (Nat × α)} {this pos it : Nat} {l : ListT}

theorem splicesWithin (h : Represents m seqs) (hl : m.lists this=some l)
    (hp : pos ∈ names (seqs this) ++ [l.myEnd]) (hit : it ∈ names (seqs this)) (hne : pos ≠ it) :
    SplicesWithin m this pos it (seqs this) := by
  have hold := h.held this l hl
  obtain ⟨m',hm',hr,_⟩ := h.splice hl hp hl hit hne
  obtain ⟨l',hl',_⟩ := (Preserves.splice hm').exists_list hl
  have hnew := hr.held this l' hl'
  rw [Op.apply_splice_same hne] at hnew
  have hnd : (names (seqs this)).Nodup := hold.nodup.sublist (by simp [chain])
  have hperm : (relocate pos it (seqs this)).Perm (seqs this) := relocate_perm hnd
  refine ⟨l,m',l',hl,hm',hl',?_,hnew.mirrors,hperm,?_⟩
  · rw [hnew.size,hold.size]
    exact hperm.length_eq
  · rintro (hself | hnext)
    · exact absurd hself hne
    · exact hold.relocate_next hit hnext

/-- Before itself: the element is read as its own successor after its neighbours were told that it
left, and is linked to itself. The node before it still points at it. -/
theorem splice_self (h : Represents m seqs) (hl : m.lists this=some l)
    (hit : it ∈ names (seqs this)) :
    ∃ m' x, m.splice this it this it=some m' ∧ m.prevOf it=some x ∧
      m'.nextOf=update (update m.nextOf x (some it)) it (some it) := by
  have hold := h.held this l hl
  obtain ⟨lo,v,hi,pre,x,z,post,hs,hsp,hprev,hnext⟩ := hold.around hit
  have hc : chain l (seqs this)=pre ++ x :: it :: z :: post := hs ▸ hsp.chain_mid it v
  have hnd : (pre ++ x :: it :: z :: post).Nodup := hc ▸ hold.nodup
  have hxs := hold.allocated (p := x) (by simp [hc])
  have hits := hold.allocated (p := it) (by simp [hc])
  have hzs := hold.allocated (p := z) (by simp [hc])
  have hitz : it ≠ z := by grind
  obtain ⟨m₁,h1,b1⟩ := (Becomes.refl m).unlink hprev hnext hits hxs hzs
  obtain ⟨m₂,h2,b2⟩ := b1.setSize hl fun k => subSizeT k 1
  have hprev₂ : update m.prevOf z (some x) it=some x := (update_of_ne hitz ..).trans hprev
  obtain ⟨m₃,h3,b3⟩ := b2.insertAt hprev₂ hits hxs hits (update_self ..)
  refine ⟨m₃,x,?_,hprev,?_⟩
  · simp only [Memory.splice,h1,h2,h3,Option.bind_eq_bind,Option.bind_some]
  · rw [b3.next_eq,update_idem]

theorem not_splicesWithin_self (h : Represents m seqs) (hit : it ∈ names (seqs this)) :
    ¬ SplicesWithin m this it it (seqs this) := by
  rintro ⟨l,m',l',hl,hm',_,_,hmirrors,_,_⟩
  obtain ⟨m₁,x,h1,_,hnext⟩ := h.splice_self hl hit
  obtain rfl : m'=m₁ := Option.some.inj (hm'.symm.trans h1)
  rw [relocate,if_pos rfl] at hmirrors
  apply hmirrors.nextOf_ne hit
  rw [hnext,update_self]

end Represents

/-- The loop of `clear` does not return where `next` cannot get it to the end. -/
theorem Memory.clearLoop_closed {m : Memory α} {S : Set Nat} {myEnd it : Nat} (fuel : Nat)
    (hS : ∀ a ∈ S, ∀ b, m.nextOf a=some b → b ∈ S) (hend : myEnd ∉ S) (hit : it ∈ S) :
    clearLoop myEnd fuel m it=none := by
  induction fuel generalizing m it with
  | zero => rfl
  | succ fuel ih =>
    have hne : it ≠ myEnd := fun he => hend (he ▸ hit)
    rw [clearLoop,if_neg hne]
    cases hn : m.nodes it with
    | none => rfl
    | some node =>
      have hit' : node.next.getD it ∈ S := by
        cases hnext : node.next with
        | none => exact hit
        | some b => exact hS it hit b (by rw [nextOf,hn,Option.bind_some,hnext])
      simp only [delete,hn,Option.map_some,Option.bind_eq_bind,Option.bind_some]
      refine ih ?_ hit'
      intro a ha b hb
      by_cases hai : a=it
      · simp [nextOf,hai] at hb
      · apply hS a ha b
        simpa [nextOf,hai] using hb

/-- An element that was spliced before itself cuts its list off: from the head no number of steps
comes to the end, and `clear` does not return. -/
theorem Represents.splice_self_endless {m : Memory α} {seqs : Nat → List (Nat × α)} {this it : Nat}
    {l : ListT} (h : Represents m seqs) (hl : m.lists this=some l)
    (hit : it ∈ names (seqs this)) :
    ∃ m', m.splice this it this it=some m' ∧
      (∀ n ps, follow m'.nextOf n l.myHead=some ps → l.myEnd ∉ ps) ∧ m'.clear this=none := by
  have hold := h.held this l hl
  obtain ⟨m',x,hm',hx,hnext⟩ := h.splice_self hl hit
  obtain ⟨lo,v,hi,pre,x',z,post,hs,hsp,hprev,_⟩ := hold.around hit
  obtain rfl : x'=x := Option.some.inj (hprev.symm.trans hx)
  have hc : chain l (seqs this)=pre ++ x' :: it :: z :: post := hs ▸ hsp.chain_mid it v
  have hnd : (pre ++ x' :: it :: z :: post).Nodup := hc ▸ hold.nodup
  have hend : l.myEnd ∈ z :: post := hsp.behind ▸ List.mem_append_right _ (by simp)
  have hhead : l.myHead ∈ pre ++ [x'] := hsp.before ▸ List.mem_cons_self
  have hchain : (pre ++ [x']).IsChain fun a b => m.nextOf a=some b ∧ m.prevOf b=some a := by
    have hlink := hold.linked
    rw [hc] at hlink
    exact (linked_mid.mp hlink).1
  -- up to the element, `next` stays among the nodes up to the element
  have hS : ∀ a ∈ {a | a ∈ pre ++ [x',it]}, ∀ b, m'.nextOf a=some b →
      b ∈ {a | a ∈ pre ++ [x',it]} := by
    rw [hnext]
    exact mem_of_bent (hchain.imp fun a b h => h.1) it
  have hout : l.myEnd ∉ {a | a ∈ pre ++ [x',it]} := by
    intro hmem
    have hmem : l.myEnd ∈ pre ++ [x',it] := hmem
    grind
  have hin : l.myHead ∈ {a | a ∈ pre ++ [x',it]} := by
    have hhead : l.myHead ∈ pre ∨ l.myHead=x' := by simpa using hhead
    rcases hhead with hhead | hhead <;> simp [hhead]
  refine ⟨m',hm',?_,?_⟩
  · exact fun n ps hf hmem => hout (follow_subset hS hin hf _ hmem)
  · obtain ⟨l',hl',hsent⟩ := (Preserves.splice hm').exists_list hl
    obtain ⟨hhd,hed⟩ := Prod.mk.inj hsent
    rw [Memory.clear,hl']
    cases hn : m'.nodes l'.myHead with
    | none => simp [hn]
    | some node =>
      cases hnn : node.next with
      | none => simp [hn,hnn]
      | some begin =>
        have hbegin : begin ∈ {a | a ∈ pre ++ [x',it]} :=
          hS l.myHead hin begin (by rw [Memory.nextOf,← hhd,hn,Option.bind_some,hnn])
        have hloop := Memory.clearLoop_closed (l'.mySize+1) hS hout hbegin
        simp only [Option.bind_eq_bind,Option.bind_some,hn,hnn,hed,hloop,Option.bind_none]

namespace World

variable [Inhabited α] {w : World α} {this pos it : Nat}

/-- Within one list `splice` is `std::list::splice` for all positions but one. -/
theorem splice_within_iff (h : (machine α).Reachable w) (hp : w.Position this pos)
    (hit : it ∈ names (w.seqs this)) :
    SplicesWithin w.memory this pos it (w.seqs this) ↔ pos ≠ it := by
  have hr := represents_of_reachable h
  obtain ⟨l,hl,hp⟩ := hp
  constructor
  · rintro hw rfl
    exact hr.not_splicesWithin_self hit hw
  · exact hr.splicesWithin hl hp hit

/-- The last of three elements goes to the front. -/
theorem splice_within_three : ∃ w : World Nat, (machine Nat).Reachable w ∧
    w.seqs 8=[(5,50),(6,60),(7,70)] ∧ SplicesWithin w.memory 8 5 7 (w.seqs 8) := by
  obtain ⟨w,hw,hs,hp⟩ := Machine.reachable_of_runFrom (machine Nat)
    ⟨⟨fun _ => none,fun _ => none⟩,fun _ => []⟩
    [.construct 8 1 2,.emplaceBack 8 5 50,.emplaceBack 8 6 60,.emplaceBack 8 7 70]
    (fun w => w.seqs 8=[(5,50),(6,60),(7,70)] ∧ w.Position 8 5) rfl (by decide)
  have hit : 7 ∈ names (w.seqs 8) := by
    rw [hs]
    decide
  exact ⟨w,hw,hs,(splice_within_iff hw hp hit).mpr (by decide)⟩

/-- The first of two elements, spliced before itself. -/
theorem splice_within_fails : ∃ w : World Nat, (machine Nat).Reachable w ∧
    w.seqs 8=[(5,50),(6,60)] ∧ w.Position 8 5 ∧
    ¬ SplicesWithin w.memory 8 5 5 (w.seqs 8) := by
  obtain ⟨w,hw,hs,hp⟩ := Machine.reachable_of_runFrom (machine Nat)
    ⟨⟨fun _ => none,fun _ => none⟩,fun _ => []⟩
    [.construct 8 1 2,.emplaceBack 8 5 50,.emplaceBack 8 6 60]
    (fun w => w.seqs 8=[(5,50),(6,60)] ∧ w.Position 8 5) rfl (by decide)
  have hit : 5 ∈ names (w.seqs 8) := by
    rw [hs]
    decide
  exact ⟨w,hw,hs,hp,(represents_of_reachable hw).not_splicesWithin_self hit⟩

end World

end Allocators.ListT
