import Allocators.SlabMulti.Client
import Allocators.SlabMulti.Dispatcher

/-! What is left of a cache when `getBlock` throws while it grows. -/

namespace Allocators.SlabMulti

open Lib Vector

/-- The call that threw left no trace: the vectors and the iterators are in step, the counters
stand, and the active slab has the indices it had. -/
structure Cache.Unharmed (c c' : Cache) : Prop where
  lengths : c'.slabs.length=c'.ptrs.length
  counters : c'.mySize=c.mySize ∧ c'.myCapacity=c.myCapacity
  iterators : c'.actBlock=c'.actMem ∧ c'.actBlock < c'.slabs.length
  available : ∀ slab, c.slabs[c.actBlock]?=some slab →
    ∃ slab', c'.slabs[c'.actBlock]?=some slab' ∧ slab'.availible.Perm slab.availible

section Refused

variable {δ : Type} [Dispatch δ] {d d' : δ} {c c' : Cache}

/-- The growth that `getBlock` refused: the new slab is there, its memory is not. -/
theorem possiblyFull_refused (h : Cache.possiblyFull d c=some (d',c',false)) :
    ∃ slab availible, c.slabs[c.actBlock]?=some slab ∧ slab.full=true ∧ c.actBlock=0 ∧
      Dispatch.getIndicies d c.blockSize=some availible ∧ Dispatch.getBlock d=(none,d') ∧
      c'={ c with slabs := c.slabs ++ [⟨c.blockSize,c.count,availible,[]⟩] } := by
  rw [Cache.possiblyFull] at h
  cases hs : c.slabs[c.actBlock]? with
  | none => simp [hs] at h
  | some slab =>
    simp only [hs] at h
    split_ifs at h with hf h0
    · simp at h
    · simp at h
    · rw [Cache.addCache] at h
      cases hi : Dispatch.getIndicies d c.blockSize with
      | none => simp [hi] at h
      | some availible =>
        simp only [hi] at h
        rcases hb : Dispatch.getBlock d with ⟨mem,d1⟩
        rw [hb] at h
        cases mem with
        | none =>
          obtain ⟨rfl,hc⟩ := Prod.mk.inj (Option.some.inj h)
          obtain ⟨rfl,_⟩ := Prod.mk.inj hc
          exact ⟨slab,availible,rfl,by simpa using hf,by simpa using h0,rfl,rfl,rfl⟩
        | some mem => simp at h

/-- An `allocate` that throws has taken the last index of the active slab. -/
theorem allocate_refused (h : c.allocate d=some (d',c',none)) :
    ∃ slab idx availible, c.slabs[c.actBlock]?=some slab ∧ slab.availible=[idx] ∧
      slab.foreigns=[] ∧ c.actBlock=0 ∧ Dispatch.getIndicies d c.blockSize=some availible ∧
      Dispatch.getBlock d=(none,d') ∧
      c'={ c with slabs := c.slabs.set c.actBlock { slab with availible := [] } ++
        [⟨c.blockSize,c.count,availible,[]⟩] } := by
  rw [Cache.allocate] at h
  cases hs : c.slabs[c.actBlock]? with
  | none => simp [hs] at h
  | some slab =>
    cases hp : c.ptrs[c.actMem]? with
    | none => simp [hs,hp] at h
    | some mem =>
      simp only [hs,hp] at h
      rcases List.eq_nil_or_concat' slab.availible with hnil | ⟨availible,idx,he⟩
      · simp [Slab.allocate,hnil] at h
      · have hlt := (List.getElem?_eq_some_iff.mp hs).1
        simp only [Slab.allocate,he,List.getLast?_concat,List.dropLast_concat] at h
        by_cases hnil : availible=[]
        · subst hnil
          rw [List.isEmpty_nil,if_pos rfl] at h
          cases hq : Cache.possiblyFull d
              { c with slabs := c.slabs.set c.actBlock { slab with availible := [] } } with
          | none => simp [hq] at h
          | some x =>
            obtain ⟨d1,c1,ok⟩ := x
            cases ok with
            | true => simp [hq] at h
            | false =>
              simp only [hq] at h
              obtain ⟨rfl,hc⟩ := Prod.mk.inj (Option.some.inj h)
              obtain ⟨rfl,_⟩ := Prod.mk.inj hc
              obtain ⟨slab',availible,hs',hfull,h0,hi,hb,hc1⟩ := possiblyFull_refused hq
              simp only [List.getElem?_set_self hlt] at hs'
              obtain rfl := Option.some.inj hs'
              exact ⟨slab,idx,availible,rfl,by simpa using he,by simpa [Slab.full] using hfull,h0,hi,
                hb,hc1⟩
        · have hb : availible.isEmpty=false := by simpa using hnil
          simp [hb] at h

/-- No call in which `getBlock` throws leaves the cache as it was. -/
theorem refused_growth_harms (h : c.allocate d=some (d',c',none)) : ¬ c.Unharmed c' := by
  obtain ⟨slab,idx,availible,hs,he,_,_,_,_,rfl⟩ := allocate_refused h
  intro hu
  have hlt := (List.getElem?_eq_some_iff.mp hs).1
  obtain ⟨slab',hs',hp⟩ := hu.available slab hs
  simp only at hs'
  rw [List.getElem?_append_left (by simpa using hlt),List.getElem?_set_self hlt] at hs'
  obtain rfl := Option.some.inj hs'
  rw [he] at hp
  simpa using hp.length_eq

/-- The next `allocate` then takes an index from an empty list. -/
theorem allocate_of_refused (h : c.allocate d=some (d',c',none)) {ε : Type} [Dispatch ε] (e : ε) :
    c'.allocate e=none := by
  obtain ⟨slab,idx,availible,hs,he,_,_,_,_,rfl⟩ := allocate_refused h
  have hlt := (List.getElem?_eq_some_iff.mp hs).1
  have hs' : (c.slabs.set c.actBlock { slab with availible := [] } ++
      [⟨c.blockSize,c.count,availible,[]⟩])[c.actBlock]?=some { slab with availible := [] } := by
    rw [List.getElem?_append_left (by simpa using hlt),List.getElem?_set_self hlt]
  simp only [Cache.allocate,hs']
  cases c.ptrs[c.actMem]? with
  | none => rfl
  | some mem => rfl

end Refused

/-- The dispatcher that has handed out all blocks, over a heap without memory. -/
def GlobalDispatch.exhausted : GlobalDispatch := ⟨⟨[],[],[]⟩,[],0⟩

/-- Two slabs of two blocks, all of them in use: the call that would add a third. -/
theorem refused_growth_harms_full :
    ∃ (k : Client) (d' : GlobalDispatch) (c : Cache),
      (Client.machine 2 8192 fun _ => True).Reachable k ∧ k.cache.ptrs=[65536,16384] ∧
      k.cache.allocate GlobalDispatch.exhausted=some (d',c,none) ∧ ¬ k.cache.Unharmed c := by
  obtain ⟨k,hr,hp,hn⟩ := Machine.reachable_of_runFrom (Client.machine 2 8192 fun _ => True)
    ⟨(Client.first 2 8192 16384).cache,[]⟩ [.allocate 0,.allocate 65536,.allocate 0]
    (fun k => k.cache.ptrs=[65536,16384] ∧
      ((k.cache.allocate GlobalDispatch.exhausted).any fun x => x.2.2.isNone)=true)
    ⟨16384,_,Client.make_eq 2 8192 16384,rfl⟩ (by decide)
  obtain ⟨⟨d',c,ptr⟩,h,hx⟩ := (Option.any_eq_true _ _).mp hn
  obtain rfl : ptr=none := Option.isNone_iff_eq_none.mp hx
  exact ⟨k,d',c,hr,hp,h,refused_growth_harms h⟩

/-- The first slab, of two blocks, and its second allocation: a slab without memory stays behind. -/
theorem refused_growth_leaves_slab :
    ∃ (k : Client) (d' : GlobalDispatch) (c : Cache),
      (Client.machine 2 8192 fun _ => True).Reachable k ∧
      k.cache.allocate GlobalDispatch.exhausted=some (d',c,none) ∧
      (c.slabs.length=2 ∧ c.ptrs.length=1) ∧ ¬ k.cache.Unharmed c := by
  obtain ⟨k,hr,hn⟩ := Machine.reachable_of_runFrom (Client.machine 2 8192 fun _ => True)
    ⟨(Client.first 2 8192 16384).cache,[]⟩ [.allocate 0]
    (fun k => ((k.cache.allocate GlobalDispatch.exhausted).any fun x =>
      x.2.2.isNone && decide (x.2.1.slabs.length=2 ∧ x.2.1.ptrs.length=1))=true)
    ⟨16384,_,Client.make_eq 2 8192 16384,rfl⟩ (by decide)
  obtain ⟨⟨d',c,ptr⟩,h,hx⟩ := (Option.any_eq_true _ _).mp hn
  obtain ⟨hnone,hlen⟩ := Bool.and_eq_true_iff.mp hx
  obtain rfl : ptr=none := Option.isNone_iff_eq_none.mp hnone
  have hl := of_decide_eq_true hlen
  refine ⟨k,d',c,hr,h,hl,?_⟩
  intro hu
  have := hu.lengths
  simp only at hl
  omega

end Allocators.SlabMulti
