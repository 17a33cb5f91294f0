import Allocators.SlabMulti.Interleaving

/-! What holds of threads whose calls overlap, and that a call without others is that of
`Interface`. -/

namespace Allocators.SlabMulti

open Lib Vector Extent

namespace Crowd

variable {T : Type} [DecidableEq T] {w w' : Crowd T} {id t : T} {e : Loan T}

theorem sane_start (h : (machine T).start w) : Sane w := by
  obtain ⟨answers,d,hm,rfl⟩ := h
  have h0 : Routing.Tidy (⟨d,[]⟩ : Interface T) [] [] :=
    Routing.tidy_start (w := ⟨⟨d,[]⟩,[],[]⟩) ⟨answers,d,hm,rfl⟩
  obtain ⟨_,hblocks⟩ := GlobalDispatch.requestMem_carved (d := ⟨⟨answers,[],[]⟩,[],0⟩) _
    (by simp) hm
  exact ⟨⟨h0,hblocks,by simp,by simp [Routing.large]⟩,by simp,fun _ => trivial,
    by simp [Phase.frees],by simp,rfl⟩

theorem reachable_sane (h : (machine T).Reachable w) : Sane w := by
  have h0 : ∀ s, (machine T).start s → Sane s := fun _ => sane_start
  have hs : ∀ s i s', Sane s → (machine T).next s i=some s' → Sane s' := by
    rintro s ⟨t,m⟩ s' hi hn
    exact (hi.next hn).sane
  exact h.invariant h0 hs

/-- Each thread has one bucket, no block is lost, and no two blocks have a byte in common, nor with
a slab that was not handed out; each is as long as was asked for, lies in one grant of `operator
new` at a multiple of its room, and the grants not live any more went to `operator delete`. -/
structure Safe (w : Crowd T) : Prop where
  keys : w.keys.Nodup
  lost : w.lost=[]
  tiled : Tiled (slabExtents w.dispatcher.blocks ++ (w.leaving ++ w.live).map Loan.range)
  served : w.served.Perm (w.dispatcher.heap.deleted ++ Routing.large (w.leaving ++ w.live))
  blocks : ∀ e ∈ w.leaving ++ w.live, e.bytes ≤ e.room ∧
    (e.room=smallestCache ∨ e.room < 2*e.bytes) ∧
    ∃ g ∈ w.dispatcher.heap.granted, e.range.bytes ⊆ g.bytes ∧ ∃ j, e.ptr=g.1+j*e.room

theorem Sane.safe (h : Sane w) : w.Safe := by
  refine ⟨h.nodup_keys,h.lost,?_,h.secure.returned,?_⟩
  · refine tiled_append.mpr ⟨(tiled_append.mp h.secure.ledger.tiled).1,h.secure.toTidy.tiled,?_⟩
    intro x hx y hy
    obtain ⟨mem,hm,rfl⟩ := List.mem_map.mp hx
    obtain ⟨e,he,rfl⟩ := List.mem_map.mp hy
    exact (h.secure.toTidy.apart_blocks he hm).symm
  · intro e he
    obtain ⟨hle,_,hroom⟩ := e.room_fits
    exact ⟨hle,hroom,h.secure.granted he⟩

/-- The state after four superblocks were requested. -/
def first : Crowd Nat :=
  ⟨(GlobalDispatch.make ⟨[2^20,2^21,3*2^20,2^22],[],[]⟩).1,[],[],[],fun _ => .idle,[],[],[],[]⟩

theorem start_first : (machine Nat).start first := ⟨_,_,Prod.ext rfl (by decide +kernel),rfl⟩

section Alone

variable {v : Crowd T} {s : Interface T} {size count ptr i : Nat} {registered : Bool}

/-- A run of steps of one thread only. -/
def Alone (w : Crowd T) (id : T) (w' : Crowd T) : Prop :=
  ∃ is, (∀ x ∈ is, x.1=id) ∧ (machine T).runFrom w is=some w'

theorem Alone.refl (w : Crowd T) (id : T) : Alone w id w := ⟨[],by simp,rfl⟩

theorem Alone.head {m : Move T} (h : w.next (id,m)=some v) (hr : Alone v id w') :
    Alone w id w' := by
  obtain ⟨is,his,hr⟩ := hr
  refine ⟨(id,m) :: is,?_,?_⟩
  · intro x hx
    rcases List.mem_cons.mp hx with rfl | hx
    · rfl
    · exact his x hx
  · have hn : (machine T).next w (id,m)=some v := h
    simpa [Machine.runFrom,hn] using hr

theorem Alone.trans (h : Alone w id v) (hr : Alone v id w') : Alone w id w' := by
  obtain ⟨is,his,h⟩ := h
  obtain ⟨js,hjs,hr⟩ := hr
  refine ⟨is ++ js,fun x hx => ?_,?_⟩
  · rcases List.mem_append.mp hx with hx | hx
    · exact his x hx
    · exact hjs x hx
  · rw [Machine.runFrom,List.foldlM_append]
    change ((machine T).runFrom w is).bind _=_
    rw [h]
    exact hr

/-- A thread takes its next step, with what `operator new` has in store. -/
theorem Alone.advance (h : w.advance id=some v) (hr : Alone v id w') : Alone w id w' :=
  hr.head (m := .advance w.dispatcher.heap.answers) h

theorem handBack_goto (w : Crowd T) (s : Interface T) (id : T) (p : Phase T) (e : Loan T)
    (registered : Bool) : ((w.goto id p).put s).handBack id e registered=
      (w.put s).handBack id e registered := by
  simp [Crowd.goto,Crowd.put,handBack,Function.update_idem]

/-- The search of `iterate`, one bucket after the other. -/
theorem alone_search (h : Sane w) (hp : w.phase id=.searching e registered i)
    {σ : GlobalDispatch × Bool} {rest : List (T × Bucket)}
    (hi : SmpMap.iterate (Interface.deallocElsewhere id e.ptr e.idx e.bytes) (w.dispatcher,false)
      (w.buckets.drop i)=some (σ,rest)) :
    σ.2=true ∧ Alone w id ((w.put ⟨σ.1,w.buckets.take i ++ rest⟩).handBack id e registered) := by
  induction hn : w.buckets.length-i generalizing w i rest with
  | zero =>
    have hfit := h.fits id
    rw [hp] at hfit
    have hnil : w.keys.drop i=[] := List.drop_eq_nil_of_le (by simp [keys]; omega)
    have hdrop : e.owner ∈ w.keys.drop i := hfit.2.2.2.2
    rw [hnil] at hdrop
    exact absurd hdrop List.not_mem_nil
  | succ n ih =>
    have hf : (w.phase id).frees=some e := by simp [hp,Phase.frees]
    have hm := h.leaving hf
    obtain ⟨_,hne,hreg,hread,hdrop⟩ : e ∈ w.leaving ∧ e.owner ≠ id ∧
        (registered=true ↔ id ∈ w.keys) ∧ id ∈ w.readers ∧ e.owner ∈ w.keys.drop i := by
      have hfit := h.fits id
      rwa [hp] at hfit
    obtain ⟨pair,d,pair',stop,hget,hd,_,hcase⟩ :=
      h.secure.deallocElsewhere (List.mem_append_left w.live hm) hne hdrop
    have hd' : Interface.deallocElsewhere id e.ptr (findCacheIdx e.bytes) e.bytes
        (w.dispatcher,false) pair=some ((d,stop),pair',stop) := hd
    obtain ⟨hlt,hpair⟩ := List.getElem?_eq_some_iff.mp hget
    rw [List.drop_eq_getElem_cons hlt,hpair,SmpMap.iterate,hd] at hi
    have hset : w.buckets.set i pair'=w.buckets.take i ++ pair' :: w.buckets.drop (i+1) :=
      List.set_eq_take_append_cons_drop.trans (if_pos hlt)
    have hstep : w.advance id=
        if stop then some ((w.put ⟨d,w.buckets.set i pair'⟩).handBack id e registered)
        else some ((w.put ⟨d,w.buckets.set i pair'⟩).goto id (.searching e registered (i+1))) := by
      simp only [advance,hp,h.bounded hm,hget,hd']
    rcases hcase with ⟨rfl,rfl,hsame,hdrop'⟩ | ⟨rfl,_⟩
    · rw [if_neg (by simp),hsame] at hstep
      have hgo := h.advance hstep
      simp only at hi
      cases hr : SmpMap.iterate (Interface.deallocElsewhere id e.ptr e.idx e.bytes)
          (w.dispatcher,false) (w.buckets.drop (i+1)) with
      | none => simp [hr] at hi
      | some x =>
        obtain ⟨σ',rest'⟩ := x
        simp only [hr,Option.some.injEq,Prod.mk.injEq] at hi
        obtain ⟨rfl,rfl⟩ := hi
        obtain ⟨hfound,hrun⟩ := ih (w := w.goto id (.searching e registered (i+1))) (i := i+1)
          hgo.sane (by simp [Crowd.goto]) hr (by simp [Crowd.goto]; omega)
        refine ⟨hfound,.advance hstep ?_⟩
        rw [handBack_goto] at hrun
        have htake : w.buckets.take (i+1) ++ rest'=w.buckets.take i ++ pair' :: rest' := by
          rw [← hsame,hset]
          simp [List.take_append,List.length_take,Nat.min_eq_left hlt.le]
        change Alone _ id ((w.put ⟨σ'.1,w.buckets.take (i+1) ++ rest'⟩).handBack id e registered)
          at hrun
        rw [htake] at hrun
        exact hrun
    · rw [if_pos rfl,hset] at hstep
      simp only [Option.some.injEq,Prod.mk.injEq] at hi
      obtain ⟨rfl,rfl⟩ := hi
      exact ⟨rfl,.advance hstep (.refl _ _)⟩

/-- `registerThread`, in its two steps. -/
theorem alone_registerThread {next : Option (Nat × Nat)} {r : Interface T}
    (hp : w.phase id=.building next) (hr : w.readers=[]) (hm : ∀ b, (id,b) ∉ w.made)
    (hreg : w.interface.registerThread id=some (r,true))
    (hrun : Alone ((w.put r).goto id (.after next)) id w') : Alone w id w' := by
  obtain ⟨_,_,_,⟨⟩⟩ | ⟨d,b,hmake,rfl,_⟩ := Interface.registerThread_cases hreg
  have hmake' : Bucket.make w.dispatcher=some (d,some b) := hmake
  have h1 : w.advance id=some ({ w with dispatcher := d, made := w.made ++ [(id,b)] }.goto id
      (.emplacing b next)) := by simp only [Crowd.advance,hp,hmake']
  refine .advance h1 (.advance (v := (w.put ⟨d,w.buckets ++ [(id,b)]⟩).goto id (.after next))
    ?_ hrun)
  have herase : (w.made ++ [(id,b)]).erase (id,b)=w.made := by
    rw [List.erase_append_right _ (hm b)]
    simp
  simp only [Crowd.advance,Crowd.goto,Function.update_self,hr,if_true,herase,SmpMap.emplace,
    Function.update_idem,Crowd.put]

/-- An `allocate` that no other thread disturbs is the one of `Interface`. -/
theorem alone_allocate (h : Sane w) (hp : w.phase id=.idle) (hr : w.readers=[])
    (hlt : size*count < 2^64) (ha : w.interface.allocate id size count=some (s,some ptr)) :
    Alone w id { w with
      dispatcher := s.dispatcher
      buckets := s.buckets
      live := ⟨ptr,id,size,count⟩ :: w.live
      served := Routing.serving ⟨ptr,id,size,count⟩ w.served } := by
  have hbytes : toSizeT (size*count)=size*count := Nat.mod_eq_of_lt hlt
  have hself : ∀ p, Function.update (Function.update w.phase id p) id .idle=w.phase := fun p => by
    rw [Function.update_idem,← hp,Function.update_eq_self]
  have hm : ∀ b, (id,b) ∉ w.made := h.not_made (by simp [hp])
  have hcases := Interface.allocate_cases ha
  simp only [hbytes] at hcases
  refine .head (m := .allocate size count) (v := w.goto id (.finding size count)) ?_ ?_
  · simp only [Crowd.next,hp,if_pos hlt]
  rcases hcases with ⟨hf,hne⟩ | ⟨s₁,s₂,ok,hf,hreg,hok⟩
  · have hne' : ptr ≠ 0 := fun h0 => hne (h0 ▸ rfl)
    have hf' : (w.goto id (.finding size count)).interface.findAlloc id
        (findCacheIdx (size*count)) (size*count)=some (s,some ptr) := hf
    refine .advance (v := (((w.goto id (.finding size count)).put s).handOut id
      ⟨ptr,id,size,count⟩)) ?_ ?_
    · simp only [Crowd.advance,Crowd.goto,Function.update_self,hbytes]
      simp only [Crowd.goto] at hf'
      simp only [hf',if_pos hne']
    · simp only [Crowd.handOut,Crowd.goto,Crowd.put,hself]
      exact .refl _ _
  · cases ok with
    | false => cases hok.2
    | true =>
      have hf' : (w.goto id (.finding size count)).interface.findAlloc id
          (findCacheIdx (size*count)) (size*count)=some (s₁,some 0) := hf
      refine .advance (v := (w.put s₁).goto id (.building (some (size,count)))) ?_ ?_
      · simp only [Crowd.advance,Crowd.goto,Function.update_self,hbytes]
        simp only [Crowd.goto] at hf'
        simp only [hf',Crowd.put,Function.update_idem]
        rfl
      · have hbuild : ((w.put s₁).goto id (.building (some (size,count)))).phase id=
            .building (some (size,count)) := by simp [Crowd.goto]
        refine alone_registerThread (r := s₂) hbuild hr hm hreg ?_
        have hf₂ : s₂.findAlloc id (findCacheIdx (size*count)) (size*count)=
            some (s,some ptr) := hok
        refine .advance (v := (w.put s).handOut id ⟨ptr,id,size,count⟩) ?_ ?_
        · simp only [Crowd.advance,Crowd.goto,Function.update_self,hbytes,Phase.after,
            Crowd.interface,Crowd.put,hf₂,Function.update_idem,Crowd.handOut]
        · have hidle : Function.update w.phase id .idle=w.phase := by
            rw [← hp,Function.update_eq_self]
          simp only [Crowd.handOut,Crowd.goto,Crowd.put,hidle]
          exact .refl _ _

/-- What `deallocate` does after its block is back. -/
theorem alone_handBack {s₁ : Interface T} (hm : ∀ b, (id,b) ∉ w.made)
    (hr : w.readers.erase id=[])
    (hreg : if registered then s=s₁ else s₁.registerThread id=some (s,true)) :
    Alone ((w.put s₁).handBack id e registered) id ({ w with
      dispatcher := s.dispatcher
      buckets := s.buckets
      leaving := w.leaving.erase e
      readers := [] }.goto id .idle) := by
  cases registered with
  | true =>
    obtain rfl : s=s₁ := hreg
    simp only [handBack,Crowd.goto,Crowd.put,hr,if_true]
    exact .refl _ _
  | false =>
    have hreg' : s₁.registerThread id=some (s,true) := hreg
    have hbuild : ((w.put s₁).handBack id e false).phase id=.building none := by
      simp [handBack,Crowd.goto]
    refine alone_registerThread (r := s) hbuild hr hm hreg' ?_
    simp only [handBack,Crowd.goto,Crowd.put,hr,Function.update_idem,Phase.after]
    exact .refl _ _

/-- A `deallocate` that no other thread disturbs is the one of `Interface`. -/
theorem alone_deallocate (h : Sane w) (hp : w.phase id=.idle) (hr : w.readers=[])
    (hm : e ∈ w.live) (hd : w.interface.deallocate id e.ptr e.size e.n=some (s,true)) :
    Alone w id { w with
      dispatcher := s.dispatcher
      buckets := s.buckets
      live := w.live.erase e } := by
  have hno : ∀ b, (id,b) ∉ w.made := h.not_made (by simp [hp])
  have hidle : Function.update w.phase id .idle=w.phase := by
    rw [← hp,Function.update_eq_self]
  let v : Crowd T := { w with live := w.live.erase e, leaving := e :: w.leaving }.goto id (.freeing e)
  have hv : w.next (id,.deallocate e)=some v := by
    simp only [Crowd.next,hp,if_pos hm]
    rfl
  have hsane := (h.next hv).sane
  have hpv : v.phase id=.freeing e := by simp [v,Crowd.goto]
  have hfinal : ({ v with
      dispatcher := s.dispatcher
      buckets := s.buckets
      leaving := v.leaving.erase e
      readers := [] }.goto id .idle)={ w with
      dispatcher := s.dispatcher
      buckets := s.buckets
      live := w.live.erase e } := by
    simp only [v,Crowd.goto,Function.update_idem,hidle,List.erase_cons_head,hr]
  have hin : e ∈ v.leaving ++ v.live := List.mem_append_left _ List.mem_cons_self
  have hbytes := hsane.bounded (e := e) List.mem_cons_self
  obtain ⟨s₁,found,hf,hcase⟩ := hsane.secure.findDealloc (s := v.interface) hin
    (hsane.owners e hin) id
  have hf' : w.interface.findDealloc id e.ptr (findCacheIdx e.bytes) e.bytes=
      some (s₁,found,decide (id ∈ w.keys)) := hf
  have hstep : v.advance id=if found then some ((v.put s₁).handBack id e (decide (id ∈ w.keys)))
      else some ((v.put s₁).goto id (.seeking e (decide (id ∈ w.keys)))) := by
    have hfv : v.interface.findDealloc id e.ptr (findCacheIdx e.bytes) e.bytes=
      some (s₁,found,decide (id ∈ w.keys)) := hf
    simp only [Crowd.advance,hpv,hbytes,hfv]
    cases found <;> rfl
  refine .head hv ?_
  rw [← hfinal]
  rw [Interface.deallocate,Interface.release,hbytes,hf'] at hd
  rcases hcase with ⟨rfl,rfl,_⟩ | ⟨rfl,_,_,_⟩
  · rw [if_neg (by simp)] at hstep
    let v₁ : Crowd T := (v.put v.interface).goto id (.seeking e (decide (id ∈ w.keys)))
    let u : Crowd T := { v₁ with readers := id :: v₁.readers }.goto id
      (.searching e (decide (id ∈ w.keys)) 0)
    have hp₁ : v₁.phase id=.seeking e (decide (id ∈ w.keys)) := by simp [v₁,Crowd.goto]
    have hu : v₁.advance id=some u := by
      simp only [Crowd.advance,hp₁]
      rfl
    have hsane₁ : Sane v₁ := (hsane.advance hstep).sane
    have hpu : u.phase id=.searching e (decide (id ∈ w.keys)) 0 := by simp [u,Crowd.goto]
    refine .advance hstep (.advance hu ?_)
    cases hi : SmpMap.iterate (Interface.deallocElsewhere id e.ptr e.idx e.bytes)
        (u.dispatcher,false) (u.buckets.drop 0) with
    | none =>
      have hi' : SmpMap.iterate (Interface.deallocElsewhere id e.ptr (findCacheIdx e.bytes) e.bytes)
          (v.interface.dispatcher,false) v.interface.buckets=none := hi
      simp [hi'] at hd
    | some x =>
      obtain ⟨⟨d,found⟩,rest⟩ := x
      have hi' : SmpMap.iterate (Interface.deallocElsewhere id e.ptr (findCacheIdx e.bytes) e.bytes)
          (v.interface.dispatcher,false) v.interface.buckets=some ((d,found),rest) := hi
      obtain ⟨_,hrun⟩ := alone_search (hsane₁.advance hu).sane hpu hi
      simp only [hi'] at hd
      have hreg : if decide (id ∈ w.keys) then s=⟨d,rest⟩
          else Interface.registerThread ⟨d,rest⟩ id=some (s,true) := by
        by_cases hid : id ∈ w.keys
        · simp only [hid,decide_true,Option.some.injEq,Prod.mk.injEq,and_true] at hd
          simpa [hid] using hd.symm
        · simp only [hid,decide_false] at hd
          simpa [hid] using hd
      have hread : u.readers.erase id=[] := by
        change (id :: w.readers).erase id=[]
        rw [hr,List.erase_cons_head]
      have hback := alone_handBack (w := u) (e := e) hno hread hreg
      have hsame : Function.update u.phase id .idle=Function.update v.phase id .idle := by
        simp only [u,v₁,Crowd.goto,Crowd.put,Function.update_idem]
      refine hrun.trans ?_
      simp only [Crowd.goto,hsame] at hback
      exact hback
  · rw [if_pos rfl] at hstep
    refine .advance hstep (alone_handBack hno ?_ ?_)
    · change w.readers.erase id=[]
      rw [hr]
      rfl
    · by_cases hid : id ∈ w.keys
      · simp only [hid,decide_true,Option.some.injEq,Prod.mk.injEq,and_true] at hd
        simpa [hid] using hd.symm
      · simp only [hid,decide_false] at hd
        simpa [hid] using hd

/-- Of a call that no other thread disturbs the steps add up to the call of `Interface`; the others
are between two sections of theirs. -/
theorem alone_is_sequential (h : (machine T).Reachable w) (hp : w.phase id=.idle)
    (hr : w.readers=[]) :
    (∀ size count s ptr, size*count < 2^64 →
      w.interface.allocate id size count=some (s,some ptr) →
      Alone w id { w with
        dispatcher := s.dispatcher
        buckets := s.buckets
        live := ⟨ptr,id,size,count⟩ :: w.live
        served := Routing.serving ⟨ptr,id,size,count⟩ w.served }) ∧
    ∀ e ∈ w.live, ∀ s, w.interface.deallocate id e.ptr e.size e.n=some (s,true) →
      Alone w id { w with
        dispatcher := s.dispatcher
        buckets := s.buckets
        live := w.live.erase e } :=
  have hs := reachable_sane h
  ⟨fun _ _ _ _ hlt ha => alone_allocate hs hp hr hlt ha,
    fun _ hm _ hd => alone_deallocate hs hp hr hm hd⟩

theorem alone_is_sequential_first : ∃ s ptr,
    first.interface.allocate 0 8 1=some (s,some ptr) ∧ Alone first 0 { first with
      dispatcher := s.dispatcher
      buckets := s.buckets
      live := [⟨ptr,0,8,1⟩]
      served := Routing.serving ⟨ptr,0,8,1⟩ first.served } := by
  have hp : ((first.interface.allocate 0 8 1).bind Prod.snd).isSome=true := by decide +kernel
  obtain ⟨ptr,hp⟩ := Option.isSome_iff_exists.mp hp
  obtain ⟨⟨s,mem⟩,ha,rfl⟩ := Option.bind_eq_some_iff.mp hp
  have hr : (machine Nat).Reachable first := ⟨[],.start start_first⟩
  exact ⟨s,ptr,ha,(alone_is_sequential hr rfl rfl).1 8 1 s ptr (by decide) ha⟩

end Alone

end Crowd

end Allocators.SlabMulti
