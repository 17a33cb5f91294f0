import Allocators.SlabMulti.Loans
import Allocators.Lib.Run

/-! Any number of threads over one `Interface`: where a block goes that is given back. -/

namespace Allocators.SlabMulti

open Lib Vector Extent

/-- The allocator, the blocks handed out and not given back, and what `operator new` has served. -/
structure Routing (T : Type) where
  interface : Interface T
  live : List (Loan T)
  served : List Extent

/-- A call of a thread, with what `operator new` returns during it. -/
inductive Request (T : Type)
  | allocate (id : T) (size count : Nat) (answers : List Nat)
  | deallocate (id : T) (e : Loan T) (answers : List Nat)

namespace Interface

variable {T : Type}

/-- What was passed to `operator delete`. -/
def deleted (s : Interface T) : List Extent := s.dispatcher.heap.deleted

/-- The block `e` is given back: the cache that served it, and no other, has marked it free, or
`operator delete` got it. -/
def Released (s : Interface T) (own : Bool) (e : Loan T) (s' : Interface T) : Prop :=
  match e.idx with
  | some k => s'.deleted=s.deleted ∧ ∃ lo b hi c c', s.buckets=lo ++ (e.owner,b) :: hi ∧
      b.caches[k]?=some c ∧ c.Marks e.ptr own c' ∧
      s'.buckets=lo ++ (e.owner,⟨b.caches.set k c'⟩) :: hi
  | none => s'.deleted=(e.ptr,e.bytes) :: s.deleted ∧ s'.buckets=s.buckets

end Interface

namespace Routing

variable {T : Type} [DecidableEq T]

/-- A block is given back with the type and the number it was asked for. -/
def serve (w : Routing T) : Request T → Option (Routing T)
  | .allocate id size count answers =>
    if size*count < 2^64 then
      match (w.interface.supply answers).allocate id size count with
      | some (s,some ptr) =>
        some ⟨s,⟨ptr,id,size,count⟩ :: w.live,serving ⟨ptr,id,size,count⟩ w.served⟩
      | _ => none
    else none
  | .deallocate id e answers =>
    if e ∈ w.live then
      match (w.interface.supply answers).deallocate id e.ptr e.size e.n with
      | some (s,true) => some ⟨s,w.live.erase e,w.served⟩
      | _ => none
    else none

def machine (T : Type) [DecidableEq T] : Machine (Routing T) (Request T) where
  start w := ∃ answers d, GlobalDispatch.make ⟨answers,[],[]⟩=(d,true) ∧ w=⟨⟨d,[]⟩,[],[]⟩
  next := serve

namespace Tidy

variable {s s' : Interface T} {live : List (Loan T)} {served : List Extent} {id : T}
  {e : Loan T} {k size : Nat} {lo hi : List (T × Bucket)} {b b' : Bucket}

/-- The memory of a live block belongs to no other bucket. -/
theorem elsewhere (h : Tidy s live served) (hm : e ∈ live) (hk : e.idx=some k)
    (hs : s.buckets=lo ++ (e.owner,b) :: hi) {x : T × Bucket} (hx : x ∈ lo ++ hi)
    (d : GlobalDispatch) (bytes : Nat) (thisThread : Bool) :
    x.2.deallocate d e.ptr (some k) bytes thisThread=some (d,x.2,false) := by
  obtain ⟨sz,hsz⟩ := exists_size hk
  have hold : x ∈ s.buckets := hs ▸ List.perm_middle.mem_iff.mpr (List.mem_cons_of_mem _ hx)
  have hb : (e.owner,b) ∈ s.buckets := by simp [hs]
  obtain ⟨mem,hmem,hin⟩ := (h.kept _ hb).located hsz (mem_liveOf hm hk)
  have ht := (tiled_append.mp (tiled_append.mp h.ledger.tiled).2.1).1
  rw [hs,tiled_perm (slabs_mid lo hi e.owner b)] at ht
  refine (h.kept x hold).deallocate_missing hsz ?_ d bytes thisThread
  intro mem' hmem' hc
  have hap := (tiled_append.mp ht).2.2 _ (List.mem_map_of_mem hmem) _
    (List.mem_map_of_mem (List.mem_flatMap.mpr ⟨x,hx,hmem'⟩))
  exact Set.disjoint_left.mp hap hin hc

/-- A block of a cache is found in the bucket of its owner. -/
theorem release (h : Tidy s live served) (hm : e ∈ live) (hk : e.idx=some k)
    (hs : s.buckets=lo ++ (e.owner,b) :: hi)
    (hb : b.deallocate s.dispatcher e.ptr (some k) e.bytes (decide (id=e.owner))=
      some (s.dispatcher,b',true)) :
    s.release id e.ptr e.size e.n=
      some (⟨s.dispatcher,lo ++ (e.owner,b') :: hi⟩,true,
        decide (id ∈ s.buckets.map Prod.fst)) := by
  have hbytes : toSizeT (e.size*e.n)=e.bytes := Nat.mod_eq_of_lt (h.bounded e hm)
  have hk' : findCacheIdx e.bytes=some k := hk
  have hkeys := key_ne (hs ▸ h.keys)
  by_cases hid : id=e.owner
  · have hlo : ∀ x ∈ lo, x.1 ≠ id := fun x hx => hid ▸ hkeys x (List.mem_append_left _ hx)
    subst hid
    simp only [decide_true] at hb
    simp only [Interface.release,Interface.findDealloc,SmpMap.findDo,hbytes,hk',hs,
      SmpMap.find_mid hlo,getElem?_mid,hb,set_mid]
    simp
  · simp only [decide_eq_false hid] at hb
    have hfind : s.findDealloc id e.ptr (some k) e.bytes=
        some (s,false,decide (id ∈ s.buckets.map Prod.fst)) := by
      by_cases hreg : id ∈ s.buckets.map Prod.fst
      · obtain ⟨lo',b₁,hi',hs'⟩ := exists_bucket hreg
        have hlo' : ∀ x ∈ lo', x.1 ≠ id := fun x hx =>
          key_ne (hs' ▸ h.keys) x (List.mem_append_left _ hx)
        have hmem : (id,b₁) ∈ lo ++ hi := by
          have hx : (id,b₁) ∈ lo ++ (e.owner,b) :: hi := hs ▸ hs' ▸ by simp
          rcases List.mem_cons.mp (List.perm_middle.mem_iff.mp hx) with he | hx
          · exact absurd (congrArg Prod.fst he) hid
          · exact hx
        have hmiss := h.elsewhere hm hk hs hmem s.dispatcher e.bytes true
        simp only [Interface.findDealloc,SmpMap.findDo,hs',SmpMap.find_mid hlo',getElem?_mid,
          hmiss,set_mid]
        rw [← hs']
        simp [hreg]
      · have hne : ∀ x ∈ s.buckets, x.1 ≠ id := fun x hx he =>
          hreg (he ▸ List.mem_map_of_mem hx)
        simp [Interface.findDealloc,SmpMap.findDo,SmpMap.find_end hne,hreg]
    have hpass : ∀ x ∈ lo, Interface.deallocElsewhere id e.ptr (some k) e.bytes
        (s.dispatcher,false) x=some ((s.dispatcher,false),x,false) := by
      intro x hx
      rw [Interface.deallocElsewhere]
      by_cases hxid : x.1=id
      · simp [hxid]
      · rw [if_pos hxid,h.elsewhere hm hk hs (List.mem_append_left _ hx)]
    have hstop : Interface.deallocElsewhere id e.ptr (some k) e.bytes (s.dispatcher,false)
        (e.owner,b)=some ((s.dispatcher,true),(e.owner,b'),true) := by
      rw [Interface.deallocElsewhere,if_pos (Ne.symm hid),hb]
    simp only [Interface.release,hbytes,hk',hfind,hs,SmpMap.iterate_append hpass,
      SmpMap.iterate_stop hstop,Option.map_some]

/-- Memory of `operator new` goes to `operator delete` in the first bucket that is asked. -/
theorem release_large (h : Tidy s live served) (hm : e ∈ live) (hk : e.idx=none) :
    s.release id e.ptr e.size e.n=
      some (⟨{ s.dispatcher with heap := s.dispatcher.heap.delete e.ptr e.bytes },s.buckets⟩,true,
        decide (id ∈ s.buckets.map Prod.fst)) := by
  have hbytes : toSizeT (e.size*e.n)=e.bytes := Nat.mod_eq_of_lt (h.bounded e hm)
  have hk' : findCacheIdx e.bytes=none := hk
  by_cases hreg : id ∈ s.buckets.map Prod.fst
  · obtain ⟨lo,b,hi,hs⟩ := exists_bucket hreg
    have hlo : ∀ x ∈ lo, x.1 ≠ id := fun x hx =>
      key_ne (hs ▸ h.keys) x (List.mem_append_left _ hx)
    simp only [Interface.release,Interface.findDealloc,SmpMap.findDo,hbytes,hk',hs,
      SmpMap.find_mid hlo,getElem?_mid,Bucket.deallocate,set_mid]
    simp
  · have hne : ∀ x ∈ s.buckets, x.1 ≠ id := fun x hx he => hreg (he ▸ List.mem_map_of_mem hx)
    have hfind : s.findDealloc id e.ptr none e.bytes=some (s,false,false) := by
      simp [Interface.findDealloc,SmpMap.findDo,SmpMap.find_end hne]
    obtain ⟨lo,b,hi,hs⟩ := exists_bucket (h.owners e hm)
    cases hc : s.buckets with
    | nil => simp [hc] at hs
    | cons x rest =>
      have hx : x.1 ≠ id := hne x (by simp [hc])
      have hstop : Interface.deallocElsewhere id e.ptr none e.bytes (s.dispatcher,false) x=
          some (({ s.dispatcher with heap := s.dispatcher.heap.delete e.ptr e.bytes },true),x,
            true) := by
        rw [Interface.deallocElsewhere,if_pos hx]
        rfl
      rw [hc] at hreg
      simp only [Interface.release,hbytes,hk',hfind,hc,SmpMap.iterate_stop hstop,hreg,
        decide_false]

/-- The invariant after a block went back to its cache. -/
theorem give (h : Tidy s live served) (hm : e ∈ live) (hk : e.idx=some k)
    (hs : s.buckets=lo ++ (e.owner,b) :: hi)
    (hb : b'.Keeps (Function.update (liveOf live e.owner) k
      ((liveOf live e.owner k).erase e.ptr))) (hsub : b'.ptrs.Subperm b.ptrs) :
    Tidy ⟨s.dispatcher,lo ++ (e.owner,b') :: hi⟩ (live.erase e) served := by
  have hkeys : (lo ++ (e.owner,b') :: hi).map Prod.fst=s.buckets.map Prod.fst := by
    simp [hs]
  have hlarge : (large live).Perm (large (live.erase e)) := by
    have hp := large_perm (List.perm_cons_erase hm)
    rwa [large_cons,if_neg (by rw [hk]; simp)] at hp
  refine ⟨hkeys ▸ h.keys,fun x hx => hkeys ▸ h.owners x (List.mem_of_mem_erase hx),?_,?_,
    fun x hx => h.bounded x (List.mem_of_mem_erase hx),
    h.returned.trans (hlarge.append_left _)⟩
  · refine kept_mid (hs ▸ h.kept) (hb.congr ?_) ?_
    · intro j
      by_cases hj : j=k
      · subst hj
        rw [Function.update_self]
        exact liveOf_erase hm hk
      · rw [Function.update_of_ne hj]
        refine liveOf_erase_other hm ?_
        intro hx
        exact hj (Option.some.inj (hx.2.symm.trans hk))
    · intro x hx j
      have hne := key_ne (hs ▸ h.keys) x hx
      exact liveOf_erase_other hm fun hx => hne hx.1.symm
  · have hled := h.ledger
    rw [hs] at hled
    have hl := hled.perm ((((slabs_mid lo hi e.owner b).append_right _).append_left _).trans
      ((hlarge.append_left _).append_left _))
    have hsp : (slabExtents b'.ptrs).Subperm (slabExtents b.ptrs) := by
      obtain ⟨l,hp,hl⟩ := hsub
      exact ⟨slabExtents l,hp.map _,hl.map _⟩
    refine (hl.subperm ?_).perm (((slabs_mid lo hi e.owner b').symm.append_right _).append_left _)
    rw [List.append_assoc,List.append_assoc]
    exact (List.subperm_append_left _).mpr ((List.subperm_append_right _).mpr hsp)

/-- The invariant after memory went to `operator delete`. -/
theorem give_large (h : Tidy s live served) (hm : e ∈ live) (hk : e.idx=none) :
    Tidy ⟨{ s.dispatcher with heap := s.dispatcher.heap.delete e.ptr e.bytes },s.buckets⟩
      (live.erase e) served := by
  have hlarge : (large live).Perm ((e.ptr,e.bytes) :: large (live.erase e)) := by
    have hp := large_perm (List.perm_cons_erase hm)
    rwa [large_cons,if_pos hk] at hp
  refine ⟨h.keys,fun x hx => h.owners x (List.mem_of_mem_erase hx),?_,?_,
    fun x hx => h.bounded x (List.mem_of_mem_erase hx),?_⟩
  · intro x hx
    refine (h.kept x hx).congr ?_
    intro j
    exact liveOf_erase_other hm (by rw [hk]; simp)
  · have hl := h.ledger.perm ((hlarge.append_left _).append_left _)
    rw [← List.append_assoc] at hl
    have hgive := (hl.perm List.perm_middle).give
    rwa [List.append_assoc] at hgive
  · exact (h.returned.trans (hlarge.append_left _)).trans List.perm_middle

/-- Any thread may give a live block back. -/
theorem released (h : Tidy s live served) (hm : e ∈ live) (id : T) :
    ∃ s', s.release id e.ptr e.size e.n=some (s',true,decide (id ∈ s.buckets.map Prod.fst)) ∧
      s.Released (decide (id=e.owner)) e s' ∧ Tidy s' (live.erase e) served ∧
      s'.buckets.map Prod.fst=s.buckets.map Prod.fst := by
  cases hk : e.idx with
  | none =>
    refine ⟨_,h.release_large hm hk,?_,h.give_large hm hk,rfl⟩
    rw [Interface.Released,hk]
    exact ⟨rfl,rfl⟩
  | some k =>
    obtain ⟨sz,hsz⟩ := exists_size hk
    obtain ⟨lo,b,hi,hs⟩ := exists_bucket (h.owners e hm)
    have hb : b.Keeps (liveOf live e.owner) := h.kept (e.owner,b) (by simp [hs])
    obtain ⟨c,c',hc,hd,hkeeps,hsub,hmarks⟩ := hb.deallocate hsz (mem_liveOf hm hk) s.dispatcher
      e.bytes (decide (id=e.owner))
    refine ⟨_,h.release hm hk hs hd,?_,h.give hm hk hs hkeeps hsub,by simp [hs]⟩
    rw [Interface.Released,hk]
    exact ⟨rfl,lo,b,hi,c,c',hs,hc,hmarks,rfl⟩

/-- What `deallocate` does besides: it may register the thread. -/
theorem deallocate (h : Tidy s live served) (hm : e ∈ live) (id : T) :
    ∃ s₁ registered, s.release id e.ptr e.size e.n=some (s₁,true,registered) ∧
      s.Released (decide (id=e.owner)) e s₁ ∧ s.deallocate id e.ptr e.size e.n ≠ none ∧
      ∀ s', s.deallocate id e.ptr e.size e.n=some (s',true) →
        Tidy s' (live.erase e) served ∧ s'.deleted=s₁.deleted ∧
        ∃ added, added.length ≤ 1 ∧ (∀ x ∈ added, x.1=id) ∧ s'.buckets=s₁.buckets ++ added := by
  obtain ⟨s₁,hr,hrel,ht,hkeys⟩ := h.released hm id
  refine ⟨s₁,_,hr,hrel,?_⟩
  rw [Interface.deallocate,hr]
  by_cases hreg : id ∈ s.buckets.map Prod.fst
  · simp only [hreg,decide_true]
    refine ⟨by simp,?_⟩
    intro s' hs'
    obtain ⟨rfl,_⟩ := Prod.mk.inj (Option.some.inj hs')
    exact ⟨ht,rfl,[],by simp⟩
  · simp only [hreg,decide_false]
    refine ⟨?_,?_⟩
    · intro hn
      rw [Interface.registerThread] at hn
      cases hmk : Bucket.make s₁.dispatcher with
      | none => exact Bucket.make_ne_none _ hmk
      | some x =>
        obtain ⟨d,bucket⟩ := x
        cases bucket <;> simp [hmk] at hn
    · intro s' hs'
      obtain ⟨ht',hd,b,hb⟩ := ht.registerThread (hkeys ▸ hreg) hs'
      exact ⟨ht',hd,[(id,b)],by simp [hb]⟩

end Tidy

theorem tidy_start {w : Routing T} (h : (machine T).start w) :
    Tidy w.interface w.live w.served := by
  obtain ⟨answers,d,hm,rfl⟩ := h
  have h0 : Ledger [] (slabExtents [] ++ []) := .nil
  obtain ⟨hl,hx⟩ := GlobalDispatch.requestMem_ledger (d := ⟨⟨answers,[],[]⟩,[],0⟩) _ h0 hm
  refine ⟨by simp,by simp,by simp,by simpa [large,slabExtents] using hl,by simp,?_⟩
  rw [hx.deleted]
  rfl

/-- Each call keeps the invariant. -/
theorem tidy_next {w w' : Routing T} {i : Request T} (h : Tidy w.interface w.live w.served)
    (hn : (machine T).next w i=some w') : Tidy w'.interface w'.live w'.served := by
  change serve w i=some w' at hn
  cases i with
  | allocate id size count answers =>
    simp only [serve] at hn
    split_ifs at hn with hlt
    cases ha : (w.interface.supply answers).allocate id size count with
    | none => simp [ha] at hn
    | some x =>
      obtain ⟨s,mem⟩ := x
      cases mem with
      | none => simp [ha] at hn
      | some ptr =>
        simp only [ha,Option.some.injEq] at hn
        subst hn
        exact (h.supply answers).allocate hlt ha
  | deallocate id e answers =>
    simp only [serve] at hn
    split_ifs at hn with hm
    cases hd : (w.interface.supply answers).deallocate id e.ptr e.size e.n with
    | none => simp [hd] at hn
    | some x =>
      obtain ⟨s,ok⟩ := x
      cases ok with
      | false => simp [hd] at hn
      | true =>
        simp only [hd,Option.some.injEq] at hn
        subst hn
        obtain ⟨_,_,_,_,_,hs⟩ := (h.supply answers).deallocate hm id
        exact (hs s hd).1

theorem reachable_tidy {w : Routing T} (h : (machine T).Reachable w) :
    Tidy w.interface w.live w.served :=
  h.invariant (fun _ h0 => tidy_start h0) fun _ _ _ hi hn => tidy_next hi hn

/-- Every thread has at most one bucket, `operator delete` got what `operator new` served and is
not live, and a live block that any thread gives back goes where it came from. -/
theorem reachable_routes {w : Routing T} (h : (machine T).Reachable w) :
    (w.interface.buckets.map Prod.fst).Nodup ∧
    w.served.Perm (w.interface.deleted ++ large w.live) ∧
    ∀ e ∈ w.live, ∀ (id : T) (answers : List Nat), ∃ s₁ registered,
      (w.interface.supply answers).release id e.ptr e.size e.n=some (s₁,true,registered) ∧
      w.interface.Released (decide (id=e.owner)) e s₁ ∧
      (w.interface.supply answers).deallocate id e.ptr e.size e.n ≠ none ∧
      ∀ s', (w.interface.supply answers).deallocate id e.ptr e.size e.n=some (s',true) →
        s'.deleted=s₁.deleted ∧
        ∃ added, added.length ≤ 1 ∧ (∀ x ∈ added, x.1=id) ∧ s'.buckets=s₁.buckets ++ added := by
  have ht := reachable_tidy h
  refine ⟨ht.keys,ht.returned,?_⟩
  intro e hm id answers
  obtain ⟨s₁,registered,hr,hrel,hne,hs⟩ := (ht.supply answers).deallocate hm id
  exact ⟨s₁,registered,hr,hrel,hne,fun s' hs' => (hs s' hs').2⟩

/-- The state after four superblocks were requested. -/
def first : Routing Nat :=
  ⟨⟨(GlobalDispatch.make ⟨[2^20,2^21,3*2^20,2^22],[],[]⟩).1,[]⟩,[],[]⟩

theorem start_first : (machine Nat).start first :=
  ⟨_,_,Prod.ext rfl (by decide +kernel),rfl⟩

/-- A small block of thread 0 and a large one of thread 1, given back by thread 2. -/
theorem reachable_routes_three_threads : ∃ w : Routing Nat, (machine Nat).Reachable w ∧
    w.live=[⟨2^30,1,1,10000⟩,⟨5226496,0,8,1⟩] ∧
    ∀ e ∈ w.live, ∃ s₁ registered,
      (w.interface.supply []).release 2 e.ptr e.size e.n=some (s₁,true,registered) ∧
      w.interface.Released false e s₁ := by
  obtain ⟨w,hw,hl⟩ := Machine.reachable_of_runFrom (machine Nat) first
    [.allocate 0 8 1 [],.allocate 1 1 10000 [2^30]]
    (fun w => w.live=[⟨2^30,1,1,10000⟩,⟨5226496,0,8,1⟩]) start_first (by decide +kernel)
  refine ⟨w,hw,hl,?_⟩
  intro e he
  obtain ⟨s₁,registered,hr,hrel,_⟩ := (reachable_routes hw).2.2 e he 2 []
  have hown : decide (2=e.owner)=false := by
    rw [hl] at he
    rcases List.mem_cons.mp he with rfl | he
    · rfl
    · obtain rfl := List.mem_singleton.mp he
      rfl
  exact ⟨s₁,registered,hr,hown ▸ hrel⟩

end Routing

end Allocators.SlabMulti
