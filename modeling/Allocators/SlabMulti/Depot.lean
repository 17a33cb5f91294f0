import Allocators.SlabMulti.Buckets

/-! Where the slabs of the superblocks are: in the dispatcher or in a cache. -/

namespace Allocators.SlabMulti

open Lib Vector Extent

namespace Heap

/-- `operator new` grants `n` more superblocks. -/
def Grants : Nat → Heap → Prop
  | 0,_ => True
  | n+1,h =>
    match h.new superblockSize with
    | none => False
    | some (_,h) => h.Grants n

instance : (n : Nat) → (h : Heap) → Decidable (h.Grants n)
  | 0,_ => inferInstanceAs (Decidable True)
  | n+1,h =>
    match hn : h.new superblockSize with
    | none => isFalse (by simp [Grants,hn])
    | some (mem,h') =>
      have := instDecidableGrants n h'
      decidable_of_iff (h'.Grants n) (by simp [Grants,hn])

end Heap

namespace GlobalDispatch

/-- All slabs ever cut from a superblock. -/
def carved (d : GlobalDispatch) : List Nat := d.heap.granted.flatMap fun g => carve g.1

/-- The dispatcher with the addresses the next calls of `operator new` return. -/
def supply (d : GlobalDispatch) (answers : List Nat) : GlobalDispatch :=
  { d with heap := { d.heap with answers := answers } }

/-- `getBlock` has a block, or memory to cut some. -/
def Supplies (d : GlobalDispatch) : Prop := d.blocks=[] → d.heap.Grants initSuperblocks

instance (d : GlobalDispatch) : Decidable d.Supplies :=
  inferInstanceAs (Decidable (d.blocks=[] → d.heap.Grants initSuperblocks))

/-- The slabs outside the dispatcher are the rest of those cut. -/
structure Places (d : GlobalDispatch) (ptrs : List Nat) : Prop where
  placed : (d.blocks ++ ptrs).Perm d.carved
  total : d.blocks.length+ptrs.length=superblockSize/slabSize*d.totalSBlocks

variable {d d' : GlobalDispatch} {ptrs ptrs' : List Nat} {mem : Nat}

theorem Places.perm (h : Places d ptrs) (hp : ptrs.Perm ptrs') : Places d ptrs' :=
  ⟨(hp.append_left _).symm.trans h.placed,hp.length_eq ▸ h.total⟩

theorem length_carve (mem : Nat) : (carve mem).length=superblockSize/slabSize := by simp [carve]

/-- A superblock's slabs join `blocks`. -/
theorem requestLoop_places (n : Nat) {b : Bool} (h : (d.blocks ++ ptrs).Perm d.carved)
    (hr : requestLoop n d=(d',b)) :
    (d'.blocks ++ ptrs).Perm d'.carved ∧ d'.totalSBlocks=d.totalSBlocks := by
  induction n generalizing d with
  | zero =>
    obtain ⟨rfl,_⟩ := Prod.mk.inj hr
    exact ⟨h,rfl⟩
  | succ n ih =>
    rw [requestLoop] at hr
    cases hn : d.heap.new superblockSize with
    | none =>
      rw [hn] at hr
      obtain ⟨rfl,_⟩ := Prod.mk.inj hr
      exact ⟨h,rfl⟩
    | some x =>
      obtain ⟨mem,heap⟩ := x
      rw [hn] at hr
      obtain ⟨_,_,hg,_⟩ := new_cases hn
      set e : GlobalDispatch := { d with heap := heap, blocks := d.blocks ++ carve mem } with he
      have hcarved : e.carved=carve mem ++ d.carved := by
        simp only [carved,he,hg,List.flatMap_cons]
      have hplaced : (e.blocks ++ ptrs).Perm e.carved := by
        rw [hcarved]
        have hswap : (d.blocks ++ carve mem ++ ptrs).Perm (carve mem ++ (d.blocks ++ ptrs)) := by
          rw [← List.append_assoc]
          exact List.perm_append_comm.append_right ptrs
        exact hswap.trans (h.append_left _)
      obtain ⟨hp,ht⟩ := ih hplaced hr
      exact ⟨hp,ht⟩

theorem length_requestLoop (n : Nat) (hr : requestLoop n d=(d',true)) :
    d'.blocks.length=d.blocks.length+superblockSize/slabSize*n := by
  induction n generalizing d with
  | zero =>
    obtain ⟨rfl,_⟩ := Prod.mk.inj hr
    rfl
  | succ n ih =>
    rw [requestLoop] at hr
    cases hn : d.heap.new superblockSize with
    | none =>
      rw [hn] at hr
      cases hr
    | some x =>
      rw [hn] at hr
      rw [ih hr,List.length_append,length_carve,Nat.mul_add]
      omega

theorem requestLoop_grants (n : Nat) (h : d.heap.Grants n) : ∃ d', requestLoop n d=(d',true) := by
  induction n generalizing d with
  | zero => exact ⟨d,rfl⟩
  | succ n ih =>
    rw [requestLoop]
    rw [Heap.Grants] at h
    cases hn : d.heap.new superblockSize with
    | none => simp [hn] at h
    | some x =>
      rw [hn] at h
      exact ih h

theorem requestMem_places (n : Nat) (h : Places d ptrs) (hr : requestMem n d=(d',true)) :
    Places d' ptrs := by
  rw [requestMem] at hr
  cases hl : requestLoop n d with
  | mk x b =>
    obtain ⟨hp,ht⟩ := requestLoop_places n h.placed hl
    rw [hl] at hr
    cases b with
    | false => cases hr
    | true =>
      obtain ⟨rfl,_⟩ := Prod.mk.inj hr
      refine ⟨hp,?_⟩
      have htotal := h.total
      have hlen := length_requestLoop n hl
      simp only [ht,hlen,Nat.mul_add]
      omega

/-- The block that is handed out moves. -/
theorem getBlock_places (h : Places d ptrs) (hb : d.getBlock=(some mem,d')) :
    Places d' (mem :: ptrs) := by
  obtain ⟨x,hx,hblocks,rfl⟩ := getBlock_cases hb
  have hx : Places x ptrs := by
    rcases hx with rfl | hr
    · exact h
    · exact requestMem_places initSuperblocks h hr
  constructor
  · have hp := hx.placed
    rw [hblocks,List.append_assoc] at hp
    exact hp
  · have htotal := hx.total
    rw [hblocks,List.length_append] at htotal
    simpa [Nat.add_assoc,Nat.add_comm 1] using htotal

theorem getBlock_of_supplies (h : d.Supplies) : ∃ mem d', d.getBlock=(some mem,d') := by
  have hpop : ∀ x : GlobalDispatch, x.blocks ≠ [] → ∃ mem d',
      (x.blocks.getLast?,{ x with blocks := x.blocks.dropLast })=(some mem,d') :=
    fun x hx => ⟨_,_,by rw [List.getLast?_eq_getLast_of_ne_nil hx]⟩
  rw [getBlock]
  by_cases he : d.blocks=[]
  · obtain ⟨x,hx⟩ := requestLoop_grants initSuperblocks (h he)
    have hlen := length_requestLoop initSuperblocks hx
    have hpos : 0 < superblockSize/slabSize*initSuperblocks := by decide
    rw [if_pos (by simp [he]),requestMem,hx]
    apply hpop ⟨x.heap,x.blocks,_⟩
    intro hnil
    have hnil : x.blocks=[] := hnil
    rw [hnil,List.length_nil] at hlen
    omega
  · rw [if_neg (by simpa using he)]
    exact hpop d he

end GlobalDispatch

/-- The pointer is the only live block of a slab that is not behind the active one, the cache has
other slabs, and more blocks are in use than those can hold. -/
def Cache.GivesBack (c : Cache) (ptr : Nat) : Prop :=
  ∃ it < c.actBlock+1, ∃ slab mem, c.slabs[it]?=some slab ∧ c.ptrs[it]?=some mem ∧
    Slab.containsMem ptr mem c.blockSize c.count=true ∧ slab.size=1 ∧
    minSlabs < c.slabs.length ∧ c.myCapacity-c.count < c.mySize

instance (c : Cache) (ptr : Nat) : Decidable (c.GivesBack ptr) :=
  decidable_of_iff (∃ it < c.actBlock+1,
    ((c.slabs[it]?.any fun slab => decide (slab.size=1)) &&
      c.ptrs[it]?.any fun mem => Slab.containsMem ptr mem c.blockSize c.count)=true ∧
    Cache.minSlabs < c.slabs.length ∧ c.myCapacity-c.count < c.mySize) (by
      simp only [Cache.GivesBack,Bool.and_eq_true,Option.any_eq_true,decide_eq_true_eq]
      constructor
      · rintro ⟨it,hit,⟨⟨slab,hs,hsize⟩,mem,hm,hc⟩,hone,hcap⟩
        exact ⟨it,hit,slab,mem,hs,hm,hc,hsize,hone,hcap⟩
      · rintro ⟨it,hit,slab,mem,hs,hm,hc,hsize,hone,hcap⟩
        exact ⟨it,hit,⟨⟨slab,hs,hsize⟩,mem,hm,hc⟩,hone,hcap⟩)

section Caches

variable {size ptr mem : Nat} {c c' : Cache} {live : List Nat} {d d' : GlobalDispatch}
  {s s' : Shelf} {thisThread : Bool} {lo hi : List Row} {r : Row}

/-- What `allocate` takes from the dispatcher joins the cache. -/
theorem Tended.allocate_ptrs (hsz : size ∈ cacheSizes) (h : Tended size c live)
    (ha : c.allocate d=some (d',c',some ptr)) :
    (d'=d ∧ c'.ptrs.Perm c.ptrs) ∨
      ∃ mem, d.getBlock=(some mem,d') ∧ c'.ptrs.Perm (mem :: c.ptrs) := by
  obtain ⟨s,rfl,hs,_⟩ := h
  obtain ⟨s',rfl,hcase⟩ := Shelf.served_of_allocate (getIndicies_of_holds hsz hs) ha
  rcases hcase with ⟨hg,rfl,hserved⟩ | ⟨hg,mem,hb,hserved⟩
  · left
    rcases (hserved ⟨[],0⟩).ptrs_perm with ⟨_,hp⟩ | ⟨hx,_⟩
    · exact ⟨rfl,hp⟩
    · exact absurd hx hg
  · right
    rcases hserved.ptrs_perm with ⟨hx,_⟩ | ⟨_,hp⟩
    · exact absurd hg hx
    · exact ⟨mem,hb,hp⟩

/-- With a block to be had, the constructor throws nothing. -/
theorem make_supplied (hsz : size ∈ cacheSizes) (hd : d.Supplies) :
    Cache.make d (slabSize/size) size ≠ some (d',c,false) := by
  obtain ⟨mem,d₁,hb⟩ := GlobalDispatch.getBlock_of_supplies hd
  have hi : Dispatch.getIndicies d size=some (indices (slabSize/size)) := getIndicies_eq hsz
  have hb : Dispatch.getBlock d=(some mem,d₁) := hb
  simp [Cache.make,Cache.addCache,hi,hb]

/-- With a block for a cache that grows, `allocate` throws nothing. -/
theorem Tended.allocate_supplied (hsz : size ∈ cacheSizes) (h : Tended size c live)
    (hd : c.Grows → d.Supplies) : c.allocate d ≠ some (d',c',none) := by
  obtain ⟨s,rfl,hs,_⟩ := h
  intro ha
  have hne : s.cache.allocate d ≠ none := by simp [ha]
  rcases Shelf.allocate_served hs.act (Shelf.canServe_of_allocate hs.act hne) d with
    ⟨_,s',p,he,_⟩ | ⟨hg,hserve⟩
  · cases ha.symm.trans he
  · obtain ⟨mem,d₁,hb⟩ := GlobalDispatch.getBlock_of_supplies (hd hg)
    obtain ⟨s',p,he,_⟩ := hserve d₁ _ mem (getIndicies_of_holds hsz hs) hb
    cases ha.symm.trans he

/-- The decision to give a slab away, on the state before the call. -/
theorem givesBack_iff (h : Holds (slabSize/size) size s live) (hm : ptr ∈ live)
    (hr : Returned s ptr thisThread s' lo r hi) :
    s.cache.GivesBack ptr ↔
      s.cache.decision lo.length (r.give ptr thisThread).2=.toDispatch lo.length := by
  have hsize := size_give h hm hr
  have hmem : r ∈ s.rows := by simp [hr.rows]
  have hempty : r.2.size=1 ↔ (r.give ptr thisThread).2.availible.length+
      (r.give ptr thisThread).2.foreigns.length=(r.give ptr thisThread).2.count := by
    have hfree : r.free.length=r.2.availible.length+r.2.foreigns.length := List.length_append
    rw [Slab.size,Slab.size,r.length_give,r.count_give] at hsize
    rw [Slab.size,r.length_give,r.count_give]
    omega
  constructor
  · rintro ⟨i,hle,slab,mem,hslab,hptr,hc,hone,hmore,hcap⟩
    obtain ⟨rfl,rfl,rfl⟩ := found_unique h hr hslab hptr hc
    have hle : lo.length < s.act+1 := hle
    rcases Shelf.decision_cases s lo.length (r.give ptr thisThread).2 with
      ⟨_,_,hlt⟩ | ⟨he,_⟩ | ⟨_,_,hno⟩
    · omega
    · exact he
    · refine absurd ⟨hempty.mp hone,?_,hcap⟩ hno
      simpa [Shelf.cache,Cache.minSlabs] using hmore
  · intro hd
    obtain ⟨_,hfull,hmore,hcap,hno⟩ := Shelf.toDispatch_of_decision hd
    have hone := hempty.mpr hfull
    refine ⟨lo.length,?_,r.2,r.1,Shelf.slabs_getElem? hr.rows,Shelf.ptrs_getElem? hr.rows,
      (Shelf.containsMem_iff h.shaped hmem).mpr hr.contains,hone,?_,hcap⟩
    · change lo.length < s.act+1
      by_contra hlt
      exact hno ⟨by omega,by omega⟩
    · simpa [Shelf.cache,Cache.minSlabs] using hmore

/-- A slab given away takes its block along, and no other call loses one. -/
theorem Tended.deallocate_ptrs (hsz : size ∈ cacheSizes) (h : Tended size c live)
    (hm : ptr ∈ live) (thisThread : Bool) :
    ∃ c', c.deallocate ptr thisThread=some (c',true) ∧ Tended size c' (live.erase ptr) ∧
      c'.ptrs.Subperm c.ptrs ∧ (¬ c.GivesBack ptr → c'.ptrs.Perm c.ptrs) ∧
      (c.GivesBack ptr → c'.ptrs.length+1=c.ptrs.length) := by
  obtain ⟨c₁,hd₁,ht,hsub,_⟩ := h.deallocate hsz hm thisThread
  obtain ⟨s,rfl,hs,_⟩ := h
  obtain ⟨s',lo,r,hi,hd,hr⟩ := hs.deallocate hm thisThread
  obtain ⟨rfl,_⟩ := Prod.mk.inj (Option.some.inj (hd₁.symm.trans hd))
  refine ⟨_,hd,ht,hsub,?_,?_⟩
  · intro hg
    rw [givesBack_iff hs hm hr] at hg
    rw [← hr.map_fst]
    rcases hr.rearranged.core with ⟨_,hp⟩ | ⟨it,x,hdec,_,_⟩
    · exact hp.map Prod.fst
    · obtain ⟨rfl,_⟩ := Shelf.toDispatch_of_decision hdec
      exact absurd hdec hg
  · intro hg
    rw [givesBack_iff hs hm hr] at hg
    rw [← hr.map_fst]
    rcases hr.rearranged.core with ⟨hno,_⟩ | ⟨it,x,_,_,hp⟩
    · exact absurd hg (hno _)
    · exact (hp.map Prod.fst).length_eq

end Caches

/-- The dispatcher and the caches over it, with their live blocks. -/
structure Depot where
  dispatcher : GlobalDispatch
  clients : List Client

namespace Depot

/-- A cache of the size class `k` is built, or one of those that are there is called; `answers`
are the addresses `operator new` returns. -/
inductive Request
  | make (k : Nat) (answers : List Nat)
  | allocate (i : Nat) (answers : List Nat)
  | deallocate (i ptr : Nat) (thisThread : Bool)
  deriving DecidableEq, Repr

/-- The slabs of all caches. -/
def ptrs (s : Depot) : List Nat := s.clients.flatMap fun k => k.cache.ptrs

/-- One call; a pointer given back is live. `std::bad_alloc` leaves what was done so far, and no
cache from a constructor. -/
def serve (s : Depot) : Request → Option Depot
  | .make k answers =>
    match cacheSizes[k]?,blocksPer[k]? with
    | some size,some count =>
      match Cache.make (s.dispatcher.supply answers) count size with
      | none => none
      | some (d,c,true) => some ⟨d,s.clients ++ [⟨c,[]⟩]⟩
      | some (d,_,false) => some ⟨d,s.clients⟩
    | _,_ => none
  | .allocate i answers =>
    match s.clients[i]? with
    | none => none
    | some k =>
      match k.cache.allocate (s.dispatcher.supply answers) with
      | none => none
      | some (d,c,some ptr) => some ⟨d,s.clients.set i ⟨c,ptr :: k.live⟩⟩
      | some (d,c,none) => some ⟨d,s.clients.set i ⟨c,k.live⟩⟩
  | .deallocate i ptr thisThread =>
    match s.clients[i]? with
    | none => none
    | some k =>
      if ptr ∈ k.live then
        match k.cache.deallocate ptr thisThread with
        | none => none
        | some (c,true) => some ⟨s.dispatcher,s.clients.set i ⟨c,k.live.erase ptr⟩⟩
        | some (c,false) => some ⟨s.dispatcher,s.clients.set i ⟨c,k.live⟩⟩
      else none

/-- The calls on any number of caches, from the dispatcher just built. -/
def machine : Machine Depot Request where
  start s := ∃ answers, GlobalDispatch.make ⟨answers,[],[]⟩=(s.dispatcher,true) ∧ s.clients=[]
  next := serve

/-- Every slab cut so far is in one place, in `blocks` or once in the `ptrs` of one cache. -/
structure Conserved (s : Depot) : Prop where
  placed : (s.dispatcher.blocks ++ s.ptrs).Perm s.dispatcher.carved
  once : s.dispatcher.carved.Nodup
  total : s.dispatcher.blocks.length+s.ptrs.length=
    superblockSize/slabSize*s.dispatcher.totalSBlocks

/-- A call that needs a block finds one, or memory for more. -/
def Supplied (s : Depot) : Request → Prop
  | .make _ answers => (s.dispatcher.supply answers).Supplies
  | .allocate i answers =>
    match s.clients[i]? with
    | none => True
    | some k => k.cache.Grows → (s.dispatcher.supply answers).Supplies
  | .deallocate _ _ _ => True

instance (s : Depot) : (q : Request) → Decidable (s.Supplied q)
  | .make _ answers => inferInstanceAs (Decidable (s.dispatcher.supply answers).Supplies)
  | .allocate i answers =>
    match h : s.clients[i]? with
    | none => isTrue (by simp [Supplied,h])
    | some k => decidable_of_iff (k.cache.Grows → (s.dispatcher.supply answers).Supplies)
        (by simp [Supplied,h])
  | .deallocate _ _ _ => inferInstanceAs (Decidable True)

/-- The call gives no slab back to the dispatcher. -/
def Retains (s : Depot) : Request → Prop
  | .deallocate i ptr _ =>
    match s.clients[i]? with
    | none => True
    | some k => ¬ k.cache.GivesBack ptr
  | _ => True

instance (s : Depot) : (q : Request) → Decidable (s.Retains q)
  | .make _ _ => isTrue trivial
  | .allocate _ _ => isTrue trivial
  | .deallocate i ptr _ =>
    match h : s.clients[i]? with
    | none => isTrue (by simp [Retains,h])
    | some k => decidable_of_iff (¬ k.cache.GivesBack ptr) (by simp [Retains,h])

/-- The caches account for their live blocks, and what was cut from superblocks is in the
dispatcher, in a cache or lost. -/
structure Spent (s : Depot) (lost : List Nat) : Prop where
  ledger : Ledger s.dispatcher.heap.granted
    (slabExtents s.dispatcher.blocks ++ slabExtents (s.ptrs ++ lost))
  places : s.dispatcher.Places (s.ptrs ++ lost)
  tended : ∀ k ∈ s.clients, ∃ size ∈ cacheSizes, Tended size k.cache k.live

variable {s s' : Depot} {lost : List Nat}

theorem nodup_of_tiled {l : List Nat} (h : Tiled (slabExtents l)) : l.Nodup := by
  rw [Tiled,slabExtents,List.pairwise_map] at h
  refine h.imp fun {x y} hxy hne => ?_
  subst hne
  have hpos := GlobalDispatch.slabSize_pos
  have := apart_iff.mp hxy
  simp only at this
  omega

/-- With nothing lost every slab is accounted for. -/
theorem Spent.conserved (h : s.Spent []) : s.Conserved := by
  have hl := h.ledger.tiled
  have hp := h.places
  rw [List.append_nil] at hl hp
  rw [← slabExtents_append] at hl
  exact ⟨hp.placed,hp.placed.nodup_iff.mp (nodup_of_tiled hl),hp.total⟩

theorem spent_start (h : machine.start s) : s.Spent [] := by
  obtain ⟨answers,hm,hc⟩ := h
  have hptrs : s.ptrs ++ []=[] := by simp [ptrs,hc]
  rw [GlobalDispatch.make] at hm
  set d : GlobalDispatch := ⟨⟨answers,[],[]⟩,[],0⟩ with hd
  have hled : Ledger d.heap.granted (slabExtents d.blocks ++ []) := Ledger.nil
  have hpl : d.Places [] := ⟨.refl _,rfl⟩
  refine ⟨?_,?_,by simp [hc]⟩
  · rw [hptrs]
    exact (GlobalDispatch.requestMem_ledger initSuperblocks hled hm).1
  · rw [hptrs]
    exact GlobalDispatch.requestMem_places initSuperblocks hpl hm

section Clients

variable {lo hi : List Client} {k k' : Client} {d d' : GlobalDispatch} {size : Nat}
  {answers : List Nat} {c : Cache}

/-- The slabs of the caches but one. -/
def others (lo hi : List Client) : List Nat :=
  (lo.flatMap fun k => k.cache.ptrs) ++ hi.flatMap fun k => k.cache.ptrs

theorem ptrs_mid (d : GlobalDispatch) (lo hi : List Client) (k : Client) :
    (ptrs ⟨d,lo ++ k :: hi⟩).Perm (k.cache.ptrs ++ others lo hi) :=
  flatMap_mid_perm lo hi k _

/-- The slabs of one cache, of the others and the lost ones. -/
theorem perm_mid (d : GlobalDispatch) (lo hi : List Client) (k : Client) (lost : List Nat) :
    (ptrs ⟨d,lo ++ k :: hi⟩ ++ lost).Perm (k.cache.ptrs ++ (others lo hi ++ lost)) := by
  rw [← List.append_assoc]
  exact (ptrs_mid d lo hi k).append_right lost

theorem Spent.ledger_mid (h : Spent ⟨d,lo ++ k :: hi⟩ lost) :
    Ledger d.heap.granted (slabExtents d.blocks ++
      (slabExtents k.cache.ptrs ++ slabExtents (others lo hi ++ lost))) := by
  rw [← slabExtents_append]
  exact h.ledger.perm (((perm_mid d lo hi k lost).map _).append_left _)

theorem Spent.places_mid (h : Spent ⟨d,lo ++ k :: hi⟩ lost) :
    d.Places (k.cache.ptrs ++ (others lo hi ++ lost)) :=
  h.places.perm (perm_mid d lo hi k lost)

/-- One of the caches and the dispatcher change. -/
theorem Spent.set {lost' : List Nat} (h : Spent ⟨d,lo ++ k :: hi⟩ lost)
    (hl : Ledger d'.heap.granted (slabExtents d'.blocks ++
      (slabExtents k'.cache.ptrs ++ slabExtents (others lo hi ++ lost'))))
    (hp : d'.Places (k'.cache.ptrs ++ (others lo hi ++ lost'))) (hsz : size ∈ cacheSizes)
    (ht : Tended size k'.cache k'.live) : Spent ⟨d',lo ++ k' :: hi⟩ lost' := by
  have hperm := (perm_mid d' lo hi k' lost').symm
  rw [← slabExtents_append] at hl
  refine ⟨hl.perm ((hperm.map _).append_left _),hp.perm hperm,?_⟩
  intro x hx
  rcases List.mem_append.mp hx with hx | hx
  · exact h.tended x (List.mem_append_left _ hx)
  · rcases List.mem_cons.mp hx with rfl | hx
    · exact ⟨size,hsz,ht⟩
    · exact h.tended x (List.mem_append_right _ (List.mem_cons_of_mem _ hx))

theorem Spent.tended_mid (h : Spent ⟨d,lo ++ k :: hi⟩ lost) :
    ∃ size ∈ cacheSizes, Tended size k.cache k.live :=
  h.tended k (List.mem_append_right _ List.mem_cons_self)

/-- A new cache. -/
theorem Spent.make (h : s.Spent lost) (hsz : size ∈ cacheSizes)
    (hm : Cache.make (s.dispatcher.supply answers) (slabSize/size) size=some (d',c,true)) :
    Spent ⟨d',s.clients ++ [⟨c,[]⟩]⟩ lost := by
  have hled : Ledger (s.dispatcher.supply answers).heap.granted
      (slabExtents (s.dispatcher.supply answers).blocks ++ slabExtents (s.ptrs ++ lost)) := h.ledger
  have hpl : (s.dispatcher.supply answers).Places (s.ptrs ++ lost) :=
    ⟨h.places.placed,h.places.total⟩
  obtain ⟨ht,hled',_⟩ := tended_make hsz hled hm
  obtain ⟨mem,hb,rfl⟩ := make_cases hsz hm
  set c := (Client.first (slabSize/size) size mem).cache with hc
  have hperm : (c.ptrs ++ (s.ptrs ++ lost)).Perm (ptrs ⟨d',s.clients ++ [⟨c,[]⟩]⟩ ++ lost) := by
    simp only [ptrs,List.flatMap_append,List.flatMap_singleton]
    rw [← List.append_assoc]
    exact List.perm_append_comm.append_right lost
  rw [← slabExtents_append] at hled'
  refine ⟨hled'.perm ((hperm.map _).append_left _),
    (GlobalDispatch.getBlock_places hpl hb).perm hperm,?_⟩
  intro x hx
  rcases List.mem_append.mp hx with hx | hx
  · exact h.tended x hx
  · obtain rfl := List.mem_singleton.mp hx
    exact ⟨size,hsz,ht⟩

/-- A block handed out. -/
theorem Spent.allocate {ptr : Nat} (h : Spent ⟨d,lo ++ k :: hi⟩ lost)
    (ha : k.cache.allocate (d.supply answers)=some (d',c,some ptr)) :
    Spent ⟨d',lo ++ ⟨c,ptr :: k.live⟩ :: hi⟩ lost := by
  obtain ⟨size,hsz,ht⟩ := h.tended_mid
  have hled : Ledger (d.supply answers).heap.granted (slabExtents (d.supply answers).blocks ++
      (slabExtents k.cache.ptrs ++ slabExtents (others lo hi ++ lost))) := h.ledger_mid
  have hpl : (d.supply answers).Places (k.cache.ptrs ++ (others lo hi ++ lost)) :=
    ⟨h.places_mid.placed,h.places_mid.total⟩
  obtain ⟨ht',_,hled',_⟩ := ht.allocate hsz hled ha
  refine h.set hled' ?_ hsz ht'
  rcases ht.allocate_ptrs hsz ha with ⟨rfl,hp⟩ | ⟨mem,hb,hp⟩
  · exact hpl.perm (hp.symm.append_right _)
  · exact (GlobalDispatch.getBlock_places hpl hb).perm (hp.symm.append_right _)

end Clients

/-- A call loses one slab if it gives one back, and none otherwise. -/
theorem Spent.next {q : Request} (h : s.Spent lost) (hx : s.Supplied q)
    (hn : s.serve q=some s') : ∃ gone, s'.Spent (gone ++ lost) ∧
      gone.length=if s.Retains q then 0 else 1 := by
  cases q with
  | make k answers =>
    refine ⟨[],?_,(if_pos trivial).symm⟩
    simp only [serve] at hn
    cases hk : cacheSizes[k]? with
    | none => simp [hk] at hn
    | some size =>
      have hsz := List.mem_of_getElem? hk
      have hcount : blocksPer[k]?=some (slabSize/size) := by
        simp [blocksPer,List.getElem?_map,hk]
      simp only [hk,hcount] at hn
      cases hm : Cache.make (s.dispatcher.supply answers) (slabSize/size) size with
      | none => simp [hm] at hn
      | some x =>
        obtain ⟨d',c,ok⟩ := x
        cases ok with
        | false => exact absurd hm (make_supplied hsz hx)
        | true =>
          simp only [hm,Option.some.injEq] at hn
          subst hn
          exact h.make hsz hm
  | allocate i answers =>
    refine ⟨[],?_,(if_pos trivial).symm⟩
    simp only [serve] at hn
    cases hk : s.clients[i]? with
    | none => simp [hk] at hn
    | some k =>
      simp only [Supplied,hk] at hn hx
      obtain ⟨lo,hi,hs,rfl⟩ := eq_mid k hk
      obtain ⟨d,clients⟩ := s
      simp only at hs hn hx
      subst hs
      obtain ⟨size,hsz,ht⟩ := h.tended_mid
      cases ha : k.cache.allocate (d.supply answers) with
      | none => simp [ha] at hn
      | some x =>
        obtain ⟨d',c,ptr⟩ := x
        cases ptr with
        | none => exact absurd ha (ht.allocate_supplied hsz hx)
        | some ptr =>
          simp only [ha,set_mid,Option.some.injEq] at hn
          subst hn
          exact h.allocate ha
  | deallocate i ptr thisThread =>
    simp only [serve] at hn
    cases hk : s.clients[i]? with
    | none => simp [hk] at hn
    | some k =>
      obtain ⟨lo,hi,hs,rfl⟩ := eq_mid k hk
      obtain ⟨d,clients⟩ := s
      simp only at hs hn
      subst hs
      simp only [getElem?_mid] at hn
      obtain ⟨size,hsz,ht⟩ := h.tended_mid
      split_ifs at hn with hm
      obtain ⟨c,hd,ht',hsub,hperm,hlen⟩ := ht.deallocate_ptrs hsz hm thisThread
      simp only [hd,set_mid,Option.some.injEq] at hn
      subst hn
      have hret : Retains ⟨d,lo ++ k :: hi⟩ (.deallocate lo.length ptr thisThread) ↔
          ¬ k.cache.GivesBack ptr := by simp only [Retains,getElem?_mid]
      by_cases hg : k.cache.GivesBack ptr
      · obtain ⟨mem,hmem⟩ := hsub.exists_of_length_lt (by have := hlen hg; omega)
        have hp : (mem :: c.ptrs).Perm k.cache.ptrs :=
          hmem.perm_of_length_le (by have := hlen hg; simp only [List.length_cons]; omega)
        have hmove : (k.cache.ptrs ++ (others lo hi ++ lost)).Perm
            (c.ptrs ++ (others lo hi ++ ([mem] ++ lost))) := by
          refine (hp.symm.append_right _).trans ?_
          rw [List.cons_append,← List.append_assoc,← List.append_assoc,List.singleton_append]
          exact List.perm_middle.symm
        have hled := h.ledger_mid
        rw [← slabExtents_append] at hled
        have hled' := hled.perm ((Bucket.slabExtents_perm hmove).append_left _)
        rw [slabExtents_append] at hled'
        refine ⟨[mem],h.set hled' (h.places_mid.perm hmove) hsz ht',?_⟩
        rw [if_neg (fun hr => hret.mp hr hg)]
        rfl
      · have hp := hperm hg
        have hled := h.ledger_mid.perm (((hp.symm.map _).append_right _).append_left _)
        refine ⟨[],h.set hled (h.places_mid.perm (hp.symm.append_right _)) hsz ht',?_⟩
        rw [if_pos (hret.mpr hg)]
        rfl

/-- A call that gives no slab back loses none. -/
theorem spent_next {q : Request} (h : s.Spent []) (hx : s.Supplied q) (hg : s.Retains q)
    (hn : s.serve q=some s') : s'.Spent [] := by
  obtain ⟨gone,hs,hlen⟩ := h.next hx hn
  rw [if_pos hg] at hlen
  obtain rfl := List.length_eq_zero_iff.mp hlen
  exact hs

/-- The block of a slab given away is in no place any more. -/
theorem not_conserved_next {q : Request} (h : s.Spent []) (hx : s.Supplied q) (hg : ¬ s.Retains q)
    (hn : s.serve q=some s') : ¬ s'.Conserved := by
  intro hc
  obtain ⟨gone,hs,hlen⟩ := h.next hx hn
  have hnew := hs.places.total
  have hold := hc.total
  rw [if_neg hg] at hlen
  simp only [List.length_append,List.append_nil] at hnew
  omega

/-- As long as memory is there for the calls that need it, every slab cut from a superblock is in
the dispatcher or in one of the caches exactly if no call gives a slab back. -/
theorem conserved_iff_retains {h : List (Depot × Request)} (r : machine.Run h s)
    (hx : ∀ e ∈ h, e.1.Supplied e.2) :
    (∀ t ∈ Machine.visited h s, t.Conserved) ↔ ∀ e ∈ h, e.1.Retains e.2 :=
  r.always_iff_of (fun _ hs => spent_start hs) (fun _ _ _ hi hx hg hn => spent_next hi hx hg hn)
    (fun _ hi => hi.conserved) (fun _ _ _ hi hx hg hn => not_conserved_next hi hx hg hn) hx

/-- The dispatcher just built, at fixed addresses, and no cache. -/
def first : Depot := ⟨(GlobalDispatch.make ⟨[2^20,2^21,3*2^20,2^22],[],[]⟩).1,[]⟩

theorem start_first : machine.start first := ⟨_,Prod.ext rfl (by decide +kernel),rfl⟩

/-- Two caches; one of them grows and gets a block back. -/
theorem conserved_iff_retains_two_caches :
    ∃ (h : List (Depot × Request)) (s : Depot),
      (s.ptrs=[5210112,5226496,5193728] ∧ s.clients.map Client.live=[[5234688],[5193728]]) ∧
        ((∀ t ∈ Machine.visited h s, t.Conserved) ↔ ∀ e ∈ h, e.1.Retains e.2) := by
  let M := machine.restrict Supplied
  obtain ⟨s,⟨h,r⟩,hs⟩ := Machine.reachable_of_runFrom M first
    [.make 7 [],.allocate 0 [],.allocate 0 [],.make 0 [],.allocate 1 [],.deallocate 0 5226496 false]
    (fun s => s.ptrs=[5210112,5226496,5193728] ∧
      s.clients.map Client.live=[[5234688],[5193728]]) start_first (by decide +kernel)
  obtain ⟨hr,hx⟩ := r.of_restrict
  exact ⟨h,s,hs,conserved_iff_retains hr hx⟩

/-- Slabs of two blocks, three allocated, the third given back: its slab is gone. -/
theorem given_back_slab_is_lost : ∃ s, machine.Reachable s ∧ ¬ s.Conserved := by
  obtain ⟨s,hr,hl,ht⟩ := Machine.reachable_of_runFrom machine first
    [.make 7 [],.allocate 0 [],.allocate 0 [],.allocate 0 [],.deallocate 0 5210112 true]
    (fun s => s.dispatcher.blocks.length+s.ptrs.length=255 ∧ s.dispatcher.totalSBlocks=4)
    start_first (by decide +kernel)
  refine ⟨s,hr,?_⟩
  intro hc
  have htotal := hc.total
  rw [hl,ht] at htotal
  exact absurd htotal (by decide)

end Depot

end Allocators.SlabMulti
