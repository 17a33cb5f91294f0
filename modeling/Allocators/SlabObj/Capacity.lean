import Allocators.SlabObj.Lifetimes

/-! The capacity counter of a `Cache`, and how many objects `freeAll` of a pool destroys. -/

namespace Allocators.SlabObj

open Lib SlabImpl LifeEvent

namespace Capacity

section Cache

variable {c c' : Cache} {ptr : Nat} {vecMap : VecMap} {mem : Nat}

theorem splice_myCapacity {x y : Store} {it : It} {r : Cache × It}
    (h : c.splice x y it=some r) : r.1.myCapacity=c.myCapacity := by
  unfold Cache.splice at h
  cases hd : c.deref it with
  | none => simp [hd] at h
  | some slab =>
    simp only [hd] at h
    cases hl : (((c.setStore (c.store x ++ [slab]) x).assign it slab.moved).store y).getLast? with
    | none => simp [hl] at h
    | some back =>
      simp only [hl,Option.some.injEq] at h
      subst h
      simp [Cache.assign]

theorem findFreeSlab_fst (vecMap : VecMap) (c : Cache) (mem : Nat) :
    (Cache.findFreeSlab vecMap c mem).1=grown vecMap c mem := by
  unfold Cache.findFreeSlab grown
  by_cases hp : c.slabsPart=[]
  · by_cases hf : c.slabsFree=[]
    · simp [Pool.Grows,hp,hf]
    · simp [Pool.Grows,hp,hf]
  · simp [Pool.Grows,hp]

/-- A splice that is made only where a condition holds, and what comes after it. -/
theorem spliceIf_myCapacity {x y : Store} {it : It} {b : Prop} [Decidable b] {β : Type*}
    {k : Cache → Option β} {r : β}
    (h : (if b then ((·.1) <$> c.splice x y it).bind k else (some c).bind k)=some r) :
    ∃ c₁, c₁.myCapacity=c.myCapacity ∧ k c₁=some r := by
  split_ifs at h
  · obtain ⟨c₁,h1,hk⟩ := Option.bind_eq_some_iff.mp h
    obtain ⟨q,hq,rfl⟩ := Option.map_eq_some_iff.mp h1
    exact ⟨q.1,splice_myCapacity hq,hk⟩
  · exact ⟨c,rfl,h⟩

theorem allocate_myCapacity (h : c.allocate vecMap mem=some (c',ptr)) :
    c'.myCapacity=(grown vecMap c mem).myCapacity := by
  simp only [Cache.allocate,Option.bind_eq_bind] at h
  obtain ⟨s,_,h⟩ := Option.bind_eq_some_iff.mp h
  obtain ⟨r,_,h⟩ := Option.bind_eq_some_iff.mp h
  obtain ⟨c₁,h1,h⟩ := spliceIf_myCapacity h
  obtain ⟨c₂,h2,h⟩ := spliceIf_myCapacity h
  obtain ⟨rfl,_⟩ := Prod.mk.inj (Option.some.inj h)
  calc
    c₂.myCapacity = c₁.myCapacity := h2
    _ = (Cache.findFreeSlab vecMap c mem).1.myCapacity := by rw [h1]; simp [Cache.assign]
    _ = (grown vecMap c mem).myCapacity := by rw [findFreeSlab_fst]

/-- The end of `deallocate`, once the slab is found. -/
theorem deallocate_tail_myCapacity {store : Store} {it : It}
    (h : ((c.deref it).bind fun s =>
      if (s.deallocate ptr).empty then
        ((·.1) <$> (c.assign it (s.deallocate ptr)).splice .slabsFree store it).bind fun c =>
          some { c with mySize := c.mySize-1 }
      else (some (c.assign it (s.deallocate ptr))).bind fun c =>
        some { c with mySize := c.mySize-1 })=some c') : c'.myCapacity=c.myCapacity := by
  obtain ⟨s,_,h⟩ := Option.bind_eq_some_iff.mp h
  obtain ⟨c₁,h1,h⟩ := spliceIf_myCapacity h
  obtain rfl := Option.some.inj h
  exact h1.trans (by simp [Cache.assign])

theorem deallocate_myCapacity (h : c.deallocate ptr=some c') : c'.myCapacity=c.myCapacity := by
  simp only [Cache.deallocate,Option.bind_eq_bind] at h
  cases hs : c.searchStore .slabsFull ptr with
  | some it =>
    rw [hs] at h
    obtain ⟨q,hq,h⟩ := Option.bind_eq_some_iff.mp h
    obtain ⟨r,hr,rfl⟩ := Option.map_eq_some_iff.mp hq
    exact (deallocate_tail_myCapacity h).trans (splice_myCapacity hr)
  | none =>
    rw [hs] at h
    obtain ⟨q,hq,h⟩ := Option.bind_eq_some_iff.mp h
    obtain ⟨it,_,rfl⟩ := Option.map_eq_some_iff.mp hq
    exact deallocate_tail_myCapacity h

end Cache

/-- The counter tells the blocks of all slabs, those handed out among them, and so how many
objects `freeAll` destroys. -/
structure Accounted (c : Cache) : Prop where
  capacity : c.info.capacity=c.count*c.slabs.length
  size_le : c.info.size ≤ c.info.capacity
  destroyed : ∃ xs : List Nat, effects (Traced.freeAll c).2=xs.map .destroy ∧ xs.length=c.info.capacity

/-- A new slab got its memory and its index list, two bytes a block, from `operator new`. -/
def Room (p : Pool) : SlabImpl.Call → Prop
  | .allocate mem =>
    Pool.Grows p.cache → 0 < mem ∧ p.cache.count*(p.cache.slabs.length+1) < 2^64
  | .deallocate _ => True
  | .freeEmpty => True
  | .freeAll => True

instance (p : Pool) : (c : SlabImpl.Call) → Decidable (Room p c)
  | .allocate mem => inferInstanceAs
    (Decidable (Pool.Grows p.cache → 0 < mem ∧ p.cache.count*(p.cache.slabs.length+1) < 2^64))
  | .deallocate _ => .isTrue trivial
  | .freeEmpty => .isTrue trivial
  | .freeAll => .isTrue trivial

def machine (blockSize count : Nat) : Machine Pool SlabImpl.Call where
  start p := (Pool.machine blockSize count).start p ∧ count < 2^64 ∧ ∀ s ∈ p.cache.slabs, s.mem ≠ 0
  next p c := if Room p c then p.serve c else none

/-- What `freeEmpty` takes off the counter are the blocks of the slabs it drops. -/
def Exact (p : Pool) : SlabImpl.Call → Prop
  | .allocate _ => True
  | .deallocate _ => True
  | .freeEmpty =>
    toSizeT (p.cache.slabsFree.length*p.cache.blockSize)=p.cache.slabsFree.length*p.cache.count
  | .freeAll => True

structure Counter (count : Nat) (p : Pool) : Prop where
  filled : Filled p.cache
  indices : p.vecMap.lookup count=some (indices count)
  count_eq : p.cache.count=count
  nonnull : ∀ s ∈ p.cache.slabs, s.mem ≠ 0
  capacity : p.cache.myCapacity=count*p.cache.slabs.length
  fits : count*p.cache.slabs.length < 2^64

namespace Counter

variable {count : Nat} {p : Pool} {c' : Cache}

theorem accounted (h : Counter count p) : Accounted p.cache := by
  have hcap : p.cache.myCapacity=p.cache.count*p.cache.slabs.length := by
    rw [h.count_eq]
    exact h.capacity
  refine ⟨hcap,?_,held p.cache,?_,(length_held h.filled).trans hcap.symm⟩
  · exact h.filled.mySize_le.trans (le_of_eq hcap.symm)
  · change effects (Traced.clear p.cache.slabsFree ++ Traced.clear p.cache.slabsPart ++
      Traced.clear p.cache.slabsFull)=_
    rw [clear_slabs]
    exact effects_clear h.nonnull

/-- Slabs move and fill up, none comes or goes. -/
theorem moves (h : Counter count p) {x y : Store} {s s' : Slab} {live' : List Nat}
    (hv : Cache.Moves p.cache c' x y s s') (hr : s'.region=s.region) (hf : Filled c')
    (hcap : c'.myCapacity=p.cache.myCapacity) : Counter count ⟨p.vecMap,c',live'⟩ := by
  have hlen : c'.slabs.length=p.cache.slabs.length := by
    obtain ⟨rest,hp,hp',_⟩ := hv.others
    rw [hp.length_eq,hp'.length_eq]
    rfl
  refine ⟨hf,h.indices,hv.count.trans h.count_eq,nonnull_moves hv hr h.nonnull,?_,?_⟩
  · change c'.myCapacity=count*c'.slabs.length
    rw [hlen,hcap,h.capacity]
  · change count*c'.slabs.length < 2^64
    rw [hlen]
    exact h.fits

theorem newSlab (h : Counter count p) {mem : Nat} (hmem : 0 < mem)
    (hroom : p.cache.count*(p.cache.slabs.length+1) < 2^64) :
    Counter count ⟨p.vecMap,Cache.newSlab p.vecMap p.cache mem,p.live⟩ := by
  have hp := slabs_newSlab p.vecMap p.cache mem
  have hlen : (Cache.newSlab p.vecMap p.cache mem).slabs.length=p.cache.slabs.length+1 :=
    hp.length_eq
  have hcount := h.count_eq
  refine ⟨h.filled.newSlab (by rw [hcount]; exact h.indices),h.indices,hcount,?_,?_,?_⟩
  · intro s hs
    rcases List.mem_cons.mp (hp.mem_iff.mp hs) with rfl | hs
    · exact Nat.ne_of_gt hmem
    · exact h.nonnull s hs
  · change toSizeT (p.cache.myCapacity+p.cache.count)=count*_
    rw [hlen,h.capacity,hcount,← Nat.mul_succ,toSizeT]
    exact Nat.mod_eq_of_lt (hcount ▸ hroom)
  · rw [hlen,← hcount]
    exact hroom

theorem allocate (h : Counter count p) (hmin : 2 ≤ count) {mem ptr : Nat}
    (hroom : Room p (.allocate mem)) (ha : p.cache.allocate p.vecMap mem=some (c',ptr)) :
    Counter count ⟨p.vecMap,c',ptr :: p.live⟩ := by
  have hl : p.vecMap.lookup p.cache.count=some (Allocators.indices p.cache.count) := by
    rw [h.count_eq]
    exact h.indices
  obtain ⟨c,s,availible,idx,es,ha',_,_,htaken⟩ :=
    h.filled.allocate _ mem (h.count_eq.symm ▸ hmin) hl
  rw [ha'] at ha
  obtain ⟨rfl,rfl⟩ := Prod.mk.inj (Option.some.inj ha)
  have hgrown : Counter count ⟨p.vecMap,grown p.vecMap p.cache mem,p.live⟩ := by
    unfold grown
    split_ifs with hg
    · exact h.newSlab (hroom hg).1 (hroom hg).2
    · exact h
  obtain ⟨x,hv⟩ := htaken.moves
  exact hgrown.moves hv rfl (hgrown.filled.taken htaken) (allocate_myCapacity ha')

theorem deallocate (h : Counter count p) (hmin : 2 ≤ count) {ptr : Nat}
    (hd : p.cache.deallocate ptr=some c') : Counter count ⟨p.vecMap,c',p.live.erase ptr⟩ := by
  have hmin' : 2 ≤ p.cache.count := h.count_eq.symm ▸ hmin
  obtain ⟨s,es,_,_,hg⟩ := given_of_deallocate h.filled hmin' hd
  obtain ⟨x,hv⟩ := hg.moves
  exact h.moves hv rfl (h.filled.given hg) (deallocate_myCapacity hd)

theorem slabs_freeEmpty (c : Cache) :
    c.slabs.length=c.slabsFree.length+c.freeEmpty.slabs.length := by
  simp [Cache.slabs]

/-- `freeEmpty` is right exactly if the product it subtracts is. -/
theorem capacity_freeEmpty_iff (h : Counter count p) :
    p.cache.freeEmpty.myCapacity=count*p.cache.freeEmpty.slabs.length ↔ Exact p .freeEmpty := by
  have hsplit := slabs_freeEmpty p.cache
  have hcap := h.capacity
  have hfits := h.fits
  rw [hsplit,Nat.mul_add] at hcap hfits
  have hlt : toSizeT (p.cache.slabsFree.length*p.cache.blockSize) < 2^64 :=
    Nat.mod_lt _ (by decide)
  have hsub : p.cache.freeEmpty.myCapacity=
      toSizeT (p.cache.myCapacity+(2^64-toSizeT (p.cache.slabsFree.length*p.cache.blockSize))) := rfl
  have hcount : p.cache.slabsFree.length*p.cache.count=count*p.cache.slabsFree.length := by
    rw [h.count_eq,Nat.mul_comm]
  rw [Exact,hsub,hcap,hcount]
  generalize toSizeT (p.cache.slabsFree.length*p.cache.blockSize)=taken at hlt ⊢
  generalize count*p.cache.slabsFree.length=free at hfits ⊢
  generalize count*p.cache.freeEmpty.slabs.length=kept at hfits ⊢
  rw [toSizeT]
  omega

theorem freeEmpty (h : Counter count p) (he : Exact p .freeEmpty) :
    Counter count ⟨p.vecMap,p.cache.freeEmpty,p.live⟩ := by
  refine ⟨h.filled.freeEmpty,h.indices,h.count_eq,?_,h.capacity_freeEmpty_iff.mpr he,?_⟩
  · intro s hs
    exact h.nonnull s (Cache.mem_slabs_of_freeEmpty hs)
  · have hsplit := slabs_freeEmpty p.cache
    have hfits := h.fits
    rw [hsplit,Nat.mul_add] at hfits
    exact lt_of_le_of_lt (Nat.le_add_left _ _) hfits

theorem freeAll (h : Counter count p) : Counter count ⟨p.vecMap,p.cache.freeAll,[]⟩ := by
  refine ⟨.freeAll _,h.indices,h.count_eq,?_,?_,?_⟩
  all_goals simp [Cache.slabs,Cache.freeAll]

end Counter

section Runs

variable {blockSize count : Nat} {p p' : Pool}

theorem counter_start (h : (machine blockSize count).start p) : Counter count p := by
  obtain ⟨⟨counts,mem,rfl⟩,hlt,hnonnull⟩ := h
  have hl := ((built_foldl counts).addToMap count).2
  refine ⟨(Filled.empty blockSize count).newSlab hl,hl,rfl,hnonnull,?_,?_⟩
  · simpa [Cache.make,Cache.newSlab,Cache.slabs,toSizeT] using hlt
  · simpa [Cache.make,Cache.newSlab,Cache.slabs] using hlt

theorem counter_next (hmin : 2 ≤ count) (h : Counter count p) {c : SlabImpl.Call}
    (he : Exact p c) (hn : (machine blockSize count).next p c=some p') : Counter count p' := by
  change (if Room p c then p.serve c else none)=some p' at hn
  split_ifs at hn with hroom
  cases c with
  | allocate mem =>
    simp only [Pool.serve] at hn
    split_ifs at hn
    obtain ⟨q,ha,rfl⟩ := Option.map_eq_some_iff.mp hn
    exact h.allocate hmin hroom ha
  | deallocate ptr =>
    simp only [Pool.serve] at hn
    split_ifs at hn
    obtain ⟨q,hd,rfl⟩ := Option.map_eq_some_iff.mp hn
    exact h.deallocate hmin hd
  | freeEmpty =>
    cases hn
    exact h.freeEmpty he
  | freeAll =>
    cases hn
    exact h.freeAll

/-- The counter is right all along exactly if every `freeEmpty` subtracts blocks, not bytes. -/
theorem accounted_iff_exact (hmin : 2 ≤ count) {h : List (Pool × SlabImpl.Call)}
    (r : (machine blockSize count).Run h p) :
    (∀ q ∈ Machine.visited h p, Accounted q.cache) ↔ ∀ e ∈ h, Exact e.1 e.2 := by
  refine r.always_iff (fun _ hs => counter_start hs)
    (fun _ _ _ hi he hn => counter_next hmin hi he hn) (fun _ hi => hi.accounted) ?_
  intro q c q' hi he hn
  change (if Room q c then q.serve c else none)=some q' at hn
  split_ifs at hn
  cases c with
  | allocate mem => exact absurd trivial he
  | deallocate ptr => exact absurd trivial he
  | freeEmpty =>
    cases hn
    intro hacc
    refine he (hi.capacity_freeEmpty_iff.mp ?_)
    have hcap : q.cache.freeEmpty.myCapacity=q.cache.freeEmpty.count*q.cache.freeEmpty.slabs.length :=
      hacc.capacity
    rw [hcap,Cache.freeEmpty_count,hi.count_eq]
  | freeAll => exact absurd trivial he

/-- As many bytes in a block as blocks in a slab; a slab is filled, emptied and dropped. -/
theorem accounted_iff_exact_square : ∃ (h : List (Pool × SlabImpl.Call)) (p : Pool),
    (p.cache.slabs=[] ∧ p.cache.info.capacity=0) ∧
      ((∀ q ∈ Machine.visited h p, Accounted q.cache) ↔ ∀ e ∈ h, Exact e.1 e.2) := by
  obtain ⟨p,⟨h,r⟩,hp⟩ := Machine.reachable_of_runFrom (machine 2 2)
    ⟨addToMap [] 2,Cache.make (addToMap [] 2) 4096 2 2,[]⟩
    [.allocate 0,.allocate 0,.deallocate 4096,.deallocate 4098,.freeEmpty]
    (fun p => p.cache.slabs=[] ∧ p.cache.info.capacity=0) ⟨⟨[],4096,rfl⟩,by decide,by decide⟩
    (by decide)
  exact ⟨h,p,hp,accounted_iff_exact (by decide) r⟩

/-- `Cache(8, 2)` and `freeEmpty()`: 8 is subtracted from a capacity of 2. -/
theorem freeEmpty_subtracts_bytes :
    ∃ p, (machine 8 2).Reachable p ∧ p.cache.slabs=[] ∧ p.cache.info.capacity=2^64-6 ∧
      ¬ Accounted p.cache := by
  obtain ⟨p,r,hp⟩ := Machine.reachable_of_runFrom (machine 8 2)
    ⟨addToMap [] 2,Cache.make (addToMap [] 2) 4096 8 2,[]⟩ [.freeEmpty]
    (fun p => p.cache.slabs=[] ∧ p.cache.info.capacity=2^64-6)
    ⟨⟨[],4096,rfl⟩,by decide,by decide⟩ (by decide)
  refine ⟨p,r,hp.1,hp.2,?_⟩
  intro hacc
  have hcap := hacc.capacity
  rw [hp.1,hp.2,List.length_nil,Nat.mul_zero] at hcap
  exact absurd hcap (by decide)

end Runs

end Capacity

end Allocators.SlabObj
