import Allocators.SlabObj.Interface
import Allocators.SlabImpl.Filled

/-! Which objects are alive in every run, and which of them each call constructs and destroys. -/

namespace Allocators.SlabObj

open Lib Extent SlabImpl LifeEvent

/-- All objects of all slabs the cache holds. -/
def held (c : Cache) : List Nat := c.slabs.flatMap objects

section Effects

variable {c c' : Cache} {x y : Store} {s s' : Slab}

@[simp] theorem effects_append (es fs : List SlabImpl.Event) :
    effects (es ++ fs)=effects es ++ effects fs := by simp [effects]

theorem effects_construct (s : Slab) :
    effects [.construct s]=(objects s).map .construct := by
  simp [effects,effect]

/-- Slabs without memory take no object with them. -/
theorem effects_silent {es : List SlabImpl.Event} (h : Silent es) : effects es=[] := by
  refine List.flatMap_eq_nil_iff.mpr ?_
  intro e he
  obtain ⟨s,hs,rfl⟩ := h e he
  simp [effect,hs]

theorem effects_clear {l : List Slab} (h : ∀ s ∈ l, s.mem ≠ 0) :
    effects (Traced.clear l)=(l.flatMap objects).map .destroy := by
  induction l with
  | nil => rfl
  | cons s l ih =>
    have hs := h s (by simp)
    have hl := ih fun t ht => h t (List.mem_cons_of_mem _ ht)
    have hcons : effects (Traced.clear (s :: l))=
        effect (.destroy s) ++ effects (Traced.clear l) := rfl
    rw [hcons,hl]
    simp [effect,hs]

theorem clear_slabs (c : Cache) : Traced.clear c.slabsFree ++ Traced.clear c.slabsPart ++
    Traced.clear c.slabsFull=Traced.clear c.slabs := by
  simp [Traced.clear,Cache.slabs]

theorem objects_eq (h : s'.region=s.region) : objects s'=objects s := by
  have hc : s'.count=s.count := congrArg Region.count h
  simp only [objects,h,hc]

theorem length_objects (s : Slab) : (objects s).length=s.count := by simp [objects]

/-- All slabs have the same number of objects. -/
theorem length_held (h : Filled c) : (held c).length=c.count*c.slabs.length := by
  have heq : ∀ n ∈ c.slabs.map fun s => (objects s).length, n=c.count := by
    refine List.forall_mem_map.mpr ?_
    intro s hs
    rw [length_objects]
    exact h.shape s hs
  rw [held,List.length_flatMap,List.sum_eq_card_nsmul _ _ heq,List.length_map,smul_eq_mul,
    Nat.mul_comm]

theorem mem_objects {ptr : Nat} : ptr ∈ objects s ↔ s.region.HasBlock ptr := by
  simp only [objects,List.mem_map,List.mem_range,Region.HasBlock]
  constructor
  · rintro ⟨i,hi,rfl⟩
    exact ⟨i,hi,rfl⟩
  · rintro ⟨i,hi,rfl⟩
    exact ⟨i,hi,rfl⟩

theorem nodup_objects (h : 0 < s.blockSize) : (objects s).Nodup :=
  List.nodup_range.map fun _ _ he => Region.block_injective (r := s.region) h he

/-- A slab that moves takes its objects along. -/
theorem held_moves (hv : Cache.Moves c c' x y s s') (hr : s'.region=s.region) :
    (held c').Perm (held c) := by
  obtain ⟨rest,hp,hp',_⟩ := hv.others
  have he : (s' :: rest).flatMap objects=(s :: rest).flatMap objects := by
    simp only [List.flatMap_cons,objects_eq hr]
  exact ((hp'.flatMap_right objects).trans (he ▸ .refl _)).trans (hp.flatMap_right objects).symm

theorem nonnull_moves (hv : Cache.Moves c c' x y s s') (hr : s'.region=s.region)
    (h : ∀ t ∈ c.slabs, t.mem ≠ 0) : ∀ t ∈ c'.slabs, t.mem ≠ 0 := by
  obtain ⟨rest,hp,hp',_⟩ := hv.others
  intro t ht
  rcases List.mem_cons.mp (hp'.mem_iff.mp ht) with rfl | ht
  · have hm : t.mem=s.mem := congrArg Region.base hr
    rw [hm]
    exact h s (hp.mem_iff.mpr (by simp))
  · exact h t (hp.mem_iff.mpr (List.mem_cons_of_mem _ ht))

end Effects

/-- The objects constructed in new memory. -/
def fresh (mem sizeofT count : Nat) : List Nat := (List.range count).map fun i => mem+i*sizeofT

/-- The living objects are those of the slabs held. -/
def Alive (p : State) : Prop := ∃ l, replay [] p.history=some l ∧ l.Perm (held p.pool.cache)

/-- What a run keeps whatever the present cache is. -/
structure Balanced (p : State) : Prop where
  built : p.pool.vecMap.Built
  nonnull : ∀ s ∈ p.pool.cache.slabs, s.mem ≠ 0
  alive : Alive p

/-- And what it keeps of the present cache. -/
structure Kept (sizeofT count : Nat) (p : State) : Prop extends Balanced p where
  sound : Pool.Sound sizeofT count p.pool
  filled : Filled p.pool.cache

/-- What each call does to objects: none runs into undefined behaviour, an object handed out is
alive, new slabs are all that is constructed and dropped slabs all that is destroyed. -/
structure Handles (pgSz sizeofT : Nat) (p : State) : Prop where
  allocate : ∀ mem,
    (Pool.Grows p.pool.cache → Granted sizeofT p.pool.cache p.pool.cache.count mem) →
    ∃ p' ptr, next pgSz sizeofT p (.allocate mem)=some p' ∧ p'.pool.live=ptr :: p.pool.live ∧
      ptr ∉ p.pool.live ∧ ptr ∈ held p'.pool.cache ∧
      p'.history=p.history ++ (if Pool.Grows p.pool.cache then
        (fresh mem sizeofT p.pool.cache.count).map .construct else [])
  deallocate : ∀ ptr ∈ p.pool.live, ptr ∈ held p.pool.cache ∧
    ∃ p', next pgSz sizeofT p (.deallocate ptr)=some p' ∧ p'.history=p.history ++ [.use ptr]
  freeEmpty : ∃ p', next pgSz sizeofT p .freeEmpty=some p' ∧
    p'.history=p.history ++ (p.pool.cache.slabsFree.flatMap objects).map .destroy
  freeAll : ∃ p', next pgSz sizeofT p .freeAll=some p' ∧ held p'.pool.cache=[] ∧
    p'.history=p.history ++ (held p.pool.cache).map .destroy ∧
    (held p.pool.cache).length=p.pool.cache.count*p.pool.cache.slabs.length
  addCache : ∀ count mem, 2 ≤ roundedCount pgSz sizeofT count →
    roundedCount pgSz sizeofT count ≤ maxSlabBlocks →
    Granted sizeofT p.pool.cache (roundedCount pgSz sizeofT count) mem →
    ∃ p', next pgSz sizeofT p (.addCache count mem)=some p' ∧
      held p'.pool.cache=fresh mem sizeofT (roundedCount pgSz sizeofT count) ∧
      p'.history=p.history ++
        ((fresh mem sizeofT (roundedCount pgSz sizeofT count)).map .construct ++
          (held p.pool.cache).map .destroy)

section Memory

variable {sizeofT : Nat} {p : State} {mem n : Nat}

theorem nodup_fresh (h0 : 0 < sizeofT) (mem n : Nat) : (fresh mem sizeofT n).Nodup :=
  nodup_objects (s := ⟨mem,sizeofT,n,[]⟩) h0

/-- Objects in granted memory are none of those held. -/
theorem fresh_not_held (h0 : 0 < sizeofT)
    (hsize : ∀ s ∈ p.pool.cache.slabs, s.blockSize=sizeofT)
    (hg : Granted sizeofT p.pool.cache n mem) :
    ∀ ptr ∈ fresh mem sizeofT n, ptr ∉ held p.pool.cache := by
  intro ptr hm hheld
  obtain ⟨s,hs,hptr⟩ := List.mem_flatMap.mp hheld
  have hpos : 0 < s.region.size := by
    rw [show s.region.size=sizeofT from hsize s hs]
    exact h0
  have hc : (Region.mk mem sizeofT n).Contains ptr :=
    (mem_objects (s := ⟨mem,sizeofT,n,[]⟩).mp hm).contains h0
  have hap : (Region.mk mem sizeofT n).extent.Apart s.region.extent := hg.2 s hs
  exact Region.not_contains_of_apart hap hc ((mem_objects.mp hptr).contains hpos)

/-- `addCache` constructs the new objects before it destroys the old ones. -/
theorem Balanced.addCache (pgSz : Nat) (h : Balanced p) (h0 : 0 < sizeofT)
    (hsize : ∀ s ∈ p.pool.cache.slabs, s.blockSize=sizeofT) {count : Nat}
    (hg : Granted sizeofT p.pool.cache (roundedCount pgSz sizeofT count) mem)
    (hmax : roundedCount pgSz sizeofT count ≤ maxSlabBlocks) :
    Kept sizeofT (roundedCount pgSz sizeofT count) (addCache pgSz sizeofT p count mem) ∧
      (addCache pgSz sizeofT p count mem).history=p.history ++
        ((fresh mem sizeofT (roundedCount pgSz sizeofT count)).map .construct ++
          (held p.pool.cache).map .destroy) := by
  set n := roundedCount pgSz sizeofT count with hn
  have hhist : (SlabObj.addCache pgSz sizeofT p count mem).history=p.history ++
      ((fresh mem sizeofT n).map .construct ++ (held p.pool.cache).map .destroy) := by
    have hclear := effects_clear h.nonnull
    have hmake : effects (Traced.make (addToMap p.pool.vecMap n) mem sizeofT n).2=
        (fresh mem sizeofT n).map .construct :=
      effects_construct (Slab.make (addToMap p.pool.vecMap n) mem sizeofT n)
    simp only [SlabObj.addCache,clear_slabs,effects_append,← hn]
    rw [hclear,hmake]
    rfl
  have hl := (h.built.addToMap n).2
  refine ⟨⟨⟨(h.built.addToMap n).1,?_,?_⟩,Pool.sound_make h0 hmax h.built mem,
    (Filled.empty sizeofT n).newSlab hl⟩,hhist⟩
  · intro s hs
    have he : s=Slab.make (addToMap p.pool.vecMap n) mem sizeofT n := by
      simpa [SlabObj.addCache,Traced.make,Traced.newSlab,Traced.emplaceBack,Cache.slabs] using hs
    rw [he]
    exact Nat.ne_of_gt hg.1
  · obtain ⟨l,hr,hp⟩ := h.alive
    have hnew : ∀ ptr ∈ fresh mem sizeofT n, ptr ∉ l :=
      fun ptr hm hin => fresh_not_held h0 hsize hg ptr hm (hp.mem_iff.mp hin)
    obtain ⟨l₁,h1,hp1⟩ := replay_construct (nodup_fresh h0 mem n) hnew
    have hboth : l₁.Perm (held p.pool.cache ++ fresh mem sizeofT n) :=
      (hp1.trans (hp.append_left _)).trans List.perm_append_comm
    obtain ⟨l₂,h2,hp2⟩ := replay_destroy hboth
    refine ⟨l₂,?_,?_⟩
    · rw [hhist]
      exact replay_trans hr (replay_trans h1 h2)
    · refine hp2.trans ?_
      have he : held (SlabObj.addCache pgSz sizeofT p count mem).pool.cache=fresh mem sizeofT n := by
        simp [SlabObj.addCache,Traced.make,Traced.newSlab,Traced.emplaceBack,Cache.slabs,held]
        rfl
      rw [he]

end Memory

namespace Kept

variable {pgSz sizeofT count : Nat} {p : State} {mem ptr : Nat}

/-- Every object handed out is one of those held. -/
theorem live_held (h : Kept sizeofT count p) (hm : ptr ∈ p.pool.live) : ptr ∈ held p.pool.cache := by
  obtain ⟨s,hs,hb⟩ := h.sound.located ptr hm
  exact List.mem_flatMap.mpr ⟨s,hs,mem_objects.mpr hb⟩

theorem sizes (h : Kept sizeofT count p) : ∀ s ∈ p.pool.cache.slabs, s.blockSize=sizeofT :=
  fun s hs => (h.sound.shape s hs).1

/-- The cache `allocate` works on, where it had to grow, holds the new objects too. -/
theorem grown (h : Kept sizeofT count p) (h0 : 0 < sizeofT)
    (hg : Pool.Grows p.pool.cache → Granted sizeofT p.pool.cache p.pool.cache.count mem) :
    ∃ l, replay [] (p.history ++ (if Pool.Grows p.pool.cache then
        (fresh mem sizeofT p.pool.cache.count).map .construct else []))=some l ∧
      l.Perm (held (SlabImpl.grown p.pool.vecMap p.pool.cache mem)) ∧
      ∀ s ∈ (SlabImpl.grown p.pool.vecMap p.pool.cache mem).slabs, s.mem ≠ 0 := by
  obtain ⟨l,hr,hp⟩ := h.alive
  unfold SlabImpl.grown
  split_ifs with hgrows
  · have hgrant := hg hgrows
    have hslabs := slabs_newSlab p.pool.vecMap p.pool.cache mem
    have hnew : ∀ ptr ∈ fresh mem sizeofT p.pool.cache.count, ptr ∉ l :=
      fun ptr hm hin => fresh_not_held h0 h.sizes hgrant ptr hm (hp.mem_iff.mp hin)
    obtain ⟨l₁,h1,hp1⟩ := replay_construct (nodup_fresh h0 mem p.pool.cache.count) hnew
    refine ⟨l₁,replay_trans hr h1,?_,?_⟩
    · have hobj : objects (Slab.make p.pool.vecMap mem p.pool.cache.blockSize p.pool.cache.count)=
          fresh mem sizeofT p.pool.cache.count := by
        rw [h.sound.blockSize_eq]
        rfl
      have hheld := hslabs.flatMap_right objects
      rw [List.flatMap_cons,hobj] at hheld
      exact (hp1.trans (hp.append_left _)).trans hheld.symm
    · intro s hs
      rcases List.mem_cons.mp (hslabs.mem_iff.mp hs) with rfl | hs
      · exact Nat.ne_of_gt hgrant.1
      · exact h.nonnull s hs
  · rw [List.append_nil]
    exact ⟨l,hr,hp,h.nonnull⟩

variable (pgSz)

theorem allocate (h : Kept sizeofT count p) (h0 : 0 < sizeofT) (hmin : 2 ≤ count)
    (hmax : count ≤ maxSlabBlocks)
    (hg : Pool.Grows p.pool.cache → Granted sizeofT p.pool.cache p.pool.cache.count mem) :
    ∃ p' ptr, next pgSz sizeofT p (.allocate mem)=some p' ∧ p'.pool.live=ptr :: p.pool.live ∧
      ptr ∉ p.pool.live ∧ Kept sizeofT count p' ∧
      p'.history=p.history ++ (if Pool.Grows p.pool.cache then
        (fresh mem sizeofT p.pool.cache.count).map .construct else []) := by
  have hl : p.pool.vecMap.lookup p.pool.cache.count=some (indices p.pool.cache.count) := by
    rw [h.sound.count_eq]
    exact h.sound.indices
  have hfresh : Pool.Grows p.pool.cache → Pool.Fresh p.pool.cache mem := by
    intro hgrows s hs
    rw [h.sound.blockSize_eq]
    exact (hg hgrows).2 s hs
  obtain ⟨c',s,availible,idx,es,ha,ht,hsil,htaken⟩ :=
    h.filled.allocate _ mem (h.sound.count_eq.symm ▸ hmin) hl
  obtain ⟨c,ptr,ha',hn,hsound⟩ := h.sound.allocate h0 hmin hmax hfresh
  rw [ha] at ha'
  obtain ⟨rfl,rfl⟩ := Prod.mk.inj (Option.some.inj ha')
  obtain ⟨l,hr,hp,hnonnull⟩ := h.grown h0 hg
  obtain ⟨x,hv⟩ := htaken.moves
  have hbuilt : effects (built p.pool.vecMap p.pool.cache mem ++ es)=
      if Pool.Grows p.pool.cache then
        (fresh mem sizeofT p.pool.cache.count).map .construct else [] := by
    rw [effects_append,effects_silent hsil,List.append_nil,built]
    split_ifs
    · rw [effects_construct,h.sound.blockSize_eq]
      rfl
    · rfl
  refine ⟨⟨⟨p.pool.vecMap,c',s.region.block idx :: p.pool.live⟩,
    p.history ++ effects (built p.pool.vecMap p.pool.cache mem ++ es)⟩,_,?_,rfl,hn,?_,
    congrArg (p.history ++ ·) hbuilt⟩
  · simp only [next]
    rw [if_pos hg,ht]
    rfl
  · refine ⟨⟨h.built,nonnull_moves hv rfl hnonnull,l,?_,hp.trans (held_moves hv rfl).symm⟩,hsound,
      (h.filled.grown hl).taken htaken⟩
    rw [hbuilt]
    exact hr

theorem deallocate (h : Kept sizeofT count p) (h0 : 0 < sizeofT) (hmin : 2 ≤ count)
    (hmax : count ≤ maxSlabBlocks) (hm : ptr ∈ p.pool.live) :
    ∃ p', next pgSz sizeofT p (.deallocate ptr)=some p' ∧ Kept sizeofT count p' ∧
      p'.history=p.history ++ [.use ptr] := by
  obtain ⟨c,hd,hsound⟩ := h.sound.deallocate h0 hmin hmax hm
  have hmin' : 2 ≤ p.pool.cache.count := h.sound.count_eq.symm ▸ hmin
  obtain ⟨s,es,ht,hsil,hg⟩ := given_of_deallocate h.filled hmin' hd
  obtain ⟨x,hv⟩ := hg.moves
  have hhist : effects es ++ [LifeEvent.use ptr]=[.use ptr] := by
    rw [effects_silent hsil,List.nil_append]
  refine ⟨⟨⟨p.pool.vecMap,c,p.pool.live.erase ptr⟩,p.history ++ (effects es ++ [.use ptr])⟩,?_,?_,
    congrArg (p.history ++ ·) hhist⟩
  · simp only [next]
    rw [if_pos hm,ht]
    rfl
  · obtain ⟨l,hr,hp⟩ := h.alive
    refine ⟨⟨h.built,nonnull_moves hv rfl h.nonnull,l,?_,hp.trans (held_moves hv rfl).symm⟩,hsound,
      h.filled.given hg⟩
    have huse := replay_trans hr (replay_use (hp.mem_iff.mpr (h.live_held hm)))
    rw [← hhist] at huse
    exact huse

theorem freeEmpty (h : Kept sizeofT count p) (h0 : 0 < sizeofT) :
    ∃ p', next pgSz sizeofT p .freeEmpty=some p' ∧ Kept sizeofT count p' ∧
      p'.history=p.history ++ (p.pool.cache.slabsFree.flatMap objects).map .destroy := by
  have hfree : ∀ s ∈ p.pool.cache.slabsFree, s.mem ≠ 0 :=
    fun s hs => h.nonnull s (Cache.mem_slabs.mpr ⟨.slabsFree,hs⟩)
  have hsplit : held p.pool.cache=
      p.pool.cache.slabsFree.flatMap objects ++ held p.pool.cache.freeEmpty := by
    simp [held,Cache.slabs]
  obtain ⟨l,hr,hp⟩ := h.alive
  rw [hsplit] at hp
  obtain ⟨l',hd,hp'⟩ := replay_destroy hp
  refine ⟨⟨⟨p.pool.vecMap,p.pool.cache.freeEmpty,p.pool.live⟩,
    p.history ++ effects (Traced.clear p.pool.cache.slabsFree)⟩,rfl,?_,
    congrArg (p.history ++ ·) (effects_clear hfree)⟩
  refine ⟨⟨h.built,?_,l',?_,hp'⟩,h.sound.freeEmpty h0,h.filled.freeEmpty⟩
  · intro s hs
    exact h.nonnull s (Cache.mem_slabs_of_freeEmpty hs)
  · have htrans := replay_trans hr hd
    rw [← effects_clear hfree] at htrans
    exact htrans

theorem freeAll (h : Kept sizeofT count p) :
    ∃ p', next pgSz sizeofT p .freeAll=some p' ∧ Kept sizeofT count p' ∧
      held p'.pool.cache=[] ∧ p'.history=p.history ++ (held p.pool.cache).map .destroy := by
  have hclear : effects (Traced.clear p.pool.cache.slabsFree ++
      Traced.clear p.pool.cache.slabsPart ++ Traced.clear p.pool.cache.slabsFull)=
      (held p.pool.cache).map .destroy := by
    rw [clear_slabs]
    exact effects_clear h.nonnull
  obtain ⟨l,hr,hp⟩ := h.alive
  rw [← List.append_nil (held p.pool.cache)] at hp
  obtain ⟨l',hd,hp'⟩ := replay_destroy hp
  refine ⟨⟨⟨p.pool.vecMap,p.pool.cache.freeAll,[]⟩,p.history ++ effects
    (Traced.clear p.pool.cache.slabsFree ++ Traced.clear p.pool.cache.slabsPart ++
      Traced.clear p.pool.cache.slabsFull)⟩,rfl,?_,rfl,congrArg (p.history ++ ·) hclear⟩
  refine ⟨⟨h.built,by simp [Cache.slabs,Cache.freeAll],l',?_,hp'⟩,h.sound.freeAll,.freeAll _⟩
  have htrans := replay_trans hr hd
  rw [← hclear] at htrans
  exact htrans

theorem addCache (h : Kept sizeofT count p) (h0 : 0 < sizeofT) {n : Nat}
    (hmin : 2 ≤ roundedCount pgSz sizeofT n) (hmax : roundedCount pgSz sizeofT n ≤ maxSlabBlocks)
    (hg : Granted sizeofT p.pool.cache (roundedCount pgSz sizeofT n) mem) :
    ∃ p', next pgSz sizeofT p (.addCache n mem)=some p' ∧
      Kept sizeofT (roundedCount pgSz sizeofT n) p' ∧
      p'.history=p.history ++ ((fresh mem sizeofT (roundedCount pgSz sizeofT n)).map .construct ++
        (held p.pool.cache).map .destroy) := by
  obtain ⟨hk,hhist⟩ := h.toBalanced.addCache pgSz h0 h.sizes hg hmax
  refine ⟨_,?_,hk,hhist⟩
  simp only [next]
  rw [if_pos ⟨hmin,hmax,hg⟩]

theorem handles (h : Kept sizeofT count p) (h0 : 0 < sizeofT) (hmin : 2 ≤ count)
    (hmax : count ≤ maxSlabBlocks) : Handles pgSz sizeofT p := by
  refine ⟨?_,fun ptr hm => ⟨h.live_held hm,?_⟩,?_,?_,?_⟩
  · intro mem hg
    obtain ⟨p',ptr,hn,hlive,hnew,hk,hhist⟩ := h.allocate pgSz h0 hmin hmax hg
    exact ⟨p',ptr,hn,hlive,hnew,hk.live_held (by simp [hlive]),hhist⟩
  · obtain ⟨p',hn,_,hhist⟩ := h.deallocate pgSz h0 hmin hmax hm
    exact ⟨p',hn,hhist⟩
  · obtain ⟨p',hn,_,hhist⟩ := h.freeEmpty pgSz h0
    exact ⟨p',hn,hhist⟩
  · obtain ⟨p',hn,_,hheld,hhist⟩ := h.freeAll pgSz
    exact ⟨p',hn,hheld,hhist,length_held h.filled⟩
  · intro n mem hmin hmax hg
    obtain ⟨p',hn,hk,hhist⟩ := h.addCache pgSz h0 hmin hmax hg
    refine ⟨p',hn,?_,hhist⟩
    simp only [next] at hn
    rw [if_pos ⟨hmin,hmax,hg⟩] at hn
    cases hn
    simp [SlabObj.addCache,Traced.make,Traced.newSlab,Traced.emplaceBack,Cache.slabs,held]
    rfl

end Kept

section Runs

variable {pgSz sizeofT : Nat} {p p' : State}

theorem kept_start (h0 : 0 < sizeofT) (h : (machine pgSz sizeofT).start p) :
    ∃ count, 2 ≤ count ∧ count ≤ maxSlabBlocks ∧ Kept sizeofT count p := by
  obtain ⟨counts,n,mem,hn⟩ := h
  have hinit : Balanced (initial (counts.foldl addToMap [])) :=
    ⟨built_foldl counts,by simp [initial,Cache.slabs],[],rfl,by simp [initial,held,Cache.slabs]⟩
  simp only [next] at hn
  split_ifs at hn with hg
  obtain ⟨hmin,hmax,hgrant⟩ := hg
  cases hn
  exact ⟨_,hmin,hmax,(hinit.addCache pgSz h0 (by simp [initial,Cache.slabs]) hgrant hmax).1⟩

theorem kept_next (h0 : 0 < sizeofT)
    (h : ∃ count, 2 ≤ count ∧ count ≤ maxSlabBlocks ∧ Kept sizeofT count p) {c : Call}
    (hn : next pgSz sizeofT p c=some p') :
    ∃ count, 2 ≤ count ∧ count ≤ maxSlabBlocks ∧ Kept sizeofT count p' := by
  obtain ⟨count,hmin,hmax,hk⟩ := h
  cases c with
  | addCache n mem =>
    have hif := hn
    simp only [next] at hif
    split_ifs at hif with hg
    obtain ⟨hmin',hmax',hgrant⟩ := hg
    obtain ⟨q,hq,hkq,_⟩ := hk.addCache pgSz h0 hmin' hmax' hgrant
    obtain rfl := Option.some.inj (hn.symm.trans hq)
    exact ⟨_,hmin',hmax',hkq⟩
  | allocate mem =>
    have hif := hn
    simp only [next] at hif
    split_ifs at hif with hg
    obtain ⟨q,_,hq,_,_,hkq,_⟩ := hk.allocate pgSz h0 hmin hmax hg
    obtain rfl := Option.some.inj (hn.symm.trans hq)
    exact ⟨count,hmin,hmax,hkq⟩
  | deallocate ptr =>
    have hif := hn
    simp only [next] at hif
    split_ifs at hif with hm
    obtain ⟨q,hq,hkq,_⟩ := hk.deallocate pgSz h0 hmin hmax hm
    obtain rfl := Option.some.inj (hn.symm.trans hq)
    exact ⟨count,hmin,hmax,hkq⟩
  | freeEmpty =>
    obtain ⟨q,hq,hkq,_⟩ := hk.freeEmpty pgSz h0
    obtain rfl := Option.some.inj (hn.symm.trans hq)
    exact ⟨count,hmin,hmax,hkq⟩
  | freeAll =>
    obtain ⟨q,hq,hkq,_,_⟩ := hk.freeAll pgSz
    obtain rfl := Option.some.inj (hn.symm.trans hq)
    exact ⟨count,hmin,hmax,hkq⟩

/-- In every run no object is destroyed twice, the living ones are those of the slabs held, and the
next call constructs and destroys what it should. -/
theorem reachable_lifetimes (h0 : 0 < sizeofT) (r : (machine pgSz sizeofT).Reachable p) :
    Alive p ∧ Handles pgSz sizeofT p := by
  have h : ∃ count, 2 ≤ count ∧ count ≤ maxSlabBlocks ∧ Kept sizeofT count p :=
    r.invariant (fun _ hs => kept_start h0 hs) (fun _ _ _ hi hn => kept_next h0 hi hn)
  obtain ⟨count,hmin,hmax,hk⟩ := h
  exact ⟨hk.alive,hk.handles pgSz h0 hmin hmax⟩

/-- Two objects of half a page in a slab: three are handed out, and `addCache` drops both slabs. -/
theorem reachable_lifetimes_replaced :
    ∃ p, (p.history.length=11 ∧ held p.pool.cache=[65536,67584]) ∧ Alive p ∧
      Handles 4096 2048 p := by
  obtain ⟨p,r,hp⟩ := Machine.reachable_of_runFrom (machine 4096 2048)
    (addCache 4096 2048 (initial []) 2 4096)
    [.allocate 0,.allocate 0,.allocate 16384,.deallocate 4096,.addCache 2 65536]
    (fun p => p.history.length=11 ∧ held p.pool.cache=[65536,67584]) ⟨[],2,4096,rfl⟩ (by decide)
  exact ⟨p,hp,reachable_lifetimes (by decide) r⟩

end Runs

end Allocators.SlabObj
