import Allocators.SlabImpl.Filled

/-! `allocate` when memory runs out: which requests of the call may throw, and what an exception
leaves. -/

namespace Allocators.SlabImpl

open Lib

/-- The requests for memory that `allocate` can get to. -/
inductive Fault
  | slabMemory
  | slabIndices
  | growth (store : Store)
  deriving DecidableEq, Repr

/-- A request made while the new slab is built and put into `slabsFree`. -/
def Fault.InNewSlab (f : Fault) : Prop :=
  f=.slabMemory ∨ f=.slabIndices ∨ f=.growth .slabsFree

instance (f : Fault) : Decidable f.InNewSlab := inferInstanceAs (Decidable (_ ∨ _))

namespace Throwing

variable (vecMap : VecMap) (fault : Option Fault)

/-- `newSlab`, where the request `fault` is refused. An exception leaves the cache as it is there;
`false` is the exception. -/
def newSlab (c : Cache) (mem : Nat) : Cache × Bool :=
  if fault.any (fun f => decide f.InNewSlab) then (c,false) else (Cache.newSlab vecMap c mem,true)

def findFreeSlab (c : Cache) (mem : Nat) : Cache × Option It :=
  if c.slabsPart ≠ [] then (c,some (.slabsPart,0))
  else if c.slabsFree=[] then
    match newSlab vecMap fault c mem with
    | (c,false) => (c,none)
    | (c,true) => (c,some (.slabsFree,0))
  else (c,some (.slabsFree,0))

/-- `splice`: `emplace_back` throws before anything is moved. -/
def splice (c : Cache) (dest source : Store) (it : It) : Option (Cache × Bool) :=
  if fault=some (.growth dest) then some (c,false)
  else (c.splice dest source it).map fun r => (r.1,true)

/-- `allocate`; a missing pointer is `std::bad_alloc`. -/
def allocate (c : Cache) (mem : Nat) : Option (Cache × Option Nat) :=
  match findFreeSlab vecMap fault c mem with
  | (c,none) => some (c,none)
  | (c,some it) =>
    match (c.deref it).bind Slab.allocate with
    | none => none
    | some (slab,ptr,full) =>
      let c := c.assign it slab
      match if it.1=.slabsFree then splice fault c .slabsPart it.1 it else some (c,true) with
      | none => none
      | some (c,false) => some (c,none)
      | some (c,true) =>
        match if full then splice fault c .slabsFull it.1 it else some (c,true) with
        | none => none
        | some (c,false) => some (c,none)
        | some (c,true) => some ({ c with mySize := c.mySize+1 },some ptr)

end Throwing

section Steps

variable {c : Cache} {s : Slab} {rest : List Slab} {availible : List Nat} {idx : Nat}
variable (vecMap : VecMap) (fault : Option Fault) (mem : Nat)

/-- A splice is made, or its growth is the request that is refused. -/
theorem throwing_splice (c : Cache) (dest source : Store) (it : It) :
    (fault=some (.growth dest) ∧ Throwing.splice fault c dest source it=some (c,false)) ∨
      (fault ≠ some (.growth dest) ∧
        Throwing.splice fault c dest source it=(c.splice dest source it).map fun r => (r.1,true)) := by
  by_cases hf : fault=some (.growth dest)
  · exact .inl ⟨hf,if_pos hf⟩
  · exact .inr ⟨hf,if_neg hf⟩

/-- From a partial slab: only a slab that is full now has to be moved. -/
theorem throwing_part (hp : c.slabsPart=s :: rest) (hs : s.availible=availible ++ [idx]) :
    (availible=[] ∧ fault=some (.growth .slabsFull) ∧
      Throwing.allocate vecMap fault c mem=
        some (c.assign (.slabsPart,0) { s with availible := availible },none)) ∨
    (¬ (availible=[] ∧ fault=some (.growth .slabsFull)) ∧
      Throwing.allocate vecMap fault c mem=(c.allocate vecMap mem).map fun r => (r.1,some r.2)) := by
  have hfind : Throwing.findFreeSlab vecMap fault c mem=(c,some (.slabsPart,0)) := by
    simp [Throwing.findFreeSlab,hp]
  have hfind' : Cache.findFreeSlab vecMap c mem=(c,(.slabsPart,0)) := by
    simp [Cache.findFreeSlab,hp]
  have hd : c.deref (.slabsPart,0)=some s := by simp [Cache.deref,Cache.store,hp]
  by_cases he : availible=[]
  · rcases throwing_splice fault (c.assign (.slabsPart,0) { s with availible := availible })
      .slabsFull .slabsPart (.slabsPart,0) with ⟨hf,hsp⟩ | ⟨hf,hsp⟩
    · refine .inl ⟨he,hf,?_⟩
      simp only [he] at hs hsp ⊢
      simp [Throwing.allocate,hfind,hd,Slab.allocate_concat hs,hsp]
    · refine .inr ⟨fun hx => hf hx.2,?_⟩
      obtain ⟨c',hc',hm,_⟩ := Cache.splice_moves { s with availible := availible }
        (show Store.slabsPart ≠ .slabsFull by decide) hd
      simp only [he] at hs hsp hc'
      simp [Throwing.allocate,Cache.allocate,hfind,hfind',hd,Slab.allocate_concat hs,hsp,hc']
  · refine .inr ⟨fun hx => he hx.1,?_⟩
    simp [Throwing.allocate,Cache.allocate,hfind,hfind',hd,Slab.allocate_concat hs,he]

/-- From a free slab: it becomes a partial one. -/
theorem throwing_free (hp : c.slabsPart=[]) (hf : c.slabsFree=s :: rest)
    (hs : s.availible=availible ++ [idx]) (he : availible ≠ []) :
    (fault=some (.growth .slabsPart) ∧ Throwing.allocate vecMap fault c mem=
      some (c.assign (.slabsFree,0) { s with availible := availible },none)) ∨
    (fault ≠ some (.growth .slabsPart) ∧
      Throwing.allocate vecMap fault c mem=(c.allocate vecMap mem).map fun r => (r.1,some r.2)) := by
  have hfind : Throwing.findFreeSlab vecMap fault c mem=(c,some (.slabsFree,0)) := by
    simp [Throwing.findFreeSlab,hp,hf]
  have hfind' : Cache.findFreeSlab vecMap c mem=(c,(.slabsFree,0)) := by
    simp [Cache.findFreeSlab,hp,hf]
  have hd : c.deref (.slabsFree,0)=some s := by simp [Cache.deref,Cache.store,hf]
  rcases throwing_splice fault (c.assign (.slabsFree,0) { s with availible := availible })
    .slabsPart .slabsFree (.slabsFree,0) with ⟨hx,hsp⟩ | ⟨hx,hsp⟩
  · refine .inl ⟨hx,?_⟩
    simp [Throwing.allocate,hfind,hd,Slab.allocate_concat hs,hsp]
  · refine .inr ⟨hx,?_⟩
    obtain ⟨c',hc',hm,_⟩ := Cache.splice_moves { s with availible := availible }
      (show Store.slabsFree ≠ .slabsPart by decide) hd
    simp [Throwing.allocate,Cache.allocate,hfind,hfind',hd,Slab.allocate_concat hs,hsp,hc',he]

/-- With neither: the new slab is built first. -/
theorem throwing_grow (hg : Pool.Grows c) :
    ((∃ f, fault=some f ∧ f.InNewSlab) ∧ Throwing.allocate vecMap fault c mem=some (c,none)) ∨
    (¬ (∃ f, fault=some f ∧ f.InNewSlab) ∧ Throwing.allocate vecMap fault c mem=
      Throwing.allocate vecMap fault (Cache.newSlab vecMap c mem) mem) := by
  obtain ⟨hp,hf⟩ := hg
  have hany : fault.any (fun f => decide f.InNewSlab)=true ↔ ∃ f, fault=some f ∧ f.InNewSlab := by
    simp [Option.any_eq_true]
  by_cases hx : ∃ f, fault=some f ∧ f.InNewSlab
  · refine .inl ⟨hx,?_⟩
    simp [Throwing.allocate,Throwing.findFreeSlab,Throwing.newSlab,hp,hf,hany.mpr hx]
  · have hno : fault.any (fun f => decide f.InNewSlab)=false := by
      rw [← Bool.not_eq_true]
      exact fun h => hx (hany.mp h)
    refine .inr ⟨hx,?_⟩
    have h1 : Throwing.findFreeSlab vecMap fault c mem=
        (Cache.newSlab vecMap c mem,some (.slabsFree,0)) := by
      simp [Throwing.findFreeSlab,Throwing.newSlab,hp,hf,hno]
    have h2 : Throwing.findFreeSlab vecMap fault (Cache.newSlab vecMap c mem) mem=
        (Cache.newSlab vecMap c mem,some (.slabsFree,0)) := by
      simp [Throwing.findFreeSlab,Cache.newSlab,hp]
    simp only [Throwing.allocate,h1,h2]

end Steps

/-- The cache with its client, and whether the call just made ended in an exception. -/
structure Attempt where
  pool : Pool
  thrown : Bool

/-- The calls; `fault` is the request that is refused in an `allocate` that gets to it. -/
inductive AttemptCall
  | allocate (mem : Nat) (fault : Option Fault)
  | deallocate (ptr : Nat)
  | freeEmpty
  | freeAll
  deriving DecidableEq

namespace Attempt

/-- One call, as for a pool; after an exception the client has what it had. -/
def serve (a : Attempt) : AttemptCall → Option Attempt
  | .allocate mem fault =>
    if Pool.Grows a.pool.cache → Pool.Fresh a.pool.cache mem then
      match Throwing.allocate a.pool.vecMap fault a.pool.cache mem with
      | none => none
      | some (c,none) => some ⟨⟨a.pool.vecMap,c,a.pool.live⟩,true⟩
      | some (c,some ptr) => some ⟨⟨a.pool.vecMap,c,ptr :: a.pool.live⟩,false⟩
    else none
  | .deallocate ptr => (a.pool.serve (.deallocate ptr)).map fun p => ⟨p,false⟩
  | .freeEmpty => (a.pool.serve .freeEmpty).map fun p => ⟨p,false⟩
  | .freeAll => (a.pool.serve .freeAll).map fun p => ⟨p,false⟩

def machine (blockSize count : Nat) : Machine Attempt AttemptCall where
  start a := (Pool.machine blockSize count).start a.pool ∧ a.thrown=false
  next := serve

/-- The lists, the index lists and both counters tell which blocks are live. -/
structure Booked (p : Pool) : Prop extends Pool.Represents p where
  capacity : p.cache.myCapacity=p.cache.count*p.cache.slabs.length

/-- After an exception everything is as it should be. -/
def Unharmed (a : Attempt) : Prop := a.thrown=true → Booked a.pool

/-- The call gets to a splice whose growth is refused: a slab has to move, from the free to the
partial ones or, with its last block gone, to the full ones. -/
def Stranded (c : Cache) (fault : Option Fault) : Prop :=
  fault=some (.growth .slabsPart) ∧ c.slabsPart=[] ∨
    fault=some (.growth .slabsFull) ∧ ∃ s ∈ c.slabsPart.head?, s.availible.length=1

/-- No slab is stranded, and an exception on the way to a new slab finds `myCapacity` right. -/
def Spares (a : Attempt) : AttemptCall → Prop
  | .allocate _ fault =>
    ¬ Stranded a.pool.cache fault ∧
      ((∃ f, fault=some f ∧ f.InNewSlab) → Pool.Grows a.pool.cache →
        a.pool.cache.myCapacity=a.pool.cache.count*a.pool.cache.slabs.length)
  | _ => True

variable {blockSize count : Nat} {p : Pool} {c : Cache}

/-- An index taken from a slab for a call that threw is nowhere. -/
theorem not_represents (h : Pool.Sound blockSize count p) {x : Store} {s : Slab}
    {availible : List Nat} {idx : Nat} (hs : s.availible=availible ++ [idx])
    (hv : Cache.Moves p.cache c x x s { s with availible := availible }) :
    ¬ Pool.Represents ⟨p.vecMap,c,p.live⟩ := by
  intro hr
  obtain ⟨rest,_,hp',_⟩ := hv.others
  have hold := (h.accounts s (Cache.mem_slabs.mpr ⟨x,hv.mem⟩)).perm
    (hs ▸ List.perm_append_singleton idx availible)
  have hnew := hr.accounts _ (hp'.mem_iff.mpr List.mem_cons_self)
  have hlt := hold.lt List.mem_cons_self
  have hdead := hold.not_live List.mem_cons_self
  have hmem : idx ∈ availible := (hnew.mem_iff idx).mpr ⟨hlt,hdead⟩
  exact (List.nodup_cons.mp hold.nodup).1 hmem

section Allocate

variable (mem : Nat) (fault : Option Fault)

/-- With a slab to take from: the call goes through, or an index is lost. -/
theorem allocate_old (h : Pool.Sound blockSize count p) (h0 : 0 < blockSize) (hmin : 2 ≤ count)
    (hg : ¬ Pool.Grows p.cache) :
    (Stranded p.cache fault ∧ ∃ c, Throwing.allocate p.vecMap fault p.cache mem=some (c,none) ∧
      ¬ Pool.Represents ⟨p.vecMap,c,p.live⟩) ∨
    (¬ Stranded p.cache fault ∧ Throwing.allocate p.vecMap fault p.cache mem=
      (p.cache.allocate p.vecMap mem).map fun r => (r.1,some r.2)) := by
  cases hp : p.cache.slabsPart with
  | cons s rest =>
    have hd : (p.cache.store .slabsPart)[0]?=some s := by simp [Cache.store,hp]
    obtain ⟨availible,idx,hav⟩ := h.part_concat (s := s) (by simp [hp])
    have hst : Stranded p.cache fault ↔ availible=[] ∧ fault=some (.growth .slabsFull) := by
      simp [Stranded,hp,hav,and_comm]
    rw [hst]
    rcases throwing_part p.vecMap fault mem hp hav with ⟨he,hf,ha⟩ | ⟨hno,ha⟩
    · exact .inl ⟨⟨he,hf⟩,_,ha,not_represents h hav (Cache.assign_moves _ hd)⟩
    · exact .inr ⟨hno,ha⟩
  | nil =>
    have hst : Stranded p.cache fault ↔ fault=some (.growth .slabsPart) := by
      simp [Stranded,hp]
    rw [hst]
    cases hf : p.cache.slabsFree with
    | nil => exact absurd ⟨hp,hf⟩ hg
    | cons s rest =>
      have hd : (p.cache.store .slabsFree)[0]?=some s := by simp [Cache.store,hf]
      obtain ⟨availible,idx,hav,hne⟩ := h.free_concat h0 hmin (s := s) (by simp [hf])
      rcases throwing_free p.vecMap fault mem hp hf hav hne with ⟨hx,ha⟩ | ⟨hx,ha⟩
      · exact .inl ⟨hx,_,ha,not_represents h hav (Cache.assign_moves _ hd)⟩
      · exact .inr ⟨hx,ha⟩

/-- The three ways an `allocate` may end. -/
theorem allocate_cases (h : Pool.Sound blockSize count p) (h0 : 0 < blockSize) (hmin : 2 ≤ count)
    (hmax : count ≤ maxSlabBlocks) (hf : Pool.Grows p.cache → Pool.Fresh p.cache mem) :
    (Stranded p.cache fault ∧ ∃ c, Throwing.allocate p.vecMap fault p.cache mem=some (c,none) ∧
      ¬ Pool.Represents ⟨p.vecMap,c,p.live⟩) ∨
    (¬ Stranded p.cache fault ∧ (∃ f, fault=some f ∧ f.InNewSlab) ∧ Pool.Grows p.cache ∧
      Throwing.allocate p.vecMap fault p.cache mem=some (p.cache,none)) ∨
    (¬ Stranded p.cache fault ∧ ¬ ((∃ f, fault=some f ∧ f.InNewSlab) ∧ Pool.Grows p.cache) ∧
      ∃ c ptr, Throwing.allocate p.vecMap fault p.cache mem=some (c,some ptr) ∧
        Pool.Sound blockSize count ⟨p.vecMap,c,ptr :: p.live⟩) := by
  obtain ⟨c,ptr,ha,_,hs⟩ := h.allocate h0 hmin hmax hf
  by_cases hg : Pool.Grows p.cache
  · have hold := h.newSlab h0 hmax (hf hg)
    have hnot : ¬ Pool.Grows (Cache.newSlab p.vecMap p.cache mem) := by
      rintro ⟨_,hfree⟩
      simp [Cache.newSlab] at hfree
    have hst : Stranded (Cache.newSlab p.vecMap p.cache mem) fault ↔ Stranded p.cache fault :=
      Iff.rfl
    rcases throwing_grow p.vecMap fault mem hg with ⟨hx,ht⟩ | ⟨hx,ht⟩
    · refine .inr (.inl ⟨?_,hx,hg,ht⟩)
      obtain ⟨f,rfl,hin⟩ := hx
      rcases hin with rfl | rfl | rfl <;> simp [Stranded]
    · rw [ht,← hst]
      rcases allocate_old mem fault hold h0 hmin hnot with ⟨hs',hc⟩ | ⟨hs',hc⟩
      · exact .inl ⟨hs',hc⟩
      · refine .inr (.inr ⟨hs',fun hy => hx hy.1,c,ptr,?_,hs⟩)
        rw [hc,← Cache.allocate_grow p.vecMap mem hg.1 hg.2,ha]
        rfl
  · rcases allocate_old mem fault h h0 hmin hg with ⟨hs',hc⟩ | ⟨hs',hc⟩
    · exact .inl ⟨hs',hc⟩
    · refine .inr (.inr ⟨hs',fun hy => hg hy.2,c,ptr,?_,hs⟩)
      rw [hc,ha]
      rfl

end Allocate

variable {a a' : Attempt} {q : AttemptCall}

/-- The calls that cannot throw go on as they do for a pool. -/
theorem sound_pool (h : Pool.Sound blockSize count a.pool) (h0 : 0 < blockSize) (hmin : 2 ≤ count)
    (hmax : count ≤ maxSlabBlocks) {c : Call}
    (hn : (a.pool.serve c).map (fun p => (⟨p,false⟩ : Attempt))=some a') :
    a'.thrown=false ∧ Pool.Sound blockSize count a'.pool := by
  obtain ⟨p,hp,rfl⟩ := Option.map_eq_some_iff.mp hn
  exact ⟨rfl,Pool.sound_next h0 hmin hmax h hp⟩

theorem next_spares (h : Pool.Sound blockSize count a.pool) (h0 : 0 < blockSize) (hmin : 2 ≤ count)
    (hmax : count ≤ maxSlabBlocks) (hg : Spares a q) (hn : serve a q=some a') :
    Pool.Sound blockSize count a'.pool ∧ Unharmed a' := by
  have hquiet : ∀ {c : Call}, (a.pool.serve c).map (fun p => (⟨p,false⟩ : Attempt))=some a' →
      Pool.Sound blockSize count a'.pool ∧ Unharmed a' := by
    intro c hc
    obtain ⟨ht,hs⟩ := sound_pool h h0 hmin hmax hc
    exact ⟨hs,fun hx => Bool.noConfusion (ht.symm.trans hx)⟩
  cases q with
  | allocate mem fault =>
    simp only [serve] at hn
    split_ifs at hn with hf
    obtain ⟨hst,hcap⟩ := hg
    rcases allocate_cases mem fault h h0 hmin hmax hf with
      ⟨hs,_⟩ | ⟨_,hx,hgr,ha⟩ | ⟨_,_,c,ptr,ha,hs⟩
    · exact absurd hs hst
    · rw [ha] at hn
      obtain rfl := Option.some.inj hn
      exact ⟨h,fun _ => ⟨h.toRepresents,hcap hx hgr⟩⟩
    · rw [ha] at hn
      obtain rfl := Option.some.inj hn
      exact ⟨hs,fun hx => Bool.noConfusion hx⟩
  | deallocate ptr => exact hquiet (c := .deallocate ptr) hn
  | freeEmpty => exact hquiet (c := .freeEmpty) hn
  | freeAll => exact hquiet (c := .freeAll) hn

theorem next_harms (h : Pool.Sound blockSize count a.pool) (h0 : 0 < blockSize) (hmin : 2 ≤ count)
    (hmax : count ≤ maxSlabBlocks) (hg : ¬ Spares a q) (hn : serve a q=some a') :
    ¬ Unharmed a' := by
  cases q with
  | allocate mem fault =>
    simp only [serve] at hn
    split_ifs at hn with hf
    rcases allocate_cases mem fault h h0 hmin hmax hf with
      ⟨_,c,ha,hr⟩ | ⟨hs,hx,hgr,ha⟩ | ⟨hs,hx,c,ptr,ha,_⟩
    · rw [ha] at hn
      obtain rfl := Option.some.inj hn
      exact fun hu => hr (hu rfl).toRepresents
    · rw [ha] at hn
      obtain rfl := Option.some.inj hn
      exact fun hu => hg ⟨hs,fun _ _ => (hu rfl).capacity⟩
    · exact absurd ⟨hs,fun h1 h2 => absurd ⟨h1,h2⟩ hx⟩ hg
  | deallocate ptr => exact absurd trivial hg
  | freeEmpty => exact absurd trivial hg
  | freeAll => exact absurd trivial hg

/-- In a run every exception leaves the lists, the indices and the counters in order exactly if
none of them strands a slab or finds `myCapacity` wrong. -/
theorem unharmed_iff_spares (h0 : 0 < blockSize) (hmin : 2 ≤ count) (hmax : count ≤ maxSlabBlocks)
    {h : List (Attempt × AttemptCall)} {a : Attempt} (r : (machine blockSize count).Run h a) :
    (∀ t ∈ Machine.visited h a, Unharmed t) ↔ ∀ e ∈ h, Spares e.1 e.2 := by
  refine r.always_iff ?_ (fun a q a' hi hg hn => next_spares hi.1 h0 hmin hmax hg hn)
    (fun a hi => hi.2) (fun a q a' hi hg hn => next_harms hi.1 h0 hmin hmax hg hn)
  intro a ha
  obtain ⟨hp,ht⟩ := ha
  exact ⟨Pool.sound_start h0 hmax hp,fun hx => Bool.noConfusion (ht.symm.trans hx)⟩

/-- The constructor's slab serves two blocks, and no memory is there for a second slab. -/
theorem unharmed_iff_spares_no_slab : ∃ (h : List (Attempt × AttemptCall)) (a : Attempt),
    (a.thrown=true ∧ a.pool.live=[108,100]) ∧
      ((∀ t ∈ Machine.visited h a, Unharmed t) ↔ ∀ e ∈ h, Spares e.1 e.2) := by
  obtain ⟨a,⟨h,r⟩,ha⟩ := Machine.reachable_of_runFrom (machine 8 2)
    ⟨⟨addToMap [] 2,Cache.make (addToMap [] 2) 100 8 2,[]⟩,false⟩
    [.allocate 0 none,.allocate 0 none,.allocate 200 (some .slabIndices)]
    (fun a => a.thrown=true ∧ a.pool.live=[108,100]) ⟨⟨[],100,rfl⟩,rfl⟩ (by decide)
  exact ⟨h,a,ha,unharmed_iff_spares (by decide) (by decide) (by decide) r⟩

/-- The first `allocate` of a cache: `slabsPart` has to grow and cannot. The slab stays among the
free ones, without the block that nobody got. -/
theorem refused_splice_loses_index : ∃ a : Attempt, (machine 8 2).Reachable a ∧
    (a.pool.live=[] ∧ a.pool.cache.slabsFree.map (fun s => (s.count,s.availible))=[(2,[1])]) ∧
      ¬ Unharmed a := by
  obtain ⟨a,hr,ht,hl,hs⟩ := Machine.reachable_of_runFrom (machine 8 2)
    ⟨⟨addToMap [] 2,Cache.make (addToMap [] 2) 100 8 2,[]⟩,false⟩
    [.allocate 0 (some (.growth .slabsPart))]
    (fun a => a.thrown=true ∧ a.pool.live=[] ∧
      a.pool.cache.slabsFree.map (fun s => (s.count,s.availible))=[(2,[1])])
    ⟨⟨[],100,rfl⟩,rfl⟩ (by decide)
  refine ⟨a,hr,⟨hl,hs⟩,?_⟩
  intro hu
  obtain ⟨s,hm,he⟩ := List.mem_map.mp (hs ▸ List.mem_singleton_self (2,[1]))
  obtain ⟨hc,hav⟩ := Prod.mk.inj he
  have hacc := (hu ht).accounts s (Cache.mem_slabs.mpr ⟨.slabsFree,hm⟩)
  rw [hav,hl] at hacc
  have hzero : 0 ∈ [1] := (hacc.mem_iff 0).mpr ⟨lt_of_lt_of_eq (by decide) hc.symm,by simp⟩
  exact absurd hzero (by decide)

end Attempt

end Allocators.SlabImpl
