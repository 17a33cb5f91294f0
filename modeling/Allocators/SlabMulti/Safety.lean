import Allocators.SlabMulti.Routing

/-! The blocks of all threads as memory: which bytes each of them has, and where they lie. -/

namespace Allocators.SlabMulti

open Lib Vector Extent

namespace Loan

variable {T : Type} {e : Loan T} {k size : Nat}

/-- The bytes set aside for it: a whole block of its cache, or what was asked for. -/
def room (e : Loan T) : Nat := (e.idx.bind (cacheSizes[·]?)).getD e.bytes

def range (e : Loan T) : Extent := (e.ptr,e.room)

theorem room_eq (hk : e.idx=some k) (hs : cacheSizes[k]?=some size) : e.room=size := by
  simp [room,hk,hs]

theorem room_large (hk : e.idx=none) : e.room=e.bytes := by
  simp [room,hk]

/-- The classes grow by doubling. -/
theorem cacheSizes_succ {k : Nat} (hk : cacheSizes[k+1]?=some size) :
    ∃ below, cacheSizes[k]?=some below ∧ size=2*below := by
  have hd : ∀ j < 7, cacheSizes[j+1]?=(cacheSizes[j]?).map (2*·) := by decide
  have hlt : k+1 < cacheSizes.length := (List.getElem?_eq_some_iff.mp hk).1
  have hl : cacheSizes.length=8 := by decide
  rw [hd k (by omega)] at hk
  obtain ⟨below,hb,rfl⟩ := Option.map_eq_some_iff.mp hk
  exact ⟨below,hb,rfl⟩

/-- No class before that of the block fits. -/
theorem not_fits (hk : e.idx=some k) {j : Nat} (hj : j < k) (hs : cacheSizes[j]?=some size) :
    size < e.bytes := by
  obtain ⟨_,_,hmin⟩ := List.findIdx?_eq_some_iff_getElem.mp
    (show findCacheIdx e.bytes=some k from hk)
  obtain ⟨_,rfl⟩ := List.getElem?_eq_some_iff.mp hs
  have hx := hmin j hj
  simp only [decide_eq_true_eq] at hx
  omega

/-- The room is enough, no smaller class would do, and unless it is the smallest less than half
of it is lost. -/
theorem room_fits (e : Loan T) : e.bytes ≤ e.room ∧
    (∀ size ∈ cacheSizes, e.bytes ≤ size → e.room ≤ size) ∧
    (e.room=smallestCache ∨ e.room < 2*e.bytes) := by
  cases hk : e.idx with
  | none =>
    have hno := List.findIdx?_eq_none_iff.mp (show findCacheIdx e.bytes=none from hk)
    have hpos : 0 < e.bytes := Routing.bytes_pos hk
    rw [room_large hk]
    refine ⟨le_rfl,?_,.inr (by omega)⟩
    intro size hm hle
    exact absurd hle (of_decide_eq_false (hno size hm))
  | some k =>
    obtain ⟨size,hs⟩ := Routing.exists_size hk
    obtain ⟨hlt,hle,_⟩ := List.findIdx?_eq_some_iff_getElem.mp
      (show findCacheIdx e.bytes=some k from hk)
    obtain ⟨_,hget⟩ := List.getElem?_eq_some_iff.mp hs
    rw [room_eq hk hs]
    refine ⟨by simpa [hget] using hle,?_,?_⟩
    · intro other hm hfit
      obtain ⟨j,hj⟩ := List.mem_iff_getElem?.mp hm
      have hsorted : cacheSizes.Pairwise (· < ·) := by decide
      have hge : k ≤ j := by
        by_contra hlt
        have := not_fits hk (by omega) hj
        omega
      obtain ⟨hlt',rfl⟩ := List.getElem?_eq_some_iff.mp hj
      rcases Nat.eq_or_lt_of_le hge with rfl | hgt
      · exact hget ▸ le_rfl
      · exact hget ▸ le_of_lt (List.pairwise_iff_getElem.mp hsorted k j hlt hlt' hgt)
    · cases k with
      | zero => exact .inl (Option.some.inj (hs.symm.trans (by decide)))
      | succ k =>
        obtain ⟨below,hb,rfl⟩ := cacheSizes_succ hs
        have := not_fits hk (Nat.lt_succ_self k) hb
        exact .inr (by omega)

end Loan

/-- The blocks of one cache are disjoint. -/
theorem Tended.tiled {size : Nat} {c : Cache} {live : List Nat} (h : Tended size c live) :
    Tiled (live.map fun p => ((p,size) : Extent)) := by
  obtain ⟨s,rfl,hs,he⟩ := h
  have hapart : Tiled ((s.rows.map Row.region).map Region.extent) := by
    rw [List.map_map]
    exact hs.sound.apart
  refine Region.tiled_blocks hapart he.nodup ?_
  intro p hp
  obtain ⟨r,hr,hb⟩ := hs.sound.located p hp
  exact ⟨r.region,List.mem_map_of_mem hr,(hs.sound.shaped r hr).1,hb⟩

/-- A live block lies in one slab, at a multiple of its size from the slab's first byte. -/
theorem Tended.placed {size ptr : Nat} {c : Cache} {live : List Nat} (hsz : size ∈ cacheSizes)
    (h : Tended size c live) (hm : ptr ∈ live) :
    ∃ mem ∈ c.ptrs, bytes (ptr,size) ⊆ bytes (mem,slabSize) ∧ ∃ i, ptr=mem+i*size := by
  obtain ⟨s,rfl,hs,_⟩ := h
  obtain ⟨r,hr,i,hi,rfl⟩ := hs.sound.located ptr hm
  have hrs : r.region.size=size := (hs.sound.shaped r hr).1
  have hin := Region.block_within hi
  rw [region_extent hsz hs hr,hrs] at hin
  refine ⟨r.1,List.mem_map_of_mem hr,hin,i,?_⟩
  rw [← hrs]
  rfl

namespace Routing

variable {T : Type} [DecidableEq T]

namespace Tidy

variable {s : Interface T} {live : List (Loan T)} {served : List Extent} {e f : Loan T}
  {k k' : Nat}

omit [DecidableEq T] in
theorem slabExtents_flatMap {α : Type} (l : List α) (g : α → List Nat) :
    slabExtents (l.flatMap g)=l.flatMap fun x => slabExtents (g x) := List.map_flatMap

omit [DecidableEq T] in
theorem mem_slabs {i mem : Nat} {x : T × Bucket} {c : Cache} (hb : s.buckets[i]?=some x)
    (hc : x.2.caches[k]?=some c) (hm : mem ∈ c.ptrs) :
    (mem,slabSize) ∈ slabExtents (s.buckets.flatMap fun x => x.2.ptrs) := by
  refine List.mem_map_of_mem (List.mem_flatMap.mpr ⟨x,List.mem_of_getElem? hb,?_⟩)
  exact List.mem_flatMap.mpr ⟨c,List.mem_of_getElem? hc,hm⟩

/-- A block of a cache lies in one slab of that cache of its owner. -/
theorem placed (h : Tidy s live served) (hm : e ∈ live) (hk : e.idx=some k) :
    ∃ (i : Nat) (b : Bucket) (c : Cache) (mem : Nat), s.buckets[i]?=some (e.owner,b) ∧
      b.caches[k]?=some c ∧ mem ∈ c.ptrs ∧ e.range.bytes ⊆ bytes (mem,slabSize) ∧
      ∃ j, e.ptr=mem+j*e.room := by
  obtain ⟨size,hs⟩ := exists_size hk
  obtain ⟨lo,b,hi,hb⟩ := exists_bucket (h.owners e hm)
  have hkeeps : b.Keeps (liveOf live e.owner) := h.kept (e.owner,b) (by simp [hb])
  obtain ⟨c,hc,hct⟩ := hkeeps.cache hs
  obtain ⟨mem,hmem,hin,hj⟩ := hct.placed (List.mem_of_getElem? hs) (mem_liveOf hm hk)
  refine ⟨lo.length,b,c,mem,by rw [hb,getElem?_mid],hc,hmem,?_,?_⟩
  · rwa [Loan.range,Loan.room_eq hk hs]
  · rwa [Loan.room_eq hk hs]

/-- Blocks of two caches lie in different slabs. -/
theorem apart_small (h : Tidy s live served) (hm : e ∈ live) (hm' : f ∈ live)
    (hk : e.idx=some k) (hk' : f.idx=some k') (hne : e.owner=f.owner → k ≠ k') :
    e.range.Apart f.range := by
  obtain ⟨i,b,c,mem,hb,hc,hmem,hin,_⟩ := h.placed hm hk
  obtain ⟨i',b',c',mem',hb',hc',hmem',hin',_⟩ := h.placed hm' hk'
  have ht := (tiled_append.mp (tiled_append.mp h.ledger.tiled).2.1).1
  rw [slabExtents_flatMap] at ht
  have hslab : Extent.Apart (mem,slabSize) (mem',slabSize) := by
    by_cases hi : i=i'
    · subst hi
      obtain ⟨ho,rfl⟩ := Prod.mk.inj (Option.some.inj (hb.symm.trans hb'))
      have htb := (List.pairwise_flatMap.mp ht).1 _ (List.mem_of_getElem? hb)
      change Tiled (slabExtents b.ptrs) at htb
      rw [Bucket.ptrs,slabExtents_flatMap] at htb
      exact htb.apart_of_positions hc hc' (hne ho) (List.mem_map_of_mem hmem)
        (List.mem_map_of_mem hmem')
    · refine ht.apart_of_positions hb hb' hi (List.mem_map_of_mem ?_) (List.mem_map_of_mem ?_)
      · exact List.mem_flatMap.mpr ⟨c,List.mem_of_getElem? hc,hmem⟩
      · exact List.mem_flatMap.mpr ⟨c',List.mem_of_getElem? hc',hmem'⟩
  exact ((hslab.of_subset hin).symm.of_subset hin').symm

omit [DecidableEq T] in
theorem mem_large (hm : e ∈ live) (hk : e.idx=none) : e.range ∈ large live := by
  rw [Loan.range,Loan.room_large hk]
  exact List.mem_map_of_mem (List.mem_filter.mpr ⟨hm,decide_eq_true hk⟩)

/-- Memory of `operator new` is apart from the slabs. -/
theorem apart_large (h : Tidy s live served) (hm : e ∈ live) (hm' : f ∈ live)
    (hk : e.idx=none) (hk' : f.idx=some k) : e.range.Apart f.range := by
  obtain ⟨i,b,c,mem,hb,hc,hmem,hin,_⟩ := h.placed hm' hk'
  have ht := (tiled_append.mp (tiled_append.mp h.ledger.tiled).2.1).2.2
  exact ((ht _ (mem_slabs hb hc hmem) _ (mem_large hm hk)).of_subset hin).symm

/-- The live blocks of one cache of one thread. -/
theorem filter_small (live : List (Loan T)) (id : T) {size : Nat} (hs : cacheSizes[k]?=some size) :
    (live.filter fun e => decide (e.idx.map (fun j => (e.owner,j))=some (id,k))).map Loan.range=
      (liveOf live id k).map fun p => (p,size) := by
  have hf : (live.filter fun e => decide (e.idx.map (fun j => (e.owner,j))=some (id,k)))=
      live.filter fun e => decide (e.owner=id ∧ e.idx=some k) := by
    refine List.filter_congr fun e _ => ?_
    rw [decide_eq_decide,Option.map_eq_some_iff]
    constructor
    · rintro ⟨j,hj,he⟩
      obtain ⟨rfl,rfl⟩ := Prod.mk.inj he
      exact ⟨rfl,hj⟩
    · rintro ⟨rfl,hj⟩
      exact ⟨k,hj,rfl⟩
  rw [hf,liveOf,List.map_map]
  refine List.map_congr_left fun e he => ?_
  obtain ⟨_,hk⟩ := of_decide_eq_true (List.mem_filter.mp he).2
  simp [Loan.range,Loan.room_eq hk hs]

omit [DecidableEq T] in
/-- Those of `operator new`. -/
theorem filter_large (live : List (Loan T)) :
    (live.filter fun e => decide (e.idx.map (fun j => (e.owner,j))=none)).map Loan.range=
      large live := by
  have hf : (live.filter fun e => decide (e.idx.map (fun j => (e.owner,j))=none))=
      live.filter fun e => decide (e.idx=none) := by
    refine List.filter_congr fun e _ => ?_
    rw [decide_eq_decide,Option.map_eq_none_iff]
  rw [hf,large]
  refine List.map_congr_left fun e he => ?_
  have hk : e.idx=none := of_decide_eq_true (List.mem_filter.mp he).2
  rw [Loan.range,Loan.room_large hk]

/-- No two live blocks of any threads have a byte in common. -/
theorem tiled (h : Tidy s live served) : Tiled (live.map Loan.range) := by
  refine tiled_of_keys (fun e => e.idx.map fun j => (e.owner,j)) Loan.range ?_ ?_
  · rintro (_ | ⟨id,k⟩)
    · rw [filter_large]
      exact (tiled_append.mp (tiled_append.mp h.ledger.tiled).2.1).2.1
    · by_cases hx : ∃ e ∈ live, e.owner=id ∧ e.idx=some k
      · obtain ⟨e,hm,rfl,hk⟩ := hx
        obtain ⟨size,hs⟩ := exists_size hk
        obtain ⟨lo,b,hi,hb⟩ := exists_bucket (h.owners e hm)
        have hkeeps : b.Keeps (liveOf live e.owner) := h.kept (e.owner,b) (by simp [hb])
        obtain ⟨c,_,hct⟩ := hkeeps.cache hs
        rw [filter_small live e.owner hs]
        exact hct.tiled
      · have hn : (live.filter fun e =>
            decide (e.idx.map (fun j => (e.owner,j))=some (id,k)))=[] := by
          refine List.filter_eq_nil_iff.mpr fun e he hd => hx ⟨e,he,?_⟩
          obtain ⟨j,hj,heq⟩ := Option.map_eq_some_iff.mp (of_decide_eq_true hd)
          obtain ⟨rfl,rfl⟩ := Prod.mk.inj heq
          exact ⟨rfl,hj⟩
        rw [hn]
        exact List.Pairwise.nil
  · intro e hm f hm' hne
    cases hk : e.idx with
    | none =>
      cases hk' : f.idx with
      | none => simp [hk,hk'] at hne
      | some k' => exact h.apart_large hm hm' hk hk'
    | some k =>
      cases hk' : f.idx with
      | none => exact (h.apart_large hm' hm hk' hk).symm
      | some k' =>
        refine h.apart_small hm hm' hk hk' fun ho hkk => hne ?_
        simp [hk,hk',ho,hkk]

/-- Nor with memory the dispatcher has not handed out. -/
theorem apart_blocks (h : Tidy s live served) (hm : e ∈ live) {mem : Nat}
    (hmem : mem ∈ s.dispatcher.blocks) : e.range.Apart (mem,slabSize) := by
  have ht := (tiled_append.mp h.ledger.tiled).2.2 _ (List.mem_map_of_mem hmem)
  cases hk : e.idx with
  | none => exact (ht _ (List.mem_append_right _ (mem_large hm hk))).symm
  | some k =>
    obtain ⟨i,b,c,m,hb,hc,hm',hin,_⟩ := h.placed hm hk
    exact (ht _ (List.mem_append_left _ (mem_slabs hb hc hm'))).symm.of_subset hin

end Tidy

end Routing

namespace GlobalDispatch

variable {d d' : GlobalDispatch} {mem : Nat}

/-- A slab cut from a superblock that `operator new` granted. -/
def Carved (d : GlobalDispatch) (mem : Nat) : Prop :=
  ∃ base, (base,superblockSize) ∈ d.heap.granted ∧ mem ∈ carve base

theorem Carved.mono (h : d.Carved mem) (hs : d.heap.granted ⊆ d'.heap.granted) :
    d'.Carved mem := by
  obtain ⟨base,hb,hm⟩ := h
  exact ⟨base,hs hb,hm⟩

theorem requestLoop_carved (sblocks : Nat) {b : Bool} (h : ∀ m ∈ d.blocks, d.Carved m)
    (hr : requestLoop sblocks d=(d',b)) :
    d.heap.granted ⊆ d'.heap.granted ∧ ∀ m ∈ d'.blocks, d'.Carved m := by
  induction sblocks generalizing d with
  | zero =>
    obtain ⟨rfl,_⟩ := Prod.mk.inj hr
    exact ⟨List.Subset.refl _,h⟩
  | succ sblocks ih =>
    rw [requestLoop] at hr
    cases hn : d.heap.new superblockSize with
    | none =>
      rw [hn] at hr
      obtain ⟨rfl,_⟩ := Prod.mk.inj hr
      exact ⟨List.Subset.refl _,h⟩
    | some x =>
      obtain ⟨mem,heap⟩ := x
      rw [hn] at hr
      obtain ⟨_,_,hg,_⟩ := new_cases hn
      have hsub : d.heap.granted ⊆ heap.granted := fun g hm => hg ▸ List.mem_cons_of_mem _ hm
      have hcut : ∀ m ∈ d.blocks ++ carve mem,
          Carved { d with heap := heap, blocks := d.blocks ++ carve mem } m := by
        intro m hm
        rcases List.mem_append.mp hm with hm | hm
        · exact (h m hm).mono hsub
        · exact ⟨mem,by simp [hg],hm⟩
      obtain ⟨hx,hb⟩ := ih hcut hr
      exact ⟨fun g hm => hx (hsub hm),hb⟩

theorem requestMem_carved (sblocks : Nat) {b : Bool} (h : ∀ m ∈ d.blocks, d.Carved m)
    (hr : requestMem sblocks d=(d',b)) :
    d.heap.granted ⊆ d'.heap.granted ∧ ∀ m ∈ d'.blocks, d'.Carved m := by
  rw [requestMem] at hr
  cases hl : requestLoop sblocks d with
  | mk x b' =>
    have hx := requestLoop_carved sblocks h hl
    rw [hl] at hr
    cases b' <;> (obtain ⟨rfl,_⟩ := Prod.mk.inj hr; exact hx)

theorem getBlock_carved (h : ∀ m ∈ d.blocks, d.Carved m) (hb : d.getBlock=(some mem,d')) :
    d.heap.granted ⊆ d'.heap.granted ∧ d'.Carved mem ∧ ∀ m ∈ d'.blocks, d'.Carved m := by
  obtain ⟨x,hx,hblocks,rfl⟩ := getBlock_cases hb
  have hc : d.heap.granted ⊆ x.heap.granted ∧ ∀ m ∈ x.blocks, x.Carved m := by
    rcases hx with rfl | hr
    · exact ⟨List.Subset.refl _,h⟩
    · exact requestMem_carved initSuperblocks h hr
  refine ⟨hc.1,hc.2 mem (by rw [hblocks]; simp),?_⟩
  intro m hm
  exact hc.2 m (List.dropLast_subset _ hm)

/-- The first byte of a slab is a whole number of slabs behind that of its superblock. -/
theorem Carved.offset (h : d.Carved mem) : ∃ base j, (base,superblockSize) ∈ d.heap.granted ∧
    mem=base+j*slabSize ∧ bytes (mem,slabSize) ⊆ bytes (base,superblockSize) := by
  obtain ⟨base,hb,hm⟩ := h
  obtain ⟨j,_,rfl⟩ := List.mem_map.mp hm
  exact ⟨base,j,hb,rfl,(carve_within base (List.mem_map_of_mem hm)).2⟩

end GlobalDispatch

section Placed

variable {size ptr : Nat} {c c' : Cache} {live : List Nat} {d d' : GlobalDispatch}

/-- A cache only takes slabs that the dispatcher cut. -/
theorem Tended.allocate_carved (hsz : size ∈ cacheSizes) (h : Tended size c live)
    (hd : ∀ m ∈ d.blocks, d.Carved m) (hc : ∀ m ∈ c.ptrs, d.Carved m)
    (ha : c.allocate d=some (d',c',some ptr)) :
    d.heap.granted ⊆ d'.heap.granted ∧ (∀ m ∈ d'.blocks, d'.Carved m) ∧
      ∀ m ∈ c'.ptrs, d'.Carved m := by
  obtain ⟨s,rfl,hs,_⟩ := h
  obtain ⟨s',rfl,hcase⟩ := Shelf.served_of_allocate (getIndicies_of_holds hsz hs) ha
  rcases hcase with ⟨hg,rfl,hserved⟩ | ⟨hg,mem,hb,hserved⟩
  · refine ⟨List.Subset.refl _,hd,?_⟩
    rcases (hserved ⟨indices (slabSize/size),0⟩).ptrs_perm with ⟨_,hp⟩ | ⟨hx,_⟩
    · exact fun m hm => hc m (hp.mem_iff.mp hm)
    · exact absurd hx hg
  · obtain ⟨hsub,hmem,hblocks⟩ := GlobalDispatch.getBlock_carved hd hb
    refine ⟨hsub,hblocks,?_⟩
    rcases hserved.ptrs_perm with ⟨hx,_⟩ | ⟨_,hp⟩
    · exact absurd hg hx
    · intro m hm
      rcases List.mem_cons.mp (hp.mem_iff.mp hm) with rfl | hm
      · exact hmem
      · exact (hc m hm).mono hsub

theorem makeLoop_carved {classes : List (Nat × Nat)}
    (hcl : ∀ x ∈ classes, x.2 ∈ cacheSizes ∧ x.1=slabSize/x.2) {caches : List Cache}
    (hd : ∀ m ∈ d.blocks, d.Carved m) (h : Bucket.makeLoop d classes=some (d',some caches)) :
    d.heap.granted ⊆ d'.heap.granted ∧ (∀ m ∈ d'.blocks, d'.Carved m) ∧
      ∀ m ∈ caches.flatMap Cache.ptrs, d'.Carved m := by
  induction classes generalizing d caches with
  | nil =>
    simp only [Bucket.makeLoop,Option.some.injEq,Prod.mk.injEq] at h
    obtain ⟨rfl,rfl⟩ := h
    exact ⟨List.Subset.refl _,hd,by simp⟩
  | cons x classes ih =>
    obtain ⟨d₁,c,cs,hm,hr,rfl⟩ := Bucket.makeLoop_cons h
    obtain ⟨count,blockSize⟩ := x
    obtain ⟨hsz,hcount⟩ : blockSize ∈ cacheSizes ∧ count=slabSize/blockSize :=
      hcl _ List.mem_cons_self
    subst hcount
    obtain ⟨mem,hb,rfl⟩ := make_cases hsz hm
    obtain ⟨hsub,hmem,hblocks⟩ := GlobalDispatch.getBlock_carved hd hb
    obtain ⟨hsub',hblocks',hptrs⟩ := ih (fun y hy => hcl y (List.mem_cons_of_mem _ hy)) hblocks hr
    refine ⟨fun g hg => hsub' (hsub hg),hblocks',?_⟩
    intro m hm
    rcases List.mem_append.mp (List.flatMap_cons ▸ hm) with hm | hm
    · obtain rfl : m=mem := by simpa [Shelf.cache,Client.first] using hm
      exact hmem.mono hsub'
    · exact hptrs m hm

end Placed

namespace Routing

variable {T : Type} [DecidableEq T]

/-- Besides, all slabs were cut from superblocks, and large blocks are whole grants of
`operator new`. -/
structure Secure (s : Interface T) (live : List (Loan T)) (served : List Extent) : Prop
    extends Tidy s live served where
  blocks : ∀ m ∈ s.dispatcher.blocks, s.dispatcher.Carved m
  ptrs : ∀ x ∈ s.buckets, ∀ m ∈ x.2.ptrs, s.dispatcher.Carved m
  whole : ∀ x ∈ large live, x ∈ s.dispatcher.heap.granted

namespace Secure

variable {s : Interface T} {d : GlobalDispatch} {live live' : List (Loan T)}
  {served : List Extent} {e : Loan T} {id : T} {k size n ptr : Nat} {lo hi : List (T × Bucket)}
  {b b' : Bucket} {buckets : List (T × Bucket)}

theorem supply (h : Secure s live served) (answers : List Nat) :
    Secure (s.supply answers) live served :=
  ⟨h.toTidy.supply answers,h.blocks,h.ptrs,h.whole⟩

/-- Neither the order of the buckets matters nor that of the blocks. -/
theorem perm (h : Secure s live served) (hb : s.buckets.Perm buckets) (hl : live.Perm live') :
    Secure ⟨s.dispatcher,buckets⟩ live' served := by
  have hlarge := large_perm hl
  refine ⟨⟨(hb.map _).nodup_iff.mp h.keys,?_,?_,?_,
    fun e he => h.bounded e (hl.mem_iff.mpr he),h.returned.trans (hlarge.append_left _)⟩,
    h.blocks,fun x hx => h.ptrs x (hb.mem_iff.mpr hx),fun x hx => h.whole x (hlarge.mem_iff.mpr hx)⟩
  · intro e he
    exact (hb.map _).mem_iff.mp (h.owners e (hl.mem_iff.mpr he))
  · intro x hx
    exact (h.kept x (hb.mem_iff.mpr hx)).congr fun j => liveOf_perm hl x.1 j
  · refine h.ledger.perm (List.Perm.append_left _ (List.Perm.append ?_ hlarge))
    exact (hb.flatMap_right _).map _

/-- A block of a cache handed out. -/
theorem lend (h : Secure s live served) (hs : s.buckets=lo ++ (id,b) :: hi)
    (hlt : size*n < 2^64) (hk : findCacheIdx (size*n)=some k)
    (ha : b.allocate s.dispatcher (some k) (size*n)=some (d,b',some ptr)) :
    0 < ptr ∧ Secure ⟨d,lo ++ (id,b') :: hi⟩ (⟨ptr,id,size,n⟩ :: live) served := by
  obtain ⟨hpos,ht⟩ := h.toTidy.lend hs hlt hk ha
  obtain ⟨sz,hsz⟩ := exists_size hk
  obtain ⟨c,c',hc,hac,rfl⟩ := Bucket.allocate_cache ha
  have hmid : (id,b) ∈ s.buckets := by simp [hs]
  have hct : Tended sz c (liveOf live id k) := (h.kept _ hmid).tended k sz c hsz hc
  obtain ⟨others,hp,hp'⟩ := Bucket.ptrs_set hc
  have hcp : ∀ m ∈ c.ptrs, s.dispatcher.Carved m := fun m hm =>
    h.ptrs _ hmid m (hp.mem_iff.mpr (List.mem_append_left _ hm))
  obtain ⟨hsub,hblocks,hptrs⟩ := hct.allocate_carved (List.mem_of_getElem? hsz) h.blocks hcp hac
  refine ⟨hpos,ht,hblocks,?_,?_⟩
  · intro x hx m hm
    rcases List.mem_cons.mp (List.perm_middle.mem_iff.mp hx) with rfl | hx
    · rcases List.mem_append.mp ((hp' c').mem_iff.mp hm) with hm | hm
      · exact hptrs m hm
      · exact (h.ptrs _ hmid m (hp.mem_iff.mpr (List.mem_append_right _ hm))).mono hsub
    · refine (h.ptrs x ?_ m hm).mono hsub
      exact hs ▸ List.perm_middle.mem_iff.mpr (List.mem_cons_of_mem _ hx)
  · have hidx : (Loan.mk ptr id size n).idx=some k := hk
    rw [large_cons,if_neg (by simp [hidx])]
    exact fun x hx => hsub (h.whole x hx)

/-- Memory of `operator new` handed out. -/
theorem lend_large (h : Secure s live served) (hid : id ∈ s.buckets.map Prod.fst)
    (hlt : size*n < 2^64) (hk : findCacheIdx (size*n)=none) {heap : Heap}
    (ha : s.dispatcher.heap.new (size*n)=some (ptr,heap)) :
    0 < ptr ∧ Secure ⟨{ s.dispatcher with heap := heap },s.buckets⟩ (⟨ptr,id,size,n⟩ :: live)
      ((ptr,size*n) :: served) := by
  obtain ⟨hpos,ht⟩ := h.toTidy.lend_large hid hlt hk ha
  obtain ⟨_,_,hg,_⟩ := GlobalDispatch.new_cases ha
  have hsub : s.dispatcher.heap.granted ⊆ heap.granted :=
    fun g hm => hg ▸ List.mem_cons_of_mem _ hm
  refine ⟨hpos,ht,fun m hm => (h.blocks m hm).mono hsub,
    fun x hx m hm => (h.ptrs x hx m hm).mono hsub,?_⟩
  have hidx : (Loan.mk ptr id size n).idx=none := hk
  intro x hx
  rw [large_cons,if_pos hidx] at hx
  rcases List.mem_cons.mp hx with rfl | hx
  · change _ ∈ heap.granted
    rw [hg]
    exact List.mem_cons_self
  · exact hsub (h.whole x hx)

/-- A block of a cache is back in it. -/
theorem give (h : Secure s live served) (hm : e ∈ live) (hk : e.idx=some k)
    (hs : s.buckets=lo ++ (e.owner,b) :: hi)
    (hb : b'.Keeps (Function.update (liveOf live e.owner) k
      ((liveOf live e.owner k).erase e.ptr))) (hsub : b'.ptrs.Subperm b.ptrs) :
    Secure ⟨s.dispatcher,lo ++ (e.owner,b') :: hi⟩ (live.erase e) served := by
  refine ⟨h.toTidy.give hm hk hs hb hsub,h.blocks,?_,?_⟩
  · intro x hx m hm
    rcases List.mem_cons.mp (List.perm_middle.mem_iff.mp hx) with rfl | hx
    · exact h.ptrs (e.owner,b) (by simp [hs]) m (hsub.subset hm)
    · refine h.ptrs x ?_ m hm
      exact hs ▸ List.perm_middle.mem_iff.mpr (List.mem_cons_of_mem _ hx)
  · intro x hx
    refine h.whole x ?_
    obtain ⟨f,hf,rfl⟩ := List.mem_map.mp hx
    obtain ⟨hf,hk⟩ := List.mem_filter.mp hf
    exact List.mem_map_of_mem (List.mem_filter.mpr ⟨List.mem_of_mem_erase hf,hk⟩)

/-- Memory is back with `operator delete`; no slab and no other large block was in that grant. -/
theorem give_large (h : Secure s live served) (hm : e ∈ live) (hk : e.idx=none) :
    Secure ⟨{ s.dispatcher with heap := s.dispatcher.heap.delete e.ptr e.bytes },s.buckets⟩
      (live.erase e) served := by
  have hlarge : (large live).Perm ((e.ptr,e.bytes) :: large (live.erase e)) := by
    have hp := large_perm (List.perm_cons_erase hm)
    rwa [large_cons,if_pos hk] at hp
  have hpieces := h.ledger.tiled
  have ht := (tiled_append.mp hpieces).2.1
  have hself : ∀ {x : Extent}, 0 < x.2 → ¬ x.Apart x := by
    intro x hx hap
    exact Set.disjoint_left.mp hap (mem_bytes.mpr ⟨le_rfl,by omega⟩)
      (mem_bytes.mpr ⟨le_rfl,by omega⟩)
  have hin : (e.ptr,e.bytes) ∈ large live := hlarge.mem_iff.mpr List.mem_cons_self
  have hslab : ∀ m, s.dispatcher.Carved m → Extent.Apart (m,slabSize) (e.ptr,e.bytes) →
      (GlobalDispatch.Carved { s.dispatcher with
        heap := s.dispatcher.heap.delete e.ptr e.bytes } m) := by
    rintro m ⟨base,hb,hmem⟩ hap
    refine ⟨base,(List.mem_erase_of_ne ?_).mpr hb,hmem⟩
    intro heq
    -- the slab would lie in the block
    have hsub := (GlobalDispatch.carve_within base (List.mem_map_of_mem hmem)).2
    rw [heq] at hsub
    exact hself (x := (m,slabSize)) GlobalDispatch.slabSize_pos (hap.symm.of_subset hsub)
  refine ⟨h.toTidy.give_large hm hk,?_,?_,?_⟩
  · intro m hm
    refine hslab m (h.blocks m hm) ?_
    exact (tiled_append.mp hpieces).2.2 _ (List.mem_map_of_mem hm) _ (List.mem_append_right _ hin)
  · intro x hx m hm
    refine hslab m (h.ptrs x hx m hm) ?_
    exact (tiled_append.mp ht).2.2 _
      (List.mem_map_of_mem (List.mem_flatMap.mpr ⟨x,hx,hm⟩)) _ hin
  · intro x hx
    refine (List.mem_erase_of_ne ?_).mpr (h.whole x (hlarge.mem_iff.mpr
      (List.mem_cons_of_mem _ hx)))
    rintro rfl
    have hap := (tiled_cons.mp ((tiled_perm hlarge).mp (tiled_append.mp ht).2.1)).1 _ hx
    have hpos : 0 < e.bytes := bytes_pos hk
    exact hself (x := (e.ptr,e.bytes)) hpos hap

/-- A new bucket, of a thread that has none. -/
theorem make (h : Secure s live served) (hid : id ∉ s.buckets.map Prod.fst)
    (hm : Bucket.make s.dispatcher=some (d,some b)) :
    Secure ⟨d,s.buckets ++ [(id,b)]⟩ live served := by
  have hr : s.registerThread id=some (⟨d,s.buckets ++ [(id,b)]⟩,true) := by
    simp [Interface.registerThread,hm,SmpMap.emplace]
  have hcl : ∀ x ∈ blocksPer.zip cacheSizes, x.2 ∈ cacheSizes ∧ x.1=slabSize/x.2 := by
    have hzip : blocksPer.zip cacheSizes=cacheSizes.map fun s => (slabSize/s,s) := by decide
    intro x hx
    rw [hzip] at hx
    obtain ⟨s,hs,rfl⟩ := List.mem_map.mp hx
    exact ⟨hs,rfl⟩
  obtain ⟨hsub,hblocks,hptrs⟩ := makeLoop_carved hcl h.blocks (Bucket.makeLoop_of_make hm)
  refine ⟨(h.toTidy.registerThread hid hr).1,hblocks,?_,fun x hx => hsub (h.whole x hx)⟩
  intro x hx m hm
  rcases List.mem_append.mp hx with hx | hx
  · exact (h.ptrs x hx m hm).mono hsub
  · obtain rfl := List.mem_singleton.mp hx
    exact hptrs m hm

/-- Every live block lies in one grant, a multiple of its room from the first byte. -/
theorem granted (h : Secure s live served) (hm : e ∈ live) :
    ∃ g ∈ s.dispatcher.heap.granted, e.range.bytes ⊆ g.bytes ∧ ∃ j, e.ptr=g.1+j*e.room := by
  cases hk : e.idx with
  | none => exact ⟨e.range,h.whole _ (Tidy.mem_large hm hk),Set.Subset.refl _,0,by simp [Loan.range]⟩
  | some k =>
    obtain ⟨size,hs⟩ := exists_size hk
    obtain ⟨i,b,c,mem,hb,hc,hmem,hin,l,hl⟩ := h.toTidy.placed hm hk
    have hcarved : s.dispatcher.Carved mem := h.ptrs _ (List.mem_of_getElem? hb) mem
      (List.mem_flatMap.mpr ⟨c,List.mem_of_getElem? hc,hmem⟩)
    obtain ⟨base,j,hbase,hj,hsub⟩ := hcarved.offset
    refine ⟨_,hbase,hin.trans hsub,j*(slabSize/size)+l,?_⟩
    have hcut := (class_bounds (List.mem_of_getElem? hs)).2.1
    rw [hl,hj,Loan.room_eq hk hs,Nat.add_mul,Nat.mul_assoc,Nat.mul_comm (slabSize/size),hcut]
    omega

end Secure

end Routing

end Allocators.SlabMulti
