import Allocators.SlabMulti.Client

/-! What every run of owner and foreign calls keeps of a cache. -/

namespace Allocators.SlabMulti

open Lib Vector Extent

/-- The memory of a slab of the cache. -/
def Cache.regionAt (c : Cache) (mem : Nat) : Region := ⟨mem,c.blockSize,c.count⟩

/-- The two vectors are in step, the iterators valid, and index lists and counters tell which
blocks are live. -/
structure Represents (count : Nat) (k : Client) : Prop where
  lengths : k.cache.slabs.length=k.cache.ptrs.length
  iterators : k.cache.actBlock=k.cache.actMem ∧ k.cache.actBlock < k.cache.slabs.length
  distinct : k.cache.ptrs.Nodup
  accounts : ∀ (i mem : Nat) (slab : Slab), k.cache.slabs[i]?=some slab → k.cache.ptrs[i]?=some mem →
    Accounts (k.cache.regionAt mem) (slab.availible ++ slab.foreigns) k.live
  located : ∀ ptr ∈ k.live, ∃ mem ∈ k.cache.ptrs, (k.cache.regionAt mem).HasBlock ptr
  nodup : k.live.Nodup
  size : k.cache.mySize=k.live.length
  capacity : k.cache.count=count ∧ k.cache.myCapacity=count*k.cache.slabs.length

/-- A step hands out no live block, and no slab it drops has one. -/
structure Keeps (k k' : Client) : Prop where
  fresh : ∀ ptr, k'.live=ptr :: k.live → ptr ∉ k.live
  dropped : ∀ mem ∈ k.cache.ptrs, mem ∉ k'.cache.ptrs →
    ∀ ptr ∈ k'.live, ¬ (k.cache.regionAt mem).Contains ptr

namespace Client

variable {count blockSize : Nat} {s s' : Shelf} {live : List Nat}

theorem regionAt_eq (h : Holds count blockSize s live) {r : Row} (hr : r ∈ s.rows) :
    s.cache.regionAt r.1=r.region := by
  obtain ⟨h1,h2⟩ := h.shaped r hr
  simp [Cache.regionAt,Row.region,Shelf.cache,h1,h2]

theorem represents (h : Holds count blockSize s live) (he : Exact s.rows live) (hc : 0 < count) :
    Represents count ⟨s.cache,live⟩ := by
  refine ⟨by simp [Shelf.cache],⟨rfl,by simpa [Shelf.cache] using h.act⟩,h.sound.nodup_mem hc,
    ?_,?_,he.nodup,h.size,h.count_eq,
    by simp [Shelf.cache,h.count_eq]⟩
  · intro i mem slab hs hp
    obtain ⟨r,hr,rfl,rfl⟩ := Shelf.exists_row hs hp
    have hm := List.mem_of_getElem? hr
    simp only
    rw [regionAt_eq h hm]
    exact he.accounts r hm
  · intro ptr hm
    obtain ⟨r,hr,hb⟩ := h.sound.located ptr hm
    refine ⟨r.1,List.mem_map_of_mem hr,?_⟩
    simp only
    rw [regionAt_eq h hr]
    exact hb

/-- The invariant behind it. -/
def Inv (count blockSize : Nat) (k : Client) : Prop :=
  ∃ s : Shelf, k.cache=s.cache ∧ Holds count blockSize s k.live ∧ Exact s.rows k.live

theorem inv_start (h0 : 0 < blockSize) (hmax : count ≤ maxSlabBlocks) {allowed : Call → Prop}
    [DecidablePred allowed] {k : Client} (h : (machine count blockSize allowed).start k) :
    Inv count blockSize k := by
  obtain ⟨mem,rfl⟩ := start_cases h
  have hempty : Sound count blockSize [] [] :=
    ⟨h0,by simp,by simp [Tiled],by simp,by simp,by simp⟩
  have hexact : Exact [] [] := ⟨List.nodup_nil,by simp⟩
  refine ⟨_,rfl,first_holds h0 mem,hexact.grow hempty ⟨rfl,rfl⟩ (by simp) ?_⟩
  simpa [Row.free] using indices_perm hmax

theorem inv_next (hmax : count ≤ maxSlabBlocks) {k k' : Client} {c : Call}
    (h : Inv count blockSize k) (hn : serve count k c=some k') : Inv count blockSize k' := by
  obtain ⟨s,hk,hs,he⟩ := h
  obtain ⟨cache,live⟩ := k
  simp only at hk hs he
  subst hk
  cases c with
  | allocate mem =>
    obtain ⟨s',ptr,rfl,hserved,hf⟩ := serve_allocate hn
    exact ⟨s',rfl,hs.served hserved fun _ => hf,(hs.served_exact he hmax hserved fun _ => hf).2⟩
  | deallocate ptr thisThread =>
    obtain ⟨hm,s',lo,r,hi,rfl,hr⟩ := serve_deallocate hs hn
    exact ⟨s',rfl,hs.returned hm hr,hs.returned_exact he hmax hm hr⟩

/-- A rearrangement brings in no memory. -/
theorem mem_of_returned {ptr : Nat} {thisThread : Bool} {lo hi : List Row} {r : Row}
    (hr : Returned s ptr thisThread s' lo r hi) {mem : Nat} (hm : mem ∈ s'.cache.ptrs) :
    mem ∈ s.cache.ptrs := by
  obtain ⟨x,hx,rfl⟩ := List.mem_map.mp hm
  exact hr.map_fst ▸ List.mem_map_of_mem (hr.mem_rows hx)

theorem keeps (hmax : count ≤ maxSlabBlocks) {k k' : Client} {c : Call}
    (h : Inv count blockSize k) (hn : serve count k c=some k') : Keeps k k' := by
  obtain ⟨s,hk,hs,he⟩ := h
  obtain ⟨cache,live⟩ := k
  simp only at hk hs he
  subst hk
  cases c with
  | allocate mem =>
    obtain ⟨s',ptr,rfl,hserved,hf⟩ := serve_allocate hn
    refine ⟨?_,?_⟩
    · intro q hq
      obtain rfl : ptr=q := (List.cons.inj hq).1
      exact (hs.served_exact he hmax hserved fun _ => hf).1
    · intro m hm hno
      exfalso
      obtain ⟨_,_,_,_,r,r',rest,idx,_,hp,hr,_,_,hrows⟩ := hserved.core
      have hfst : r'.1=r.1 := congrArg Region.base hr
      obtain ⟨x,hx,rfl⟩ := List.mem_map.mp hm
      have hx' : x.1 ∈ (r' :: rest).map Prod.fst := by
        rcases List.mem_cons.mp (hp.mem_iff.mp hx) with rfl | hx
        · simp [hfst]
        · exact List.mem_map_of_mem (List.mem_cons_of_mem _ hx)
      refine hno ?_
      rcases hrows with hrows | ⟨_,hrows⟩
      · exact (hrows.map Prod.fst).mem_iff.mpr hx'
      · exact (hrows.map Prod.fst).mem_iff.mpr (List.mem_cons_of_mem _ hx')
  | deallocate ptr thisThread =>
    obtain ⟨hm,s',lo,r,hi,rfl,hr⟩ := serve_deallocate hs hn
    refine ⟨?_,?_⟩
    · intro q hq
      have hlen := congrArg List.length hq
      have := List.length_erase_le (a := ptr) (l := live)
      simp only [List.length_cons] at hlen
      omega
    · intro m hmem hno p hp hcp
      have hs' := hs.returned hm hr
      obtain ⟨x,hx,hb⟩ := hs'.sound.located p hp
      have hxm : x.1 ∈ s'.cache.ptrs := List.mem_map_of_mem hx
      obtain ⟨y,hy,hxy⟩ := List.mem_map.mp (mem_of_returned hr hxm)
      obtain ⟨z,hz,rfl⟩ := List.mem_map.mp hmem
      have hne : z.1 ≠ y.1 := fun hzy => hno (hzy ▸ hxy ▸ hxm)
      have hcy : (Row.region y).Contains p := by
        have hreg : Row.region y=Row.region x := by
          rw [← regionAt_eq hs hy,← regionAt_eq hs' hx,hxy]
          have hfields := hr.rearranged.fields
          simp only [Cache.regionAt,Shelf.cache,hfields]
        rw [hreg]
        exact hb.contains (hs'.sound.size_pos hx)
      have hperm := List.perm_cons_erase hz
      simp only at hcp
      rw [regionAt_eq hs hz] at hcp
      rcases List.mem_cons.mp (hperm.mem_iff.mp hy) with rfl | hyr
      · exact hne rfl
      · exact (hs.sound.perm hperm).not_contains_rest hcp y hyr hcy

/-- In every run of owner and foreign calls the representation is right, and no call hands out a
live block or drops the slab of one. -/
theorem reachable_keeps_in_step (h0 : 0 < blockSize) (hmin : 2 ≤ count)
    (hmax : count ≤ maxSlabBlocks) {k : Client}
    (r : (machine count blockSize fun _ => True).Reachable k) :
    Represents count k ∧
      ∀ c k', (machine count blockSize fun _ => True).next k c=some k' → Keeps k k' := by
  have h : Inv count blockSize k := r.invariant (fun _ hs => inv_start h0 hmax hs)
    (fun _ _ _ hi hn => inv_next hmax hi (next_allowed hn).2)
  refine ⟨?_,fun c k' hn => keeps hmax h (next_allowed hn).2⟩
  obtain ⟨s,hk,hs,he⟩ := h
  obtain ⟨cache,live⟩ := k
  simp only at hk hs he
  subst hk
  exact represents hs he (by omega)

/-- Two slabs of two blocks, one block of the full one freed by another thread. -/
theorem reachable_keeps_in_step_foreign :
    ∃ k : Client, (k.cache.ptrs=[200,100] ∧ k.live=[200,100]) ∧ Represents 2 k ∧
      ∀ c k', (machine 2 8 fun _ => True).next k c=some k' → Keeps k k' := by
  obtain ⟨k,r,hk⟩ := Machine.reachable_of_runFrom (machine 2 8 fun _ => True)
    ⟨(first 2 8 100).cache,[]⟩
    [.allocate 0,.allocate 200,.allocate 0,.deallocate 108 false]
    (fun k => k.cache.ptrs=[200,100] ∧ k.live=[200,100]) ⟨100,_,make_eq 2 8 100,rfl⟩ (by decide)
  exact ⟨k,hk,reachable_keeps_in_step (by decide) (by decide) (by decide) r⟩

end Client

end Allocators.SlabMulti
