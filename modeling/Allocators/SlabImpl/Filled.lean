import Allocators.SlabImpl.Traced

/-! How full the slabs of each store are, for any number of blocks in a slab: past
`MAX_SLAB_BLOCKS` an index list may name a block twice, but its length is still right. -/

namespace Allocators.SlabImpl

open Lib

/-- The length of an index list tells the store of the slab. -/
def Level (count : Nat) : Store → List Nat → Prop
  | .slabsFree,availible => availible.length=count
  | .slabsPart,availible => 0 < availible.length ∧ availible.length < count
  | .slabsFull,availible => availible=[]

/-- The blocks missing from the index lists are counted by `mySize`. -/
structure Filled (c : Cache) : Prop where
  levels : ∀ x, ∀ s ∈ c.store x, Level c.count x s.availible
  shape : ∀ s ∈ c.slabs, s.count=c.count
  size : c.mySize+(c.slabs.map fun s => s.availible.length).sum=c.count*c.slabs.length

/-- A block of slab `s` was handed out. -/
structure Taken (c c' : Cache) (s : Slab) (availible : List Nat) (idx : Nat) : Prop where
  availible_eq : s.availible=availible ++ [idx]
  mySize : c'.mySize=c.mySize+1
  moves : ∃ x, Cache.Moves c c' x (if availible=[] then .slabsFull else .slabsPart) s
    { s with availible := availible }

/-- What `allocate` works on: the cache, with a new slab where there is none to take from. -/
def grown (vecMap : VecMap) (c : Cache) (mem : Nat) : Cache :=
  if Pool.Grows c then Cache.newSlab vecMap c mem else c

/-- The construction of the new slab. -/
def built (vecMap : VecMap) (c : Cache) (mem : Nat) : List Event :=
  if Pool.Grows c then [.construct (Slab.make vecMap mem c.blockSize c.count)] else []

/-- A block of slab `s` came back. -/
structure Given (c c' : Cache) (s : Slab) (ptr : Nat) : Prop where
  contains : s.region.Contains ptr
  taken : s.availible.length < c.count
  mySize : c'.mySize=c.mySize-1
  moves : ∃ x, Cache.Moves c c' x (if (s.deallocate ptr).empty then .slabsFree else .slabsPart) s
    (s.deallocate ptr)

namespace Filled

theorem empty (blockSize count : Nat) : Filled ⟨count,blockSize,0,0,[],[],[]⟩ := by
  refine ⟨fun x s hs => ?_,?_,?_⟩
  · cases x <;> exact absurd hs List.not_mem_nil
  all_goals simp [Cache.slabs]

variable {c c' : Cache} {s : Slab}

theorem length_le (h : Filled c) (hs : s ∈ c.slabs) : s.availible.length ≤ c.count := by
  obtain ⟨x,hx⟩ := Cache.mem_slabs.mp hs
  have hl := h.levels x s hx
  cases x with
  | slabsFree => exact le_of_eq hl
  | slabsPart => exact le_of_lt hl.2
  | slabsFull =>
    have hn : s.availible=[] := hl
    simp [hn]

theorem mySize_le (h : Filled c) : c.mySize ≤ c.count*c.slabs.length := by
  have := h.size
  omega

theorem mySize_pos (h : Filled c) (hs : s ∈ c.slabs) (hlt : s.availible.length < c.count) :
    0 < c.mySize := by
  have hp := List.perm_cons_erase hs
  have hrest : ∀ t ∈ c.slabs.erase s, t.availible.length ≤ c.count :=
    fun t ht => h.length_le (List.mem_of_mem_erase ht)
  have hle := List.sum_le_card_nsmul ((c.slabs.erase s).map fun t => t.availible.length) c.count
    (List.forall_mem_map.mpr hrest)
  rw [List.length_map,smul_eq_mul,Nat.mul_comm] at hle
  have hsum := (hp.map fun s => s.availible.length).sum_eq
  have hlen := hp.length_eq
  have hsize := h.size
  rw [hsum,hlen] at hsize
  simp only [List.map_cons,List.sum_cons,List.length_cons,Nat.mul_add,Nat.mul_one] at hsize
  omega

/-- One slab changes its index list and, where its level asks for it, its store. -/
theorem moves (h : Filled c) {x y : Store} {s' : Slab} (hv : Cache.Moves c c' x y s s')
    (hc : s'.count=s.count) (hy : Level c.count y s'.availible)
    (hsize : c'.mySize+s'.availible.length=c.mySize+s.availible.length) : Filled c' := by
  obtain ⟨rest,hp,hp',hmem⟩ := hv.others
  have hs : s ∈ c.slabs := hp.mem_iff.mpr (by simp)
  refine ⟨?_,?_,?_⟩
  · intro z t ht
    rw [hv.count]
    rcases hmem z t ht with ⟨rfl,rfl⟩ | ⟨hz,_⟩
    · exact hy
    · exact h.levels z t hz
  · intro t ht
    rw [hv.count]
    rcases List.mem_cons.mp (hp'.mem_iff.mp ht) with rfl | ht
    · rw [hc]
      exact h.shape s hs
    · exact h.shape t (hp.mem_iff.mpr (List.mem_cons_of_mem _ ht))
  · have hold := h.size
    rw [(hp.map fun s => s.availible.length).sum_eq,hp.length_eq] at hold
    rw [(hp'.map fun s => s.availible.length).sum_eq,hp'.length_eq,hv.count]
    simp only [List.map_cons,List.sum_cons,List.length_cons] at hold ⊢
    omega

theorem taken {availible : List Nat} {idx : Nat} (h : Filled c) (ht : Taken c c' s availible idx) :
    Filled c' := by
  obtain ⟨x,hv⟩ := ht.moves
  have hs : s ∈ c.slabs := Cache.mem_slabs.mpr ⟨x,hv.mem⟩
  have hle := h.length_le hs
  have hlen : s.availible.length=availible.length+1 := by simp [ht.availible_eq]
  have hsize := ht.mySize
  refine h.moves hv rfl ?_ ?_
  · split_ifs with he
    · exact he
    · have hpos := List.length_pos_iff.mpr he
      exact ⟨hpos,by simp only; omega⟩
  · simp only
    omega

theorem given {ptr : Nat} (h : Filled c) (hg : Given c c' s ptr) : Filled c' := by
  obtain ⟨x,hv⟩ := hg.moves
  have hs : s ∈ c.slabs := Cache.mem_slabs.mpr ⟨x,hv.mem⟩
  have hlt := hg.taken
  have hpos := h.mySize_pos hs hlt
  have hcount := h.shape s hs
  have hlen : (s.deallocate ptr).availible.length=s.availible.length+1 := by simp [Slab.deallocate]
  have hsize := hg.mySize
  refine h.moves hv rfl ?_ (by omega)
  cases he : (s.deallocate ptr).empty with
  | true =>
    have hfull : (s.deallocate ptr).availible.length=s.count := of_decide_eq_true he
    exact hfull.trans hcount
  | false =>
    have hne : (s.deallocate ptr).availible.length ≠ s.count := of_decide_eq_false he
    exact ⟨by omega,by omega⟩

variable {vecMap : VecMap} {mem : Nat}

theorem newSlab (h : Filled c) (hl : vecMap.lookup c.count=some (indices c.count)) :
    Filled (Cache.newSlab vecMap c mem) := by
  have hp := slabs_newSlab vecMap c mem
  have hav : (Slab.make vecMap mem c.blockSize c.count).availible.length=c.count := by
    simp [Slab.make,hl]
  refine ⟨?_,?_,?_⟩
  · intro z t ht
    cases z with
    | slabsFree =>
      rcases List.mem_append.mp ht with ht | ht
      · exact h.levels .slabsFree t ht
      · rw [List.mem_singleton.mp ht]
        exact hav
    | slabsPart => exact h.levels .slabsPart t ht
    | slabsFull => exact h.levels .slabsFull t ht
  · intro t ht
    rcases List.mem_cons.mp (hp.mem_iff.mp ht) with rfl | ht
    · rfl
    · exact h.shape t ht
  · have hold := h.size
    rw [(hp.map fun s => s.availible.length).sum_eq,hp.length_eq]
    simp only [List.map_cons,List.sum_cons,List.length_cons,hav,Nat.mul_add,Nat.mul_one]
    change c.mySize+_=_
    change _=c.count*_+c.count
    omega

theorem grown (h : Filled c) (hl : vecMap.lookup c.count=some (indices c.count)) :
    Filled (SlabImpl.grown vecMap c mem) := by
  unfold SlabImpl.grown
  split_ifs
  · exact h.newSlab hl
  · exact h

variable (vecMap mem)

theorem allocate_old (h : Filled c) (hmin : 2 ≤ c.count) (hg : ¬ Pool.Grows c) :
    ∃ c' s availible idx es, c.allocate vecMap mem=some (c',s.region.block idx) ∧
      Traced.allocate vecMap c mem=some (c',s.region.block idx,es) ∧ Silent es ∧
      Taken c c' s availible idx := by
  cases hp : c.slabsPart with
  | cons s rest =>
    have hlev := h.levels .slabsPart s (by simp [Cache.store,hp])
    rcases List.eq_nil_or_concat' s.availible with hnil | ⟨availible,idx,hav⟩
    · simp [Level,hnil] at hlev
    · obtain ⟨c',ha,hsize,hv⟩ := Cache.allocate_part vecMap mem hp hav
      obtain ⟨es,ht,hsil⟩ := Traced.allocate_part vecMap mem hp hav
      rw [ha] at ht
      exact ⟨c',s,availible,idx,es,ha,ht,hsil,hav,hsize,_,hv⟩
  | nil =>
    cases hf : c.slabsFree with
    | nil => exact absurd ⟨hp,hf⟩ hg
    | cons s rest =>
      have hlev := h.levels .slabsFree s (by simp [Cache.store,hf])
      rcases List.eq_nil_or_concat' s.availible with hnil | ⟨availible,idx,hav⟩
      · simp only [Level,hnil,List.length_nil] at hlev
        omega
      · have hne : availible ≠ [] := by
          rintro rfl
          simp only [Level,hav,List.nil_append,List.length_singleton] at hlev
          omega
        obtain ⟨c',ha,hsize,hv⟩ := Cache.allocate_free vecMap mem hp hf hav hne
        obtain ⟨es,ht,hsil⟩ := Traced.allocate_free vecMap mem hp hf hav hne
        rw [ha] at ht
        refine ⟨c',s,availible,idx,es,ha,ht,hsil,hav,hsize,.slabsFree,?_⟩
        rw [if_neg hne]
        exact hv

/-- `allocate` takes a block of a slab that has one, and no iterator it uses is stale. -/
theorem allocate (h : Filled c) (hmin : 2 ≤ c.count)
    (hl : vecMap.lookup c.count=some (indices c.count)) :
    ∃ c' s availible idx es, c.allocate vecMap mem=some (c',s.region.block idx) ∧
      Traced.allocate vecMap c mem=some (c',s.region.block idx,built vecMap c mem ++ es) ∧
      Silent es ∧ Taken (SlabImpl.grown vecMap c mem) c' s availible idx := by
  by_cases hg : Pool.Grows c
  · have hnot : ¬ Pool.Grows (Cache.newSlab vecMap c mem) := by
      rintro ⟨_,hfree⟩
      simp [Cache.newSlab] at hfree
    obtain ⟨c',s,availible,idx,es,ha,ht,hsil,htaken⟩ :=
      (h.newSlab hl).allocate_old vecMap mem hmin hnot
    refine ⟨c',s,availible,idx,es,?_,?_,hsil,?_⟩
    · rw [Cache.allocate_grow vecMap mem hg.1 hg.2,ha]
    · rw [Traced.allocate_grow vecMap mem hg.1 hg.2,ht,built,if_pos hg]
      rfl
    · rw [SlabImpl.grown,if_pos hg]
      exact htaken
  · obtain ⟨c',s,availible,idx,es,ha,ht,hsil,htaken⟩ := h.allocate_old vecMap mem hmin hg
    refine ⟨c',s,availible,idx,es,ha,?_,hsil,?_⟩
    · rw [ht,built,if_neg hg,List.nil_append]
    · rw [SlabImpl.grown,if_neg hg]
      exact htaken

end Filled

section Deallocate

variable {c c' : Cache} {ptr : Nat}

/-- The search looks at every slab that has a block out. -/
theorem deallocate_some (h : Filled c) (hmin : 2 ≤ c.count)
    (hs : ∃ s ∈ c.slabs, s.availible.length < c.count ∧ s.region.Contains ptr) :
    ∃ c' s es, c.deallocate ptr=some c' ∧ Traced.deallocate c ptr=some (c',es) ∧ Silent es ∧
      Given c c' s ptr := by
  rcases Cache.searchStore_cases c .slabsFull ptr with ⟨hf,hnf⟩ | ⟨i,s,hf,hi,hc⟩
  · rcases Cache.searchStore_cases c .slabsPart ptr with ⟨_,hnp⟩ | ⟨i,s,hp,hi,hc⟩
    · obtain ⟨s,hm,hlt,hc⟩ := hs
      obtain ⟨x,hx⟩ := Cache.mem_slabs.mp hm
      cases x with
      | slabsFree => exact absurd (h.levels .slabsFree s hx) (Nat.ne_of_lt hlt)
      | slabsPart => exact absurd hc (hnp s hx)
      | slabsFull => exact absurd hc (hnf s hx)
    · have hlev := h.levels .slabsPart s (List.mem_of_getElem? hi)
      obtain ⟨c',hd,hsize,hv⟩ := Cache.deallocate_part hf hp hi
      obtain ⟨es,ht,hsil⟩ := Traced.deallocate_part hf hp hi
      rw [hd] at ht
      exact ⟨c',s,es,hd,ht,hsil,hc,hlev.2,hsize,_,hv⟩
  · have hm := List.mem_of_getElem? hi
    have hnil : s.availible=[] := h.levels .slabsFull s hm
    have hcount : s.count=c.count := h.shape s (Cache.mem_slabs.mpr ⟨_,hm⟩)
    have he := Slab.empty_deallocate_of_full hnil (hcount ▸ hmin) ptr
    obtain ⟨c',hd,hsize,hv⟩ := Cache.deallocate_full hf hi he
    obtain ⟨es,ht,hsil⟩ := Traced.deallocate_full hf hi he
    rw [hd] at ht
    have hlt : s.availible.length < c.count := by
      rw [hnil,List.length_nil]
      omega
    refine ⟨c',s,es,hd,ht,hsil,hc,hlt,hsize,.slabsFull,?_⟩
    rw [he]
    exact hv

/-- A call that is defined found the slab of the pointer. -/
theorem search_of_deallocate (h : Filled c) (hmin : 2 ≤ c.count)
    (hd : c.deallocate ptr=some c') :
    ∃ s ∈ c.slabs, s.availible.length < c.count ∧ s.region.Contains ptr := by
  rcases Cache.searchStore_cases c .slabsFull ptr with ⟨hf,_⟩ | ⟨i,s,_,hi,hc⟩
  · rcases Cache.searchStore_cases c .slabsPart ptr with ⟨hp,_⟩ | ⟨i,s,_,hi,hc⟩
    · simp [Cache.deallocate,hf,hp] at hd
    · have hm := List.mem_of_getElem? hi
      exact ⟨s,Cache.mem_slabs.mpr ⟨_,hm⟩,(h.levels .slabsPart s hm).2,hc⟩
  · have hm := List.mem_of_getElem? hi
    have hnil : s.availible=[] := h.levels .slabsFull s hm
    refine ⟨s,Cache.mem_slabs.mpr ⟨_,hm⟩,?_,hc⟩
    rw [hnil,List.length_nil]
    omega

/-- A call that is defined gave an index back. -/
theorem given_of_deallocate (h : Filled c) (hmin : 2 ≤ c.count) (hd : c.deallocate ptr=some c') :
    ∃ s es, Traced.deallocate c ptr=some (c',es) ∧ Silent es ∧ Given c c' s ptr := by
  obtain ⟨c₁,s,es,hd₁,ht,hsil,hg⟩ := deallocate_some h hmin (search_of_deallocate h hmin hd)
  obtain rfl := Option.some.inj (hd₁.symm.trans hd)
  exact ⟨s,es,ht,hsil,hg⟩

end Deallocate

section Release

variable {c : Cache}

theorem Filled.freeAll (c : Cache) : Filled c.freeAll := by
  refine ⟨?_,?_,?_⟩
  · intro x s hs
    cases x <;> exact absurd hs List.not_mem_nil
  · simp [Cache.slabs,Cache.freeAll]
  · simp [Cache.slabs,Cache.freeAll]

theorem Filled.freeEmpty (h : Filled c) : Filled c.freeEmpty := by
  have hslabs : c.freeEmpty.slabs=c.slabsPart ++ c.slabsFull := by simp [Cache.slabs]
  have hfree : (c.slabsFree.map fun s => s.availible.length).sum=c.count*c.slabsFree.length := by
    have heq : ∀ n ∈ c.slabsFree.map fun s => s.availible.length, n=c.count :=
      List.forall_mem_map.mpr (h.levels .slabsFree)
    rw [List.sum_eq_card_nsmul _ _ heq,List.length_map,smul_eq_mul,Nat.mul_comm]
  refine ⟨?_,?_,?_⟩
  · intro x s hs
    cases x with
    | slabsFree => simp [Cache.store] at hs
    | slabsPart => exact h.levels .slabsPart s (by simpa [Cache.store] using hs)
    | slabsFull => exact h.levels .slabsFull s (by simpa [Cache.store] using hs)
  · intro s hs
    rw [hslabs] at hs
    refine h.shape s ?_
    simp only [Cache.slabs,List.append_assoc]
    exact List.mem_append_right _ hs
  · have hsize := h.size
    rw [hslabs,Cache.freeEmpty_mySize,Cache.freeEmpty_count]
    simp only [Cache.slabs,List.map_append,List.sum_append,List.length_append,Nat.mul_add,
      hfree] at hsize ⊢
    omega

end Release

end Allocators.SlabImpl
