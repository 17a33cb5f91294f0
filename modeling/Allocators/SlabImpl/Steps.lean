import Allocators.SlabImpl.Cache

/-! What the operations of `Cache` do, in terms of the one slab they touch. -/

namespace Allocators.SlabImpl

open Lib Vector

namespace Slab

def region (s : Slab) : Region := ⟨s.mem,s.blockSize,s.count⟩

@[simp] theorem containsMem_iff {s : Slab} {ptr : Nat} :
    s.containsMem ptr=true ↔ s.region.Contains ptr := by
  simp [containsMem,region,Region.Contains]

theorem allocate_concat {s : Slab} {availible : List Nat} {idx : Nat}
    (h : s.availible=availible ++ [idx]) :
    s.allocate=some ({ s with availible := availible },s.region.block idx,availible.isEmpty) := by
  simp [allocate,h,region,Region.block]

/-- A full slab of two or more blocks is not empty with one of them back. -/
theorem empty_deallocate_of_full {s : Slab} (h : s.availible=[]) (hc : 2 ≤ s.count) (ptr : Nat) :
    (s.deallocate ptr).empty=false := by
  simp only [empty,deallocate,h,List.nil_append,List.length_singleton,decide_eq_false_iff_not]
  omega

end Slab

namespace Cache

/-- All slabs of the cache. -/
def slabs (c : Cache) : List Slab := c.slabsFree ++ c.slabsPart ++ c.slabsFull

@[simp] theorem store_setStore (c : Cache) (l : List Slab) (x : Store) :
    (c.setStore l x).store x=l := by
  cases x <;> rfl

theorem store_setStore_of_ne {x y : Store} (h : y ≠ x) (c : Cache) (l : List Slab) :
    (c.setStore l x).store y=c.store y := by
  cases x <;> cases y <;> first | rfl | exact absurd rfl h

@[simp] theorem setStore_setStore (c : Cache) (l k : List Slab) (x : Store) :
    (c.setStore l x).setStore k x=c.setStore k x := by
  cases x <;> rfl

@[simp] theorem setStore_count (c : Cache) (l : List Slab) (x : Store) :
    (c.setStore l x).count=c.count := by
  cases x <;> rfl

@[simp] theorem setStore_blockSize (c : Cache) (l : List Slab) (x : Store) :
    (c.setStore l x).blockSize=c.blockSize := by
  cases x <;> rfl

@[simp] theorem setStore_mySize (c : Cache) (l : List Slab) (x : Store) :
    (c.setStore l x).mySize=c.mySize := by
  cases x <;> rfl

@[simp] theorem setStore_myCapacity (c : Cache) (l : List Slab) (x : Store) :
    (c.setStore l x).myCapacity=c.myCapacity := by
  cases x <;> rfl

section FreeEmpty

variable (c : Cache)

@[simp] theorem freeEmpty_slabsFree : c.freeEmpty.slabsFree=[] := by simp only [freeEmpty]

@[simp] theorem freeEmpty_slabsPart : c.freeEmpty.slabsPart=c.slabsPart := by
  simp only [freeEmpty]

@[simp] theorem freeEmpty_slabsFull : c.freeEmpty.slabsFull=c.slabsFull := by
  simp only [freeEmpty]

@[simp] theorem freeEmpty_mySize : c.freeEmpty.mySize=c.mySize := by simp only [freeEmpty]

@[simp] theorem freeEmpty_count : c.freeEmpty.count=c.count := by simp only [freeEmpty]

@[simp] theorem freeEmpty_blockSize : c.freeEmpty.blockSize=c.blockSize := by
  simp only [freeEmpty]

end FreeEmpty

theorem mem_slabs {c : Cache} {s : Slab} : s ∈ c.slabs ↔ ∃ x, s ∈ c.store x := by
  constructor
  · intro h
    rcases List.mem_append.mp h with h | h
    · rcases List.mem_append.mp h with h | h
      · exact ⟨.slabsFree,h⟩
      · exact ⟨.slabsPart,h⟩
    · exact ⟨.slabsFull,h⟩
  · rintro ⟨x,h⟩
    cases x <;> simp_all [slabs,store]

/-- From store `x` to another store `y` the slab moves alone and unchanged. -/
theorem splice_eq {c : Cache} {x y : Store} (h : x ≠ y) {i : Nat} {s : Slab}
    (hs : (c.store x)[i]?=some s) :
    c.splice y x (x,i)=
      some ((c.setStore (c.store y ++ [s]) y).setStore (swapPop (c.store x) i) x,
        (y,(c.store y).length)) := by
  obtain ⟨lo,hi,he,rfl⟩ := eq_mid s hs
  have hd : c.deref (x,lo.length)=some s := hs
  have hx : (c.setStore (c.store y ++ [s]) y).store x=lo ++ s :: hi := by
    rw [store_setStore_of_ne h,he]
  simp only [splice,hd,assign,store_setStore,setStore_setStore,hx,set_mid]
  rcases List.eq_nil_or_concat' hi with rfl | ⟨hi,t,rfl⟩
  · simp [he,store_setStore_of_ne h.symm]
  · have hl : (lo ++ s.moved :: (hi ++ [t])).getLast?=some t := by
      rw [← List.cons_append,← List.append_assoc,List.getLast?_concat]
    have hm : (lo ++ s.moved :: (hi ++ [t])).dropLast ++ [s.moved]=
        lo ++ s.moved :: (hi ++ [s.moved]) := by
      rw [← List.cons_append,← List.append_assoc,List.dropLast_concat,List.append_assoc,
        List.cons_append]
    have hp : (lo ++ t :: (hi ++ [s.moved])).dropLast=lo ++ t :: hi := by
      rw [← List.cons_append,← List.append_assoc,List.dropLast_concat]
    simp only [hl,hm,set_mid,hp,he,swapPop_mid]
    simp [store_setStore_of_ne h.symm]

/-- The operation took slab `s` out of store `x` and put it back, as `s'`, into store `y`. -/
structure Moves (c c' : Cache) (x y : Store) (s s' : Slab) : Prop where
  mem : s ∈ c.store x
  count : c'.count=c.count
  blockSize : c'.blockSize=c.blockSize
  others : ∃ rest, c.slabs.Perm (s :: rest) ∧ c'.slabs.Perm (s' :: rest) ∧
    ∀ z, ∀ t ∈ c'.store z, (z=y ∧ t=s') ∨ (t ∈ c.store z ∧ t ∈ rest)

/-- The slabs stay where they are in memory. -/
theorem Moves.extents {c c' : Cache} {x y : Store} {s s' : Slab} (hv : Moves c c' x y s s')
    (hr : s'.region=s.region) :
    (c'.slabs.map fun s => s.region.extent).Perm (c.slabs.map fun s => s.region.extent) := by
  obtain ⟨rest,hp,hp',_⟩ := hv.others
  have hnew := hp'.map fun s => s.region.extent
  have hold := hp.map fun s => s.region.extent
  rw [List.map_cons] at hnew hold
  exact (hr ▸ hnew).trans hold.symm

/-- Beside two stores there is a third, and no other. -/
theorem exists_third {x y : Store} (h : x ≠ y) :
    ∃ z, z ≠ x ∧ z ≠ y ∧ ∀ w, w=x ∨ w=y ∨ w=z := by
  cases x <;> cases y <;> first | exact absurd rfl h | skip
  · exact ⟨.slabsFull,by decide,by decide,by rintro (_ | _ | _) <;> simp⟩
  · exact ⟨.slabsPart,by decide,by decide,by rintro (_ | _ | _) <;> simp⟩
  · exact ⟨.slabsFull,by decide,by decide,by rintro (_ | _ | _) <;> simp⟩
  · exact ⟨.slabsFree,by decide,by decide,by rintro (_ | _ | _) <;> simp⟩
  · exact ⟨.slabsPart,by decide,by decide,by rintro (_ | _ | _) <;> simp⟩
  · exact ⟨.slabsFree,by decide,by decide,by rintro (_ | _ | _) <;> simp⟩

/-- Three different stores hold all slabs. -/
theorem slabs_perm {x y z : Store} (hxy : x ≠ y) (hzx : z ≠ x) (hzy : z ≠ y) (c : Cache) :
    c.slabs.Perm (c.store x ++ (c.store y ++ c.store z)) := by
  apply List.perm_iff_count.mpr
  intro s
  cases x <;> cases y <;> cases z <;>
    first
    | contradiction
    | simp only [slabs,store,List.count_append]; omega

/-- What `freeEmpty` leaves was there before. -/
theorem slabs_freeEmpty_sublist (c : Cache) : c.freeEmpty.slabs.Sublist c.slabs := by
  simp only [slabs,freeEmpty_slabsFree,freeEmpty_slabsPart,freeEmpty_slabsFull,List.nil_append,
    List.append_assoc]
  exact List.sublist_append_right _ _

theorem mem_slabs_of_freeEmpty {c : Cache} {s : Slab} (h : s ∈ c.freeEmpty.slabs) : s ∈ c.slabs :=
  c.slabs_freeEmpty_sublist.mem h

section Moves

variable {c c' : Cache} {x y : Store} {s s' : Slab} {rest : List Slab}

theorem Moves.of_ne (hxy : x ≠ y) (hx : (c.store x).Perm (s :: rest))
    (hx' : (c'.store x).Perm rest) (hy' : c'.store y=c.store y ++ [s'])
    (hz : ∀ z, z ≠ x → z ≠ y → c'.store z=c.store z)
    (hc : c'.count=c.count) (hb : c'.blockSize=c.blockSize) : Moves c c' x y s s' := by
  obtain ⟨w,hwx,hwy,hall⟩ := exists_third hxy
  have hperm := slabs_perm hxy hwx hwy
  have hw := hz w hwx hwy
  refine ⟨hx.mem_iff.mpr (by simp),hc,hb,rest ++ (c.store y ++ c.store w),?_,?_,?_⟩
  · exact (hperm c).trans (hx.append_right _)
  · refine (hperm c').trans ?_
    rw [hy',hw,List.append_assoc,List.singleton_append]
    refine (hx'.append_right _).trans ?_
    rw [← List.append_assoc,← List.append_assoc]
    exact List.perm_middle
  · intro z t ht
    rcases hall z with rfl | rfl | rfl
    · have hm := hx'.mem_iff.mp ht
      exact .inr ⟨hx.mem_iff.mpr (List.mem_cons_of_mem _ hm),List.mem_append_left _ hm⟩
    · rw [hy'] at ht
      rcases List.mem_append.mp ht with ht | ht
      · exact .inr ⟨ht,List.mem_append_right _ (List.mem_append_left _ ht)⟩
      · exact .inl ⟨rfl,List.mem_singleton.mp ht⟩
    · rw [hw] at ht
      exact .inr ⟨ht,List.mem_append_right _ (List.mem_append_right _ ht)⟩

theorem Moves.of_eq (hx : (c.store x).Perm (s :: rest)) (hx' : (c'.store x).Perm (s' :: rest))
    (hz : ∀ z, z ≠ x → c'.store z=c.store z)
    (hc : c'.count=c.count) (hb : c'.blockSize=c.blockSize) : Moves c c' x x s s' := by
  obtain ⟨y,hxy⟩ : ∃ y, x ≠ y := by
    cases x
    · exact ⟨.slabsPart,by decide⟩
    · exact ⟨.slabsFull,by decide⟩
    · exact ⟨.slabsFree,by decide⟩
  obtain ⟨w,hwx,hwy,hall⟩ := exists_third hxy
  have hperm := slabs_perm hxy hwx hwy
  have hy := hz y hxy.symm
  have hw := hz w hwx
  refine ⟨hx.mem_iff.mpr (by simp),hc,hb,rest ++ (c.store y ++ c.store w),?_,?_,?_⟩
  · exact (hperm c).trans (hx.append_right _)
  · refine (hperm c').trans ?_
    rw [hy,hw]
    exact hx'.append_right _
  · intro z t ht
    rcases hall z with rfl | rfl | rfl
    · rcases List.mem_cons.mp (hx'.mem_iff.mp ht) with rfl | hm
      · exact .inl ⟨rfl,rfl⟩
      · exact .inr ⟨hx.mem_iff.mpr (List.mem_cons_of_mem _ hm),List.mem_append_left _ hm⟩
    · rw [hy] at ht
      exact .inr ⟨ht,List.mem_append_right _ (List.mem_append_left _ ht)⟩
    · rw [hw] at ht
      exact .inr ⟨ht,List.mem_append_right _ (List.mem_append_right _ ht)⟩

theorem Moves.setSize (h : Moves c c' x y s s') (n : Nat) :
    Moves c { c' with mySize := n } x y s s' :=
  ⟨h.mem,h.count,h.blockSize,h.others⟩

variable {i : Nat} (s')

theorem assign_moves (hs : (c.store x)[i]?=some s) : Moves c (c.assign (x,i) s') x x s s' := by
  obtain ⟨lo,hi,he,rfl⟩ := eq_mid s hs
  refine Moves.of_eq (he ▸ List.perm_middle) ?_ (fun z hz => store_setStore_of_ne hz _ _)
    (setStore_count _ _ _) (setStore_blockSize _ _ _)
  simp only [assign,store_setStore,he,set_mid]
  exact List.perm_middle

/-- A slab is written to and then spliced away. -/
theorem splice_moves (hxy : x ≠ y) (hs : (c.store x)[i]?=some s) :
    ∃ c', (c.assign (x,i) s').splice y x (x,i)=some (c',(y,(c.store y).length)) ∧
      c'.mySize=c.mySize ∧ Moves c c' x y s s' := by
  obtain ⟨lo,hi,he,rfl⟩ := eq_mid s hs
  have hi' : ((c.assign (x,lo.length) s').store x)[lo.length]?=some s' := by
    simp [assign,he]
  have hy : (c.assign (x,lo.length) s').store y=c.store y := store_setStore_of_ne hxy.symm _ _
  have hp : (s' :: swapPop (lo ++ s' :: hi) lo.length).Perm (lo ++ s' :: hi) :=
    swapPop_perm (getElem?_mid lo hi s')
  refine ⟨_,hy ▸ splice_eq hxy hi',by simp [assign],?_⟩
  have hx : (c.store x).Perm (s :: (lo ++ hi)) := he ▸ List.perm_middle
  refine Moves.of_ne hxy hx ?_ ?_ ?_ (by simp [assign]) (by simp [assign])
  · simp only [store_setStore,assign,he,set_mid]
    exact (hp.trans List.perm_middle).cons_inv
  · rw [store_setStore_of_ne hxy.symm,store_setStore]
  · intro z hzx hzy
    rw [store_setStore_of_ne hzx,store_setStore_of_ne hzy]
    exact store_setStore_of_ne hzx _ _

/-- A slab is spliced away and then written to. -/
theorem splice_assign_moves (hxy : x ≠ y) (hs : (c.store x)[i]?=some s) :
    ∃ c₁ it, c.splice y x (x,i)=some (c₁,it) ∧ c₁.deref it=some s ∧ c₁.mySize=c.mySize ∧
      Moves c (c₁.assign it s') x y s s' := by
  have hp : (s :: swapPop (c.store x) i).Perm (c.store x) := swapPop_perm hs
  have hy : ((c.setStore (c.store y ++ [s]) y).setStore (swapPop (c.store x) i) x).store y=
      c.store y ++ [s] := by
    rw [store_setStore_of_ne hxy.symm,store_setStore]
  refine ⟨_,_,splice_eq hxy hs,?_,by simp,?_⟩
  · simp [deref,hy]
  · refine Moves.of_ne hxy hp.symm ?_ ?_ ?_ (by simp [assign]) (by simp [assign])
    · simp only [assign,store_setStore_of_ne hxy,store_setStore]
      exact .refl _
    · simp only [assign,hy,store_setStore]
      simp
    · intro z hzx hzy
      simp only [assign,store_setStore_of_ne hzx,store_setStore_of_ne hzy]

end Moves

section Operations

variable {c : Cache} {s : Slab} {ptr : Nat}

theorem searchStore_cases (c : Cache) (x : Store) (ptr : Nat) :
    (c.searchStore x ptr=none ∧ ∀ s ∈ c.store x, ¬ s.region.Contains ptr) ∨
    ∃ i s, c.searchStore x ptr=some (x,i) ∧ (c.store x)[i]?=some s ∧ s.region.Contains ptr := by
  cases h : (List.range (c.store x).length).reverse.find? fun i =>
      (c.store x)[i]?.any (fun slab => slab.containsMem ptr) with
  | none =>
    refine .inl ⟨by simp [searchStore,h],?_⟩
    intro s hs hc
    obtain ⟨i,hi,rfl⟩ := List.getElem_of_mem hs
    have hn := List.find?_eq_none.mp h i (by simpa using hi)
    rw [List.getElem?_eq_getElem hi] at hn
    exact hn (Slab.containsMem_iff.mpr hc)
  | some i =>
    have hf := List.find?_some h
    obtain ⟨s,hs,hc⟩ := (Option.any_eq_true _ _).mp hf
    exact .inr ⟨i,s,by simp [searchStore,h],hs,Slab.containsMem_iff.mp hc⟩

theorem deallocate_full {i : Nat} (hf : c.searchStore .slabsFull ptr=some (.slabsFull,i))
    (hs : (c.store .slabsFull)[i]?=some s) (he : (s.deallocate ptr).empty=false) :
    ∃ c', c.deallocate ptr=some c' ∧ c'.mySize=c.mySize-1 ∧
      Moves c c' .slabsFull .slabsPart s (s.deallocate ptr) := by
  obtain ⟨c₁,it,hsp,hd,hm,hv⟩ := splice_assign_moves (s.deallocate ptr)
    (show Store.slabsFull ≠ .slabsPart by decide) hs
  refine ⟨{ c₁.assign it (s.deallocate ptr) with mySize := c.mySize-1 },?_,rfl,hv.setSize _⟩
  simp [deallocate,hf,hsp,hd,he,assign,hm]

theorem deallocate_part {i : Nat} (hf : c.searchStore .slabsFull ptr=none)
    (hp : c.searchStore .slabsPart ptr=some (.slabsPart,i))
    (hs : (c.store .slabsPart)[i]?=some s) :
    ∃ c', c.deallocate ptr=some c' ∧ c'.mySize=c.mySize-1 ∧
      Moves c c' .slabsPart (if (s.deallocate ptr).empty then .slabsFree else .slabsPart) s
        (s.deallocate ptr) := by
  have hd : c.deref (.slabsPart,i)=some s := hs
  cases he : (s.deallocate ptr).empty with
  | true =>
    obtain ⟨c',hsp,hm,hv⟩ := splice_moves (s.deallocate ptr)
      (show Store.slabsPart ≠ .slabsFree by decide) hs
    refine ⟨{ c' with mySize := c.mySize-1 },?_,rfl,hv.setSize _⟩
    simp [deallocate,hf,hp,hd,he,hsp,hm]
  | false =>
    refine ⟨{ c.assign (.slabsPart,i) (s.deallocate ptr) with mySize := c.mySize-1 },?_,rfl,
      (assign_moves _ hs).setSize _⟩
    simp [deallocate,hf,hp,hd,he,assign]

variable (vecMap : VecMap) (mem : Nat)

/-- With neither a partial nor a free slab, `allocate` goes on as if the new one had been there. -/
theorem allocate_grow (hp : c.slabsPart=[]) (hf : c.slabsFree=[]) :
    c.allocate vecMap mem=(newSlab vecMap c mem).allocate vecMap mem := by
  have h1 : findFreeSlab vecMap c mem=(newSlab vecMap c mem,(.slabsFree,0)) := by
    simp [findFreeSlab,hp,hf]
  have h2 : findFreeSlab vecMap (newSlab vecMap c mem) mem=
      (newSlab vecMap c mem,(.slabsFree,0)) := by
    simp [findFreeSlab,newSlab,hp]
  simp only [allocate,h1,h2]

variable {rest : List Slab} {availible : List Nat} {idx : Nat}

theorem allocate_part (hp : c.slabsPart=s :: rest) (hs : s.availible=availible ++ [idx]) :
    ∃ c', c.allocate vecMap mem=some (c',s.region.block idx) ∧ c'.mySize=c.mySize+1 ∧
      Moves c c' .slabsPart (if availible=[] then .slabsFull else .slabsPart) s
        { s with availible := availible } := by
  have hfind : findFreeSlab vecMap c mem=(c,(.slabsPart,0)) := by simp [findFreeSlab,hp]
  have hd : c.deref (.slabsPart,0)=some s := by simp [deref,store,hp]
  by_cases he : availible=[]
  · obtain ⟨c',hsp,hm,hv⟩ := splice_moves { s with availible := availible }
      (show Store.slabsPart ≠ .slabsFull by decide) hd
    refine ⟨{ c' with mySize := c.mySize+1 },?_,rfl,?_⟩
    · simp only [he] at hsp hs
      simp [allocate,hfind,hd,Slab.allocate_concat hs,hsp,hm]
    · rw [if_pos he]
      exact hv.setSize _
  · refine ⟨{ c.assign (.slabsPart,0) { s with availible := availible } with
        mySize := c.mySize+1 },?_,rfl,?_⟩
    · simp [allocate,hfind,hd,Slab.allocate_concat hs,he,assign]
    · rw [if_neg he]
      exact (assign_moves _ hd).setSize _

theorem allocate_free (hp : c.slabsPart=[]) (hf : c.slabsFree=s :: rest)
    (hs : s.availible=availible ++ [idx]) (he : availible ≠ []) :
    ∃ c', c.allocate vecMap mem=some (c',s.region.block idx) ∧ c'.mySize=c.mySize+1 ∧
      Moves c c' .slabsFree .slabsPart s { s with availible := availible } := by
  have hfind : findFreeSlab vecMap c mem=(c,(.slabsFree,0)) := by simp [findFreeSlab,hp,hf]
  have hd : c.deref (.slabsFree,0)=some s := by simp [deref,store,hf]
  obtain ⟨c',hsp,hm,hv⟩ := splice_moves { s with availible := availible }
    (show Store.slabsFree ≠ .slabsPart by decide) hd
  refine ⟨{ c' with mySize := c.mySize+1 },?_,rfl,hv.setSize _⟩
  simp [allocate,hfind,hd,Slab.allocate_concat hs,hsp,he,hm]

end Operations

end Cache

theorem slabs_newSlab (vecMap : VecMap) (c : Cache) (mem : Nat) :
    (Cache.newSlab vecMap c mem).slabs.Perm
      (Slab.make vecMap mem c.blockSize c.count :: c.slabs) := by
  have hm : ((c.slabsFree ++ [Slab.make vecMap mem c.blockSize c.count]) ++
      (c.slabsPart ++ c.slabsFull)).Perm
      (Slab.make vecMap mem c.blockSize c.count :: (c.slabsFree ++ (c.slabsPart ++ c.slabsFull))) := by
    rw [List.append_assoc]
    exact List.perm_middle
  simpa only [Cache.slabs,Cache.newSlab,List.append_assoc] using hm

end Allocators.SlabImpl
