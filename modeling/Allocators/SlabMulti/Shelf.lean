import Allocators.SlabMulti.Search

/-! The parallel vectors of a cache as one list of rows, and what each function does to it. -/

namespace Allocators.SlabMulti

open Lib Vector

/-- A slab and the memory it manages. -/
abbrev Row := Nat × Slab

namespace Row

def region (r : Row) : Region := ⟨r.1,r.2.blockSize,r.2.count⟩

/-- All free indices, the owner's and those of other threads. -/
def free (r : Row) : List Nat := r.2.availible ++ r.2.foreigns

def give (r : Row) (ptr : Nat) (thisThread : Bool) : Row :=
  (r.1,r.2.deallocate ptr r.1 thisThread)

@[simp] theorem region_give (r : Row) (ptr : Nat) (b : Bool) : (r.give ptr b).region=r.region := by
  cases b <;> rfl

@[simp] theorem count_give (r : Row) (ptr : Nat) (b : Bool) : (r.give ptr b).2.count=r.2.count :=
  congrArg Region.count (r.region_give ptr b)

theorem free_give (r : Row) (ptr : Nat) (b : Bool) :
    (r.give ptr b).free.Perm (toIndexSizeT (r.region.index ptr) :: r.free) := by
  cases b with
  | true =>
    have h : (r.give ptr true).free=
        r.2.availible ++ toIndexSizeT (r.region.index ptr) :: r.2.foreigns := by
      simp [free,give,Slab.deallocate,region,Region.index]
    exact h ▸ List.perm_middle
  | false =>
    have h : (r.give ptr false).free=r.free ++ [toIndexSizeT (r.region.index ptr)] := by
      simp [free,give,Slab.deallocate,region,Region.index]
    exact h ▸ List.perm_append_singleton _ _

theorem length_give (r : Row) (ptr : Nat) (b : Bool) :
    (r.give ptr b).2.availible.length+(r.give ptr b).2.foreigns.length=r.free.length+1 := by
  rw [← List.length_append]
  exact (r.free_give ptr b).length_eq

end Row

/-- A cache whose two vectors have the same length and whose iterators agree. -/
structure Shelf where
  rows : List Row
  act : Nat
  mySize : Nat
  count : Nat
  blockSize : Nat

namespace Shelf

def cache (s : Shelf) : Cache where
  mySize := s.mySize
  myCapacity := s.count*s.rows.length
  count := s.count
  blockSize := s.blockSize
  threshold := s.count/4
  slabs := s.rows.map Prod.snd
  ptrs := s.rows.map Prod.fst
  actBlock := s.act
  actMem := s.act

/-- What the slabs of a cache look like. -/
def Shaped (s : Shelf) : Prop := ∀ r ∈ s.rows, r.2.blockSize=s.blockSize ∧ r.2.count=s.count

section Search

variable {c : Cache} (ptr : Nat)

/-- The search looks at every slab and finds one that has the pointer. -/
theorem search_cases (h : c.actMem < c.ptrs.length) :
    (Cache.search c ptr=some none ∧
      ∀ mem ∈ c.ptrs, Slab.containsMem ptr mem c.blockSize c.count=false) ∨
    ∃ i mem, Cache.search c ptr=some (some i) ∧ c.ptrs[i]?=some mem ∧
      Slab.containsMem ptr mem c.blockSize c.count=true := by
  rw [Cache.search_eq h]
  cases hf : (Scan.circular c.actMem c.ptrs.length).find? (c.hit ptr) with
  | none =>
    refine .inl ⟨rfl,?_⟩
    intro mem hm
    obtain ⟨j,hj⟩ := List.mem_iff_getElem?.mp hm
    have hlt := (Scan.mem_circular h.le).mpr (List.getElem?_eq_some_iff.mp hj).1
    have hmiss := List.find?_eq_none.mp hf j hlt
    exact Bool.eq_false_iff.mpr fun hc => hmiss (Cache.hit_eq_true.mpr ⟨mem,hj,hc⟩)
  | some i =>
    obtain ⟨mem,hp,hc⟩ := Cache.hit_eq_true.mp (List.find?_some hf)
    exact .inr ⟨i,mem,rfl,hp,hc⟩

end Search

theorem containsMem_iff {s : Shelf} (h : s.Shaped) {r : Row} (hr : r ∈ s.rows) {ptr : Nat} :
    Slab.containsMem ptr r.1 s.blockSize s.count=true ↔ r.region.Contains ptr := by
  obtain ⟨h1,h2⟩ := h r hr
  simp [Slab.containsMem,Row.region,Region.Contains,h1,h2]

section Positions

variable {s : Shelf} {lo hi : List Row} {r : Row}

theorem slabs_getElem? (h : s.rows=lo ++ r :: hi) : s.cache.slabs[lo.length]?=some r.2 := by
  simp [cache,h]

theorem ptrs_getElem? (h : s.rows=lo ++ r :: hi) : s.cache.ptrs[lo.length]?=some r.1 := by
  simp [cache,h]

theorem exists_ptr {i mem : Nat} (h : s.cache.ptrs[i]?=some mem) :
    ∃ r, s.rows[i]?=some r ∧ r.1=mem := by
  simpa [cache,List.getElem?_map] using h

/-- A slab and the memory at the same position are a row. -/
theorem exists_row {i mem : Nat} {slab : Slab} (hs : s.cache.slabs[i]?=some slab)
    (hp : s.cache.ptrs[i]?=some mem) : ∃ r, s.rows[i]?=some r ∧ r.2=slab ∧ r.1=mem := by
  obtain ⟨r,hr,hm⟩ := exists_ptr hp
  have hslab : r.2=slab := by simpa [cache,List.getElem?_map,hr] using hs
  exact ⟨r,hr,hslab,hm⟩

/-- Writing a slab is writing its row. -/
theorem set_slab (h : s.rows=lo ++ r :: hi) (slab : Slab) :
    s.cache.slabs.set lo.length slab=(lo ++ (r.1,slab) :: hi).map Prod.snd := by
  have hl : lo.length=(lo.map Prod.snd).length := by simp
  simp only [cache,h,List.map_append,List.map_cons]
  rw [hl,set_mid]

theorem ptrs_eq (h : s.rows=lo ++ r :: hi) (slab : Slab) :
    s.cache.ptrs=(lo ++ (r.1,slab) :: hi).map Prod.fst := by
  simp [cache,h]

end Positions

/-- What the shared half of `deallocate` does: nothing where no slab has the pointer, else one
row gets the index back and the decision is about its position. -/
theorem locate_cases {s : Shelf} (hs : s.Shaped) (hact : s.act < s.rows.length) (ptr : Nat)
    (thisThread : Bool) :
    (s.cache.locate ptr thisThread=some (s.cache,none) ∧
      ∀ r ∈ s.rows, ¬ r.region.Contains ptr) ∨
    ∃ lo r hi, s.rows=lo ++ r :: hi ∧ r.region.Contains ptr ∧
      s.cache.locate ptr thisThread=
        some ({ s with rows := lo ++ r.give ptr thisThread :: hi : Shelf}.cache,
          some (s.cache.decision lo.length (r.give ptr thisThread).2)) := by
  have ha : s.cache.actMem < s.cache.ptrs.length := by simpa [cache] using hact
  rcases search_cases ptr ha with ⟨he,hn⟩ | ⟨i,mem,he,hp,hc⟩
  · refine .inl ⟨by simp [Cache.locate,he],?_⟩
    intro r hr hc
    have hf := hn r.1 (List.mem_map_of_mem hr)
    rw [show s.cache.blockSize=s.blockSize from rfl,show s.cache.count=s.count from rfl,
      (containsMem_iff hs hr).mpr hc] at hf
    exact Bool.noConfusion hf
  · obtain ⟨r,hr,rfl⟩ := exists_ptr hp
    obtain ⟨lo,hi,hrows,rfl⟩ := eq_mid r hr
    have hm : r ∈ s.rows := by simp [hrows]
    refine .inr ⟨lo,r,hi,hrows,(containsMem_iff hs hm).mp hc,?_⟩
    have h1 := slabs_getElem? hrows
    have h2 := ptrs_getElem? hrows
    have h3 := set_slab hrows (r.2.deallocate ptr r.1 thisThread)
    have h4 := ptrs_eq hrows (r.2.deallocate ptr r.1 thisThread)
    simp only [Cache.locate,he,h1,h2,h3]
    refine congrArg some (Prod.ext ?_ ?_)
    · simp [cache,Row.give,hrows]
    · simp [Cache.decision,cache,Row.give,hrows]

section Rearrange

variable {s : Shelf} {it : Nat}

theorem rearrange_nothing (s : Shelf) :
    s.cache.rearrange .nothing=some { s with mySize := s.mySize-1 : Shelf }.cache := rfl

theorem rearrange_splice (h : s.act ≤ it) (hi : it < s.rows.length) :
    s.cache.rearrange (.splice it)=
      some { s with
        rows := moveBefore s.rows s.act it, act := s.act+1, mySize := s.mySize-1 : Shelf }.cache := by
  obtain ⟨x,hx⟩ : ∃ x, s.rows[it]?=some x := ⟨_,List.getElem?_eq_getElem hi⟩
  have hlen := (moveBefore_perm h hx).length_eq
  simp [Cache.rearrange,Cache.spliceBoth,cache,h,hi,map_moveBefore,hlen]

theorem rearrange_splice_none (h : it < s.act) : s.cache.rearrange (.splice it)=none := by
  have hn : ¬ s.act ≤ it := by omega
  simp [Cache.rearrange,Cache.spliceBoth,cache,hn]

theorem capacity_sub (s : Shelf) : s.count*s.rows.length-s.count=s.count*(s.rows.length-1) := by
  rw [Nat.mul_sub,Nat.mul_one]

theorem rearrange_behind (h : s.act < it) (hi : it < s.rows.length) :
    s.cache.rearrange (.toDispatch it)=
      some { s with rows := swapPop s.rows it, mySize := s.mySize-1 : Shelf }.cache := by
  obtain ⟨x,hx⟩ : ∃ x, s.rows[it]?=some x := ⟨_,List.getElem?_eq_getElem hi⟩
  have hne : it ≠ s.act := by omega
  simp [Cache.rearrange,Cache.memToDispatch,cache,h,hi,hne,map_dropLast_swapBack _ _ _ hx,
    length_swapPop hx,capacity_sub]

theorem rearrange_front (h : it < s.act) (hi : it < s.rows.length) :
    s.cache.rearrange (.toDispatch it)=
      some { s with
        rows := s.rows.eraseIdx it, act := s.act-1, mySize := s.mySize-1 : Shelf }.cache := by
  have hne : it ≠ s.act := by omega
  have hn : ¬ s.act < it := by omega
  simp [Cache.rearrange,Cache.memToDispatch,cache,hi,hne,hn,List.eraseIdx_map,
    List.length_eraseIdx_of_lt hi,capacity_sub]

theorem rearrange_active (h : s.act < s.rows.length) :
    s.cache.rearrange (.toDispatch s.act)=
      some { s with
        rows := swapPop s.rows s.act, act := s.rows.length-1-1,
        mySize := s.mySize-1 : Shelf }.cache := by
  obtain ⟨x,hx⟩ : ∃ x, s.rows[s.act]?=some x := ⟨_,List.getElem?_eq_getElem h⟩
  simp [Cache.rearrange,Cache.memToDispatch,cache,h,map_dropLast_swapBack _ _ _ hx,
    length_swapPop hx,capacity_sub]

end Rearrange

section Allocate

variable {δ : Type} [Dispatch δ] {s : Shelf} {lo hi : List Row} {r : Row} {availible : List Nat}
  {idx : Nat}

theorem active_slab (h : s.rows=lo ++ r :: hi) (ha : s.act=lo.length) :
    s.cache.slabs[s.cache.actBlock]?=some r.2 := by
  rw [show s.cache.actBlock=lo.length from ha]
  exact slabs_getElem? h

theorem active_ptr (h : s.rows=lo ++ r :: hi) (ha : s.act=lo.length) :
    s.cache.ptrs[s.cache.actMem]?=some r.1 := by
  rw [show s.cache.actMem=lo.length from ha]
  exact ptrs_getElem? h

/-- Writing the active slab of a cache is writing its row. -/
theorem with_slab (h : s.rows=lo ++ r :: hi) (ha : s.act=lo.length) (slab : Slab) :
    { s.cache with slabs := s.cache.slabs.set s.cache.actBlock slab }=
      { s with rows := lo ++ (r.1,slab) :: hi : Shelf }.cache := by
  rw [show s.cache.actBlock=lo.length from ha,set_slab h]
  simp [cache,h]

theorem allocate_empty (h : s.rows=lo ++ r :: hi) (ha : s.act=lo.length)
    (he : r.2.availible=[]) (d : δ) : s.cache.allocate d=none := by
  simp [Cache.allocate,active_slab h ha,active_ptr h ha,Slab.allocate,he]

/-- `allocate`, given what happens when the active slab may have to be left. -/
theorem allocate_of (h : s.rows=lo ++ r :: hi) (ha : s.act=lo.length)
    (he : r.2.availible=availible ++ [idx]) {d d' : δ} {c : Cache}
    (hp : (if availible.isEmpty then
        Cache.possiblyFull d
          { s with rows := lo ++ (r.1,{ r.2 with availible := availible }) :: hi : Shelf }.cache
      else some (d,
        { s with rows := lo ++ (r.1,{ r.2 with availible := availible }) :: hi : Shelf }.cache,
        true))=(some (d',c,true) : Option (δ × Cache × Bool))) :
    s.cache.allocate d=
      some (d',{ c with mySize := c.mySize+1 },some (r.1+idx*r.2.blockSize)) := by
  have hs : r.2.allocate r.1=
      some ({ r.2 with availible := availible },r.1+idx*r.2.blockSize,availible.isEmpty) := by
    simp [Slab.allocate,he]
  have hw := with_slab h ha { r.2 with availible := availible }
  simp only at hw hp
  simp only [Cache.allocate,active_slab h ha,active_ptr h ha,hs,hw,hp]

theorem allocate_stay (h : s.rows=lo ++ r :: hi) (ha : s.act=lo.length)
    (he : r.2.availible=availible ++ [idx]) (hne : availible ≠ []) (d : δ) :
    s.cache.allocate d=some (d,
      { s with
        rows := lo ++ (r.1,{ r.2 with availible := availible }) :: hi
        mySize := s.mySize+1 : Shelf }.cache,
      some (r.1+idx*r.2.blockSize)) := by
  have hb : ¬ availible.isEmpty=true := by simpa using hne
  exact allocate_of (d := d) h ha he (if_neg hb)

theorem allocate_merge (h : s.rows=lo ++ r :: hi) (ha : s.act=lo.length)
    (he : r.2.availible=[idx]) (hf : r.2.foreigns ≠ []) (d : δ) :
    s.cache.allocate d=some (d,
      { s with
        rows := lo ++ (r.1,{ r.2 with availible := r.2.foreigns, foreigns := [] }) :: hi
        mySize := s.mySize+1 : Shelf }.cache,
      some (r.1+idx*r.2.blockSize)) := by
  have he' : r.2.availible=[] ++ [idx] := he
  set t : Shelf := { s with rows := lo ++ (r.1,{ r.2 with availible := [] }) :: hi } with ht
  have hrow : t.rows=lo ++ (r.1,{ r.2 with availible := [] }) :: hi := rfl
  have hfull : Cache.possiblyFull d t.cache=
      some (d,{ t with
        rows := lo ++ (r.1,{ r.2 with availible := r.2.foreigns, foreigns := [] }) :: hi :
          Shelf }.cache,true) := by
    have hw := with_slab hrow ha { r.2 with availible := r.2.foreigns, foreigns := [] }
    simp only at hw
    simp [Cache.possiblyFull,active_slab hrow ha,Slab.full,Slab.mergeForeigns,hf,hw]
  exact allocate_of h ha he' hfull

theorem allocate_back (h : s.rows=lo ++ r :: hi) (ha : s.act=lo.length)
    (he : r.2.availible=[idx]) (hf : r.2.foreigns=[]) (hlo : lo ≠ []) (d : δ) :
    s.cache.allocate d=some (d,
      { s with
        rows := lo ++ (r.1,{ r.2 with availible := [] }) :: hi
        act := s.act-1
        mySize := s.mySize+1 : Shelf }.cache,
      some (r.1+idx*r.2.blockSize)) := by
  have he' : r.2.availible=[] ++ [idx] := he
  set t : Shelf := { s with rows := lo ++ (r.1,{ r.2 with availible := [] }) :: hi } with ht
  have hrow : t.rows=lo ++ (r.1,{ r.2 with availible := [] }) :: hi := rfl
  have h0 : t.cache.actBlock ≠ 0 := by simpa [cache,ht,ha] using hlo
  have hfull : Cache.possiblyFull d t.cache=
      some (d,{ t with act := t.act-1 : Shelf }.cache,true) := by
    simp [Cache.possiblyFull,active_slab hrow ha,Slab.full,hf,h0]
    rfl
  exact allocate_of h ha he' hfull

theorem allocate_grow (h : s.rows=r :: hi) (ha : s.act=0) (he : r.2.availible=[idx])
    (hf : r.2.foreigns=[]) {d d' : δ} {mem : Nat}
    (hi' : Dispatch.getIndicies d s.blockSize=some availible)
    (hb : Dispatch.getBlock d=(some mem,d')) :
    s.cache.allocate d=some (d',
      { s with
        rows := (mem,⟨s.blockSize,s.count,availible,[]⟩) ::
          (hi ++ [(r.1,{ r.2 with availible := [] })])
        mySize := s.mySize+1 : Shelf }.cache,
      some (r.1+idx*r.2.blockSize)) := by
  have he' : r.2.availible=[] ++ [idx] := he
  have h' : s.rows=[] ++ r :: hi := h
  set t : Shelf := { s with rows := [] ++ (r.1,{ r.2 with availible := [] }) :: hi } with ht
  have hrow : t.rows=[] ++ (r.1,{ r.2 with availible := [] }) :: hi := rfl
  have h0 : t.cache.actBlock=0 := ha
  have hbs : t.cache.blockSize=s.blockSize := rfl
  have hfull : Cache.possiblyFull d t.cache=
      some (d',{ t with
        rows := (mem,⟨s.blockSize,s.count,availible,[]⟩) ::
          (hi ++ [(r.1,{ r.2 with availible := [] })]) : Shelf }.cache,true) := by
    have hs := active_slab hrow ha
    rw [h0] at hs
    simp only [Cache.possiblyFull,h0,hs,Cache.addCache,hbs,hi',hb]
    simp [Slab.full,hf,cache,ht,ha,swapBack_front,Nat.mul_add]
  exact allocate_of h' ha he' hfull

/-- The exception of `getBlock` leaves `allocate`. -/
theorem allocate_exhausted (h : s.rows=r :: hi) (ha : s.act=0) (he : r.2.availible=[idx])
    (hf : r.2.foreigns=[]) {d d' : δ}
    (hi' : Dispatch.getIndicies d s.blockSize=some availible)
    (hb : Dispatch.getBlock d=(none,d')) : ∃ c, s.cache.allocate d=some (d',c,none) := by
  have h' : s.rows=[] ++ r :: hi := h
  set t : Shelf := { s with rows := [] ++ (r.1,{ r.2 with availible := [] }) :: hi } with ht
  have hrow : t.rows=[] ++ (r.1,{ r.2 with availible := [] }) :: hi := rfl
  have h0 : t.cache.actBlock=0 := ha
  have hbs : t.cache.blockSize=s.blockSize := rfl
  have hs : r.2.allocate r.1=
      some ({ r.2 with availible := [] },r.1+idx*r.2.blockSize,true) := by
    simp [Slab.allocate,he]
  have hw := with_slab h' ha { r.2 with availible := [] }
  simp only at hw
  rw [← ht] at hw
  obtain ⟨c,hfull⟩ : ∃ c, Cache.possiblyFull d t.cache=some (d',c,false) := by
    have hact := active_slab hrow ha
    rw [h0] at hact
    simp only [Cache.possiblyFull,h0,hact,Cache.addCache,hbs,hi',hb]
    simp [Slab.full,hf]
  refine ⟨c,?_⟩
  simp only [Cache.allocate,active_slab h' ha,active_ptr h' ha,hs,hw,hfull,if_true]

end Allocate

end Shelf

end Allocators.SlabMulti
