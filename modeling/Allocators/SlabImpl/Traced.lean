import Allocators.SlabImpl.Pool

/-! The operations of `Cache` once more, with every constructor and destructor call of a slab in
their vectors. Here an iterator is valid only for the store it was taken from. -/

namespace Allocators.SlabImpl

open Lib Vector

/-- A slab is constructed over new memory, or an object of type `Slab` is destroyed. -/
inductive Event
  | construct (slab : Slab)
  | destroy (slab : Slab)
  deriving DecidableEq, Repr

namespace Traced

/-- `emplace_back` of a slab. A vector that has to grow destroys the slabs it moved away from;
where it need not there is nothing to destroy. -/
def emplaceBack (v : List Slab) (slab : Slab) : List Slab × List Event :=
  (v ++ [slab],v.map fun s => .destroy s.moved)

def popBack (v : List Slab) : Option (List Slab × List Event) :=
  v.getLast?.map fun back => (v.dropLast,[.destroy back])

def clear (v : List Slab) : List Event := v.map .destroy

/-- `std::swap`: a move construction, two move assignments and the end of the temporary. -/
def swap (c : Cache) (x y : It) : Option (Cache × List Event) := do
  let tmp ← c.deref x
  let c := c.assign x tmp.moved
  let other ← c.deref y
  let c := (c.assign x other).assign y other.moved
  some (c.assign y tmp,[.destroy tmp.moved])

def splice (c : Cache) (dest source : Store) (it : It) : Option (Cache × It × List Event) :=
  if it.1 ≠ source then none
  else do
    let slab ← c.deref it
    let (slabs,e₁) := emplaceBack (c.store dest) slab
    let c := (c.setStore slabs dest).assign it slab.moved
    let (c,e₂) ← swap c it (source,(c.store source).length-1)
    let (slabs,e₃) ← popBack (c.store source)
    let c := c.setStore slabs source
    some (c,(dest,(c.store dest).length-1),e₁ ++ e₂ ++ e₃)

variable (vecMap : VecMap)

def newSlab (c : Cache) (mem : Nat) : Cache × List Event :=
  let slab := Slab.make vecMap mem c.blockSize c.count
  let (slabs,es) := emplaceBack c.slabsFree slab
  ({ c with slabsFree := slabs, myCapacity := toSizeT (c.myCapacity+c.count) },
    .construct slab :: es)

def make (mem blockSize count : Nat) : Cache × List Event :=
  newSlab vecMap ⟨count,blockSize,0,0,[],[],[]⟩ mem

def findFreeSlab (c : Cache) (mem : Nat) : Cache × It × List Event :=
  if c.slabsPart ≠ [] then (c,(.slabsPart,0),[])
  else if c.slabsFree=[] then
    let (c,es) := newSlab vecMap c mem
    (c,(.slabsFree,0),es)
  else (c,(.slabsFree,0),[])

def allocate (c : Cache) (mem : Nat) : Option (Cache × Nat × List Event) := do
  let (c,it,e₁) := findFreeSlab vecMap c mem
  let (slab,ptr,full) ← (← c.deref it).allocate
  let c := c.assign it slab
  let (c,e₂) ←
    if it.1=.slabsFree then (fun r => (r.1,r.2.2)) <$> splice c .slabsPart it.1 it else some (c,[])
  let (c,e₃) ← if full then (fun r => (r.1,r.2.2)) <$> splice c .slabsFull it.1 it else some (c,[])
  some ({ c with mySize := c.mySize+1 },ptr,e₁ ++ e₂ ++ e₃)

def deallocate (c : Cache) (ptr : Nat) : Option (Cache × List Event) := do
  let (c,store,it,e₁) ←
    match c.searchStore .slabsFull ptr with
    | some it =>
      (fun r => (r.1,Store.slabsFull,r.2.1,r.2.2)) <$> splice c .slabsPart .slabsFull it
    | none => (fun it => (c,Store.slabsPart,it,[])) <$> c.searchStore .slabsPart ptr
  let slab := (← c.deref it).deallocate ptr
  let c := c.assign it slab
  let (c,e₂) ←
    if slab.empty then (fun r => (r.1,r.2.2)) <$> splice c .slabsFree store it else some (c,[])
  some ({ c with mySize := c.mySize-1 },e₁ ++ e₂)

def freeAll (c : Cache) : Cache × List Event :=
  (c.freeAll,clear c.slabsFree ++ clear c.slabsPart ++ clear c.slabsFull)

def freeEmpty (c : Cache) : Cache × List Event := (c.freeEmpty,clear c.slabsFree)

end Traced

/-- Only moved-from slabs are destroyed. -/
def Silent (es : List Event) : Prop := ∀ e ∈ es, ∃ s : Slab, s.mem=0 ∧ e=.destroy s

theorem silent_nil : Silent [] := by simp [Silent]

theorem Silent.append {es fs : List Event} (he : Silent es) (hf : Silent fs) :
    Silent (es ++ fs) := List.forall_mem_append.mpr ⟨he,hf⟩

theorem silent_emplaceBack (v : List Slab) (slab : Slab) :
    Silent (Traced.emplaceBack v slab).2 := by
  intro e he
  obtain ⟨s,_,rfl⟩ := List.mem_map.mp he
  exact ⟨s.moved,rfl,rfl⟩

namespace Traced

section Splice

variable {c : Cache} {x y : Store}

/-- Two slabs of one vector change places; a slab swapped with itself stays as it is. -/
theorem swap_eq {i j : Nat} {s t : Slab} (hs : (c.store x)[i]?=some s)
    (ht : (c.store x)[j]?=some t) :
    swap c (x,i) (x,j)=
      some (c.setStore (((c.store x).set i t).set j s) x,[.destroy s.moved]) := by
  by_cases hij : i=j
  · subst hij
    have hst : s=t := Option.some.inj (hs.symm.trans ht)
    subst hst
    obtain ⟨lo,hi,he,rfl⟩ := eq_mid s hs
    simp [swap,Cache.deref,Cache.assign,he]
  · obtain ⟨hi,rfl⟩ := List.getElem?_eq_some_iff.mp hs
    have hj : ((c.store x).set i (c.store x)[i].moved)[j]?=some t := by
      rw [List.getElem?_set_ne hij]
      exact ht
    simp [swap,Cache.deref,Cache.assign,hi,hj]

/-- The slabs of the two stores end up where `Cache.splice` has them, and no slab that holds
memory is destroyed on the way. -/
theorem splice_eq (h : x ≠ y) {i : Nat} {s : Slab} (hs : (c.store x)[i]?=some s) :
    ∃ es, splice c y x (x,i)=(c.splice y x (x,i)).map (fun r => (r.1,r.2,es)) ∧ Silent es := by
  obtain ⟨lo,hi,he,rfl⟩ := eq_mid s hs
  set c₁ := (c.setStore (c.store y ++ [s]) y).assign (x,lo.length) s.moved with hc₁
  have hx : c₁.store x=lo ++ s.moved :: hi := by
    simp [hc₁,Cache.assign,Cache.store_setStore_of_ne h,he]
  have hmid : (c₁.store x)[lo.length]?=some s.moved := by
    rw [hx]
    exact getElem?_mid _ _ _
  obtain ⟨t,ht⟩ : ∃ t, (c₁.store x).getLast?=some t := by
    cases hl : (c₁.store x).getLast? with
    | none => simp [hx] at hl
    | some t => exact ⟨t,rfl⟩
  have hback : swapBack (c₁.store x) lo.length=
      ((c₁.store x).set lo.length t).set ((c₁.store x).length-1) s.moved := by
    simp only [swapBack,hmid,ht]
  have hsw := swap_eq hmid (ht ▸ List.getLast?_eq_getElem?.symm)
  rw [← hback] at hsw
  have hpop : popBack (swapBack (c₁.store x) lo.length)=
      some (swapPop (c.store x) lo.length,[.destroy s.moved]) := by
    rw [popBack,getLast?_swapBack hmid,dropLast_swapBack hmid,hx,he,swapPop_congr s.moved s]
    rfl
  have hd : c.deref (x,lo.length)=some s := hs
  have hfinal : (c₁.setStore (swapBack (c₁.store x) lo.length) x).setStore
      (swapPop (c.store x) lo.length) x=
      (c.setStore (c.store y ++ [s]) y).setStore (swapPop (c.store x) lo.length) x := by
    simp [hc₁,Cache.assign]
  rw [Cache.splice_eq h hs]
  have hend (z : Slab) : Silent [.destroy z.moved] :=
    List.forall_mem_singleton.mpr ⟨z.moved,rfl,rfl⟩
  refine ⟨(emplaceBack (c.store y) s).2 ++ [.destroy s.moved.moved] ++ [.destroy s.moved],?_,
    ((silent_emplaceBack _ _).append (hend _)).append (hend _)⟩
  simp only [splice,ne_eq,not_true_eq_false,if_false,hd,Option.bind_eq_bind,Option.bind_some,
    emplaceBack,← hc₁,hsw,Cache.store_setStore,hpop,hfinal]
  simp [Cache.store_setStore_of_ne h.symm]

end Splice

section Operations

variable {c : Cache} {s : Slab} {rest : List Slab} {availible : List Nat} {idx ptr : Nat}
variable (vecMap : VecMap) (mem : Nat)

theorem deref_assign {it : It} (hd : c.deref it=some s) (s' : Slab) :
    (c.assign it s').deref it=some s' := by
  obtain ⟨lo,hi,he,hi'⟩ := eq_mid s hd
  simp only [Cache.deref,Cache.assign,Cache.store_setStore,he,← hi',set_mid,getElem?_mid]

theorem allocate_part (hp : c.slabsPart=s :: rest) (hs : s.availible=availible ++ [idx]) :
    ∃ es, allocate vecMap c mem=(c.allocate vecMap mem).map (fun r => (r.1,r.2,es)) ∧
      Silent es := by
  have hfind : Cache.findFreeSlab vecMap c mem=(c,(.slabsPart,0)) := by
    simp [Cache.findFreeSlab,hp]
  have hfind' : findFreeSlab vecMap c mem=(c,(.slabsPart,0),[]) := by simp [findFreeSlab,hp]
  have hd : c.deref (.slabsPart,0)=some s := by simp [Cache.deref,Cache.store,hp]
  cases he : availible.isEmpty with
  | true =>
    obtain ⟨es,hes,hsil⟩ := splice_eq (show Store.slabsPart ≠ .slabsFull by decide)
      (deref_assign hd { s with availible := availible })
    refine ⟨es,?_,hsil⟩
    simp [allocate,Cache.allocate,hfind,hfind',hd,Slab.allocate_concat hs,hes,he]
    rw [Option.bind_map,Option.bind_map]
    rfl
  | false =>
    refine ⟨[],?_,silent_nil⟩
    simp [allocate,Cache.allocate,hfind,hfind',hd,Slab.allocate_concat hs,he]

theorem allocate_free (hp : c.slabsPart=[]) (hf : c.slabsFree=s :: rest)
    (hs : s.availible=availible ++ [idx]) (he : availible ≠ []) :
    ∃ es, allocate vecMap c mem=(c.allocate vecMap mem).map (fun r => (r.1,r.2,es)) ∧
      Silent es := by
  have hfind : Cache.findFreeSlab vecMap c mem=(c,(.slabsFree,0)) := by
    simp [Cache.findFreeSlab,hp,hf]
  have hfind' : findFreeSlab vecMap c mem=(c,(.slabsFree,0),[]) := by
    simp [findFreeSlab,hp,hf]
  have hd : c.deref (.slabsFree,0)=some s := by simp [Cache.deref,Cache.store,hf]
  have he' : availible.isEmpty=false := by simpa using he
  obtain ⟨es,hes,hsil⟩ := splice_eq (show Store.slabsFree ≠ .slabsPart by decide)
    (deref_assign hd { s with availible := availible })
  refine ⟨es,?_,hsil⟩
  simp [allocate,Cache.allocate,hfind,hfind',hd,Slab.allocate_concat hs,hes,he']
  rw [Option.bind_map,Option.bind_map]
  rfl

/-- The only slab constructed is the new one. -/
theorem allocate_grow (hp : c.slabsPart=[]) (hf : c.slabsFree=[]) :
    allocate vecMap c mem=
      (allocate vecMap (Cache.newSlab vecMap c mem) mem).map fun r =>
        (r.1,r.2.1,.construct (Slab.make vecMap mem c.blockSize c.count) :: r.2.2) := by
  have h1 : findFreeSlab vecMap c mem=(Cache.newSlab vecMap c mem,(.slabsFree,0),
      [.construct (Slab.make vecMap mem c.blockSize c.count)]) := by
    simp [findFreeSlab,newSlab,Cache.newSlab,emplaceBack,hp,hf]
  have h2 : findFreeSlab vecMap (Cache.newSlab vecMap c mem) mem=
      (Cache.newSlab vecMap c mem,(.slabsFree,0),[]) := by
    simp [findFreeSlab,Cache.newSlab,hp]
  simp only [allocate,h1,h2,if_true,Option.bind_eq_bind]
  cases (Cache.newSlab vecMap c mem).deref (.slabsFree,0) with
  | none => rfl
  | some slab =>
    simp only [Option.bind_some]
    cases slab.allocate with
    | none => rfl
    | some r =>
      simp only [Option.bind_some]
      cases splice ((Cache.newSlab vecMap c mem).assign (.slabsFree,0) r.1) .slabsPart .slabsFree
        (.slabsFree,0) with
      | none => rfl
      | some q =>
        cases hr : r.2.2 with
        | false => rfl
        | true =>
          simp only [if_true,Option.map_eq_map,Option.map_some,Option.bind_some]
          cases splice q.1 .slabsFull .slabsFree (.slabsFree,0) with
          | none => rfl
          | some _ => rfl

/-- The slab that holds the pointer is not empty after one block came back to a full slab. -/
theorem deallocate_full {i : Nat} (hf : c.searchStore .slabsFull ptr=some (.slabsFull,i))
    (hs : (c.store .slabsFull)[i]?=some s) (he : (s.deallocate ptr).empty=false) :
    ∃ es, deallocate c ptr=(c.deallocate ptr).map (fun c' => (c',es)) ∧ Silent es := by
  obtain ⟨es,hes,hsil⟩ := splice_eq (show Store.slabsFull ≠ .slabsPart by decide) hs
  obtain ⟨c₁,it,hsp,hd,_,_⟩ := Cache.splice_assign_moves (s.deallocate ptr)
    (show Store.slabsFull ≠ .slabsPart by decide) hs
  refine ⟨es,?_,hsil⟩
  rw [hsp] at hes
  simp [deallocate,Cache.deallocate,hf,hes,hsp,hd,he]

theorem deallocate_part {i : Nat} (hf : c.searchStore .slabsFull ptr=none)
    (hp : c.searchStore .slabsPart ptr=some (.slabsPart,i))
    (hs : (c.store .slabsPart)[i]?=some s) :
    ∃ es, deallocate c ptr=(c.deallocate ptr).map (fun c' => (c',es)) ∧ Silent es := by
  have hd : c.deref (.slabsPart,i)=some s := hs
  cases he : (s.deallocate ptr).empty with
  | true =>
    obtain ⟨es,hes,hsil⟩ := splice_eq (show Store.slabsPart ≠ .slabsFree by decide)
      (deref_assign hd (s.deallocate ptr))
    refine ⟨es,?_,hsil⟩
    simp [deallocate,Cache.deallocate,hf,hp,hd,he,hes]
    rw [Option.bind_map,Option.bind_map]
    rfl
  | false =>
    refine ⟨[],?_,silent_nil⟩
    simp [deallocate,Cache.deallocate,hf,hp,hd,he]

end Operations

end Traced

end Allocators.SlabImpl
