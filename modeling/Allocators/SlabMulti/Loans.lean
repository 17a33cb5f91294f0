import Allocators.SlabMulti.Buckets

/-! The blocks that any number of threads have from one `Interface`. -/

namespace Allocators.SlabMulti

open Lib Vector Extent

/-- A block handed out: its address, the thread that asked for it, and for how many objects of
which size. -/
structure Loan (T : Type) where
  ptr : Nat
  owner : T
  size : Nat
  n : Nat
  deriving DecidableEq

namespace Loan

variable {T : Type}

def bytes (e : Loan T) : Nat := e.size*e.n

/-- The cache that served it, or none for `operator new`. -/
def idx (e : Loan T) : Option Nat := findCacheIdx e.bytes

end Loan

/-- What `operator new` will return. -/
def Interface.supply {T : Type} (s : Interface T) (answers : List Nat) : Interface T :=
  { s with dispatcher := { s.dispatcher with heap :=
      { s.dispatcher.heap with answers := answers } } }

namespace Routing

variable {T : Type}

/-- The live blocks of one cache of a thread's bucket. -/
def liveOf [DecidableEq T] (live : List (Loan T)) (id : T) (k : Nat) : List Nat :=
  (live.filter fun e => decide (e.owner=id ∧ e.idx=some k)).map Loan.ptr

/-- The live blocks of `operator new`. -/
def large (live : List (Loan T)) : List Extent :=
  (live.filter fun e => decide (e.idx=none)).map fun e => (e.ptr,e.bytes)

/-- What `operator new` has served after a block was handed out. -/
def serving (e : Loan T) (served : List Extent) : List Extent :=
  if e.idx=none then (e.ptr,e.bytes) :: served else served

variable [DecidableEq T]

/-- The invariant: a bucket for each thread that has asked, caches that account for their blocks,
and memory that is nowhere shared. -/
structure Tidy (s : Interface T) (live : List (Loan T)) (served : List Extent) : Prop where
  keys : (s.buckets.map Prod.fst).Nodup
  owners : ∀ e ∈ live, e.owner ∈ s.buckets.map Prod.fst
  kept : ∀ x ∈ s.buckets, x.2.Keeps (liveOf live x.1)
  ledger : Ledger s.dispatcher.heap.granted (slabExtents s.dispatcher.blocks ++
    (slabExtents (s.buckets.flatMap fun x => x.2.ptrs) ++ large live))
  bounded : ∀ e ∈ live, e.bytes < 2^64
  returned : served.Perm (s.dispatcher.heap.deleted ++ large live)

section Lists

variable {live live' : List (Loan T)} {e : Loan T} {id : T} {k : Nat}

theorem liveOf_cons (e : Loan T) (live : List (Loan T)) (id : T) (k : Nat) :
    liveOf (e :: live) id k=
      if e.owner=id ∧ e.idx=some k then e.ptr :: liveOf live id k else liveOf live id k := by
  by_cases h : e.owner=id ∧ e.idx=some k
  · simp [liveOf,h]
  · rw [if_neg h,liveOf,List.filter_cons,if_neg (by simpa using h)]
    rfl

omit [DecidableEq T] in
theorem large_cons (e : Loan T) (live : List (Loan T)) :
    large (e :: live)=if e.idx=none then (e.ptr,e.bytes) :: large live else large live := by
  by_cases h : e.idx=none
  · simp [large,h]
  · rw [if_neg h,large,List.filter_cons,if_neg (by simpa using h)]
    rfl

theorem liveOf_perm (h : live.Perm live') (id : T) (k : Nat) :
    (liveOf live id k).Perm (liveOf live' id k) := (h.filter _).map _

omit [DecidableEq T] in
theorem large_perm (h : live.Perm live') : (large live).Perm (large live') := (h.filter _).map _

theorem mem_liveOf (hm : e ∈ live) (hk : e.idx=some k) : e.ptr ∈ liveOf live e.owner k := by
  refine List.mem_map_of_mem (List.mem_filter.mpr ⟨hm,?_⟩)
  exact decide_eq_true ⟨rfl,hk⟩

/-- What is left in the cache that served the block. -/
theorem liveOf_erase (hm : e ∈ live) (hk : e.idx=some k) :
    ((liveOf live e.owner k).erase e.ptr).Perm (liveOf (live.erase e) e.owner k) := by
  have h1 := liveOf_perm (List.perm_cons_erase hm) e.owner k
  rw [liveOf_cons,if_pos ⟨rfl,hk⟩] at h1
  exact ((List.perm_cons_erase (mem_liveOf hm hk)).symm.trans h1).cons_inv

theorem liveOf_erase_other (hm : e ∈ live) (hn : ¬ (e.owner=id ∧ e.idx=some k)) :
    (liveOf live id k).Perm (liveOf (live.erase e) id k) := by
  have h1 := liveOf_perm (List.perm_cons_erase hm) id k
  rwa [liveOf_cons,if_neg hn] at h1

theorem liveOf_nil (h : ∀ e ∈ live, e.owner ≠ id) (k : Nat) : liveOf live id k=[] := by
  rw [liveOf,List.map_eq_nil_iff,List.filter_eq_nil_iff]
  intro e he hx
  exact h e he (of_decide_eq_true hx).1

end Lists

section Keys

variable {cont lo hi : List (T × Bucket)} {id : T} {b : Bucket}

omit [DecidableEq T] in
/-- The bucket of a registered thread. -/
theorem exists_bucket (h : id ∈ cont.map Prod.fst) : ∃ lo b hi, cont=lo ++ (id,b) :: hi := by
  obtain ⟨x,hx,rfl⟩ := List.mem_map.mp h
  obtain ⟨lo,hi,rfl⟩ := List.append_of_mem hx
  exact ⟨lo,x.2,hi,rfl⟩

omit [DecidableEq T] in
/-- No other bucket has its key. -/
theorem key_ne (h : ((lo ++ (id,b) :: hi).map Prod.fst).Nodup) :
    ∀ x ∈ lo ++ hi, x.1 ≠ id := by
  have hp : ((lo ++ (id,b) :: hi).map Prod.fst).Perm (id :: (lo ++ hi).map Prod.fst) :=
    List.perm_middle.map Prod.fst
  have hn := (List.nodup_cons.mp (hp.nodup_iff.mp h)).1
  intro x hx he
  exact hn (he ▸ List.mem_map_of_mem hx)

end Keys

section Served

variable {s s' : Interface T} {live live' : List (Loan T)} {served : List Extent} {id o : T}
  {e : Loan T} {k size n ptr : Nat} {lo hi : List (T × Bucket)} {b b' : Bucket}

theorem exists_size {bytes : Nat} (h : findCacheIdx bytes=some k) :
    ∃ size, cacheSizes[k]?=some size := by
  obtain ⟨hlt,_⟩ := List.findIdx?_eq_some_iff_getElem.mp h
  exact ⟨_,List.getElem?_eq_getElem hlt⟩

/-- What no cache serves is larger than all their blocks. -/
theorem bytes_pos {bytes : Nat} (h : findCacheIdx bytes=none) : 0 < bytes := by
  have hmem : 64 ∈ cacheSizes := by decide
  have h64 := List.findIdx?_eq_none_iff.mp h 64 hmem
  have hle : ¬ bytes ≤ 64 := of_decide_eq_false h64
  omega

/-- The buckets still account for their blocks when one of them changed with its blocks. -/
theorem kept_mid (h : ∀ x ∈ lo ++ (o,b) :: hi, x.2.Keeps (liveOf live x.1))
    (hb : b'.Keeps (liveOf live' o))
    (hl : ∀ x ∈ lo ++ hi, ∀ k, (liveOf live x.1 k).Perm (liveOf live' x.1 k)) :
    ∀ x ∈ lo ++ (o,b') :: hi, x.2.Keeps (liveOf live' x.1) := by
  intro x hx
  rcases List.mem_cons.mp (List.perm_middle.mem_iff.mp hx) with rfl | hx
  · exact hb
  · have hold : x ∈ lo ++ (o,b) :: hi := List.perm_middle.mem_iff.mpr (List.mem_cons_of_mem _ hx)
    exact (h x hold).congr (hl x hx)

omit [DecidableEq T] in
/-- The slabs of one bucket and those of the others. -/
theorem slabs_mid (lo hi : List (T × Bucket)) (o : T) (b : Bucket) :
    (slabExtents ((lo ++ (o,b) :: hi).flatMap fun x => x.2.ptrs)).Perm
      (slabExtents b.ptrs ++ slabExtents ((lo ++ hi).flatMap fun x => x.2.ptrs)) := by
  have hx : (lo ++ hi).flatMap (fun x => x.2.ptrs)=
      lo.flatMap (fun x => x.2.ptrs) ++ hi.flatMap (fun x => x.2.ptrs) := List.flatMap_append
  rw [← slabExtents_append,hx]
  exact (flatMap_mid_perm lo hi (o,b) fun x => x.2.ptrs).map _

namespace Tidy

theorem supply (h : Tidy s live served) (answers : List Nat) :
    Tidy (s.supply answers) live served :=
  ⟨h.keys,h.owners,h.kept,h.ledger,h.bounded,h.returned⟩

/-- A thread that has no bucket gets one. -/
theorem registerThread (h : Tidy s live served) (hid : id ∉ s.buckets.map Prod.fst)
    (hr : s.registerThread id=some (s',true)) :
    Tidy s' live served ∧ s'.dispatcher.heap.deleted=s.dispatcher.heap.deleted ∧
      ∃ b, s'.buckets=s.buckets ++ [(id,b)] := by
  obtain ⟨_,_,_,⟨⟩⟩ | ⟨d,b,hm,rfl,_⟩ := Interface.registerThread_cases hr
  obtain ⟨hk,hled,hext⟩ := Bucket.make_keeps h.ledger hm
  have hno : ∀ e ∈ live, e.owner ≠ id := fun e he hx => hid (hx ▸ h.owners e he)
  refine ⟨⟨?_,?_,?_,?_,h.bounded,?_⟩,hext.deleted,b,rfl⟩
  · rw [List.map_append,List.nodup_append]
    refine ⟨h.keys,List.nodup_singleton _,?_⟩
    intro x hx y hy he
    obtain rfl : y=id := List.mem_singleton.mp hy
    exact hid (he ▸ hx)
  · intro e he
    rw [List.map_append]
    exact List.mem_append_left _ (h.owners e he)
  · intro x hx
    rcases List.mem_append.mp hx with hx | hx
    · exact h.kept x hx
    · obtain rfl := List.mem_singleton.mp hx
      apply hk.congr
      intro k
      rw [liveOf_nil hno]
  · refine hled.perm (List.Perm.append_left _ ?_)
    rw [← List.append_assoc]
    refine List.Perm.append_right _ ?_
    have hm := (slabs_mid s.buckets [] id b).symm
    rwa [List.append_nil] at hm
  · rw [hext.deleted]
    exact h.returned

/-- A block of a cache handed out. -/
theorem lend (h : Tidy s live served) (hs : s.buckets=lo ++ (id,b) :: hi)
    (hlt : size*n < 2^64) (hk : findCacheIdx (size*n)=some k) {d : GlobalDispatch}
    (ha : b.allocate s.dispatcher (some k) (size*n)=some (d,b',some ptr)) :
    0 < ptr ∧ Tidy ⟨d,lo ++ (id,b') :: hi⟩ (⟨ptr,id,size,n⟩ :: live) served := by
  obtain ⟨sz,hsz⟩ := exists_size hk
  have hidx : (Loan.mk ptr id size n).idx=some k := hk
  have hkept := hs ▸ h.kept
  have hb : b.Keeps (liveOf live id) := hkept (id,b) (by simp)
  have hmid := slabs_mid lo hi id b
  have hled := h.ledger
  rw [hs] at hled
  have hled' := hled.perm ((hmid.append_right _).append_left _)
  rw [List.append_assoc] at hled'
  obtain ⟨hbk,hpos,hl,hext⟩ := hb.allocate hsz hled' ha
  have hlarge : large (⟨ptr,id,size,n⟩ :: live)=large live := by
    rw [large_cons,if_neg (by rw [hidx]; simp)]
  have hkeys : (lo ++ (id,b') :: hi).map Prod.fst=s.buckets.map Prod.fst := by
    simp [hs]
  refine ⟨hpos,⟨hkeys ▸ h.keys,?_,?_,?_,?_,?_⟩⟩
  · intro e he
    simp only [hkeys]
    rcases List.mem_cons.mp he with rfl | he
    · simp [hs]
    · exact h.owners e he
  · refine kept_mid hkept (hbk.congr ?_) ?_
    · intro j
      rw [liveOf_cons]
      by_cases hj : j=k
      · subst hj
        rw [if_pos ⟨rfl,hidx⟩,Function.update_self]
      · rw [if_neg (by rw [hidx]; simp [Ne.symm hj]),Function.update_of_ne hj]
    · intro x hx j
      have hne := key_ne (hs ▸ h.keys) x hx
      rw [liveOf_cons,if_neg (by simp [Ne.symm hne])]
  · rw [hlarge]
    refine hl.perm (List.Perm.append_left _ ?_)
    rw [← List.append_assoc]
    exact (slabs_mid lo hi id b').symm.append_right _
  · intro e he
    rcases List.mem_cons.mp he with rfl | he
    · exact hlt
    · exact h.bounded e he
  · rw [hlarge,hext.deleted]
    exact h.returned

/-- Memory of `operator new` handed out. -/
theorem lend_large (h : Tidy s live served) (hid : id ∈ s.buckets.map Prod.fst)
    (hlt : size*n < 2^64) (hk : findCacheIdx (size*n)=none) {heap : Heap}
    (ha : s.dispatcher.heap.new (size*n)=some (ptr,heap)) :
    0 < ptr ∧ Tidy ⟨{ s.dispatcher with heap := heap },s.buckets⟩ (⟨ptr,id,size,n⟩ :: live)
      ((ptr,size*n) :: served) := by
  have hidx : (Loan.mk ptr id size n).idx=none := hk
  obtain ⟨hpos,hap,hg,hd⟩ := GlobalDispatch.new_cases ha
  have hlarge : large (⟨ptr,id,size,n⟩ :: live)=(ptr,size*n) :: large live := by
    rw [large_cons,if_pos hidx]
    rfl
  have hone : Tiled [((ptr,size*n) : Extent)] := by simp [Tiled]
  have hl := h.ledger.grant hpos hap hone fun c hc => by
    obtain rfl := List.mem_singleton.mp hc
    exact ⟨bytes_pos hk,le_rfl⟩
  refine ⟨hpos,⟨h.keys,?_,?_,?_,?_,?_⟩⟩
  · intro e he
    rcases List.mem_cons.mp he with rfl | he
    · exact hid
    · exact h.owners e he
  · intro x hx
    refine (h.kept x hx).congr ?_
    intro j
    rw [liveOf_cons,if_neg (by rw [hidx]; simp)]
  · rw [hlarge,hg]
    refine hl.perm ?_
    rw [List.singleton_append,← List.append_assoc,← List.append_assoc]
    exact List.perm_middle.symm
  · intro e he
    rcases List.mem_cons.mp he with rfl | he
    · exact hlt
    · exact h.bounded e he
  · rw [hlarge]
    change ((ptr,size*n) :: served).Perm (heap.deleted ++ (ptr,size*n) :: large live)
    rw [hd]
    exact (h.returned.cons _).trans List.perm_middle.symm

theorem findAlloc_missing (hid : id ∉ s.buckets.map Prod.fst) (idx : Option Nat) (bytes : Nat) :
    s.findAlloc id idx bytes=some (s,some 0) := by
  have hne : ∀ x ∈ s.buckets, x.1 ≠ id := fun x hx he => hid (he ▸ List.mem_map_of_mem hx)
  simp [Interface.findAlloc,SmpMap.findDo,SmpMap.find_end hne]

/-- A thread with a bucket is served from it. -/
theorem findAlloc (h : Tidy s live served) (hid : id ∈ s.buckets.map Prod.fst)
    (hlt : size*n < 2^64)
    (ha : s.findAlloc id (findCacheIdx (size*n)) (size*n)=some (s',some ptr)) :
    0 < ptr ∧ Tidy s' (⟨ptr,id,size,n⟩ :: live) (serving ⟨ptr,id,size,n⟩ served) := by
  obtain ⟨lo,b,hi,hs⟩ := exists_bucket hid
  have hlo : ∀ x ∈ lo, x.1 ≠ id := fun x hx =>
    key_ne (hs ▸ h.keys) x (List.mem_append_left _ hx)
  simp only [Interface.findAlloc,SmpMap.findDo,hs,SmpMap.find_mid hlo,getElem?_mid] at ha
  cases hk : findCacheIdx (size*n) with
  | some k =>
    rw [hk] at ha
    cases hb : b.allocate s.dispatcher (some k) (size*n) with
    | none => simp [hb] at ha
    | some x =>
      obtain ⟨d,b',mem⟩ := x
      simp only [hb,set_mid,Option.some.injEq,Prod.mk.injEq] at ha
      obtain ⟨rfl,rfl⟩ := ha
      have hidx : (Loan.mk ptr id size n).idx=some k := hk
      rw [serving,if_neg (by rw [hidx]; simp)]
      exact h.lend hs hlt hk hb
  | none =>
    rw [hk] at ha
    cases hn : s.dispatcher.heap.new (size*n) with
    | none => simp [Bucket.allocate,hn] at ha
    | some x =>
      obtain ⟨mem,heap⟩ := x
      simp only [Bucket.allocate,hn,set_mid,Option.some.injEq,Prod.mk.injEq] at ha
      obtain ⟨rfl,rfl⟩ := ha
      have hidx : (Loan.mk mem id size n).idx=none := hk
      rw [serving,if_pos hidx,← hs]
      exact h.lend_large hid hlt hk hn

/-- An `allocate` that returned a block. -/
theorem allocate (h : Tidy s live served) (hlt : size*n < 2^64)
    (ha : s.allocate id size n=some (s',some ptr)) :
    Tidy s' (⟨ptr,id,size,n⟩ :: live) (serving ⟨ptr,id,size,n⟩ served) := by
  have hbytes : toSizeT (size*n)=size*n := Nat.mod_eq_of_lt hlt
  have hcases := Interface.allocate_cases ha
  simp only [hbytes] at hcases
  rcases hcases with ⟨hf,hne⟩ | ⟨s₁,s₂,ok,hf,hr,hok⟩
  · by_cases hid : id ∈ s.buckets.map Prod.fst
    · exact (h.findAlloc hid hlt hf).2
    · rw [findAlloc_missing hid] at hf
      exact absurd (congrArg Prod.snd (Option.some.inj hf)).symm hne
  · by_cases hid : id ∈ s.buckets.map Prod.fst
    · exact absurd (h.findAlloc hid hlt hf).1 (Nat.lt_irrefl 0)
    · rw [findAlloc_missing hid] at hf
      obtain ⟨rfl,_⟩ := Prod.mk.inj (Option.some.inj hf)
      cases ok with
      | false => cases hok.2
      | true =>
        obtain ⟨ht,_,b,hb⟩ := h.registerThread hid hr
        exact (ht.findAlloc (by simp [hb]) hlt hok).2

end Tidy

end Served

end Routing

end Allocators.SlabMulti
