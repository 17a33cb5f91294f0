import Allocators.SlabMulti.Safety

/-! Threads whose `allocate` and `deallocate` overlap: between what one of them does under the lock
of the map others may do the same. What a thread does in one `findDo` or in one bucket of `iterate` is
one step here, although the lock it holds is a shared one. -/

namespace Allocators.SlabMulti

open Lib Vector Extent

/-- Where a thread is in a call. `next` is what an `allocate` tries again after `registerThread`,
`registered` what `deallocate` has found out, and `i` the bucket `iterate` looks at next. -/
inductive Phase (T : Type)
  | idle
  | finding (size count : Nat)
  | building (next : Option (Nat × Nat))
  | emplacing (b : Bucket) (next : Option (Nat × Nat))
  | retrying (size count : Nat)
  | freeing (e : Loan T)
  | seeking (e : Loan T) (registered : Bool)
  | searching (e : Loan T) (registered : Bool) (i : Nat)

/-- Where a call goes on after `registerThread`. -/
def Phase.after {T : Type} : Option (Nat × Nat) → Phase T
  | some (size,count) => .retrying size count
  | none => .idle

/-- The allocator with its threads, for sections that are one step each: a `findDo`, one bucket of
`iterate`, the constructor of a `Bucket`. `made` are the buckets that are not in the map yet,
`readers` the threads that hold the lock of the map in `iterate`. A block leaves `live` when its
`deallocate` begins; `lost` are the blocks no bucket took. -/
structure Crowd (T : Type) where
  dispatcher : GlobalDispatch
  buckets : List (T × Bucket)
  made : List (T × Bucket)
  readers : List T
  phase : T → Phase T
  live : List (Loan T)
  leaving : List (Loan T)
  lost : List (Loan T)
  served : List Extent

/-- What a thread does: it begins a call, or takes the next step of the one it is in, with what
`operator new` returns during it. -/
inductive Move (T : Type)
  | allocate (size count : Nat)
  | deallocate (e : Loan T)
  | advance (answers : List Nat)

namespace Crowd

variable {T : Type} [DecidableEq T]

omit [DecidableEq T] in
def interface (w : Crowd T) : Interface T := ⟨w.dispatcher,w.buckets⟩

omit [DecidableEq T] in
def put (w : Crowd T) (s : Interface T) : Crowd T :=
  { w with dispatcher := s.dispatcher, buckets := s.buckets }

def goto (w : Crowd T) (id : T) (p : Phase T) : Crowd T :=
  { w with phase := Function.update w.phase id p }

/-- `allocate` returns. -/
def handOut (w : Crowd T) (id : T) (e : Loan T) : Crowd T :=
  { w with live := e :: w.live, served := Routing.serving e w.served }.goto id .idle

/-- `deallocate` is done with the block; it still registers a thread without a bucket. -/
def handBack (w : Crowd T) (id : T) (e : Loan T) (registered : Bool) : Crowd T :=
  { w with leaving := w.leaving.erase e, readers := w.readers.erase id }.goto id
    (if registered then .idle else .building none)

/-- The next step of a thread. A call that throws has none, nor has one that runs into undefined
behaviour, as an `allocate` that pops an empty list. -/
def advance (w : Crowd T) (id : T) : Option (Crowd T) :=
  match w.phase id with
  | .idle => none
  | .finding size count =>
    let bytes := toSizeT (size*count)
    match w.interface.findAlloc id (findCacheIdx bytes) bytes with
    | some (s,some mem) =>
      if mem ≠ 0 then some ((w.put s).handOut id ⟨mem,id,size,count⟩)
      else some ((w.put s).goto id (.building (some (size,count))))
    | _ => none
  | .building next =>
    match Bucket.make w.dispatcher with
    | some (d,some b) =>
      some ({ w with dispatcher := d, made := w.made ++ [(id,b)] }.goto id (.emplacing b next))
    | _ => none
  | .emplacing b next =>
    -- the lock is exclusive
    if w.readers=[] then
      some ({ w with
        buckets := SmpMap.emplace w.buckets id b
        made := w.made.erase (id,b) }.goto id (.after next))
    else none
  | .retrying size count =>
    let bytes := toSizeT (size*count)
    match w.interface.findAlloc id (findCacheIdx bytes) bytes with
    | some (s,some mem) => some ((w.put s).handOut id ⟨mem,id,size,count⟩)
    | _ => none
  | .freeing e =>
    let bytes := toSizeT (e.size*e.n)
    match w.interface.findDealloc id e.ptr (findCacheIdx bytes) bytes with
    | none => none
    | some (s,true,registered) => some ((w.put s).handBack id e registered)
    | some (s,false,registered) => some ((w.put s).goto id (.seeking e registered))
  | .seeking e registered =>
    some ({ w with readers := id :: w.readers }.goto id (.searching e registered 0))
  | .searching e registered i =>
    let bytes := toSizeT (e.size*e.n)
    match w.buckets[i]? with
    | none => some ({ w with lost := e :: w.lost }.handBack id e registered)
    | some pair =>
      match Interface.deallocElsewhere id e.ptr (findCacheIdx bytes) bytes (w.dispatcher,false)
        pair with
      | none => none
      | some ((d,_),pair,stop) =>
        let w := w.put ⟨d,w.buckets.set i pair⟩
        if stop then some (w.handBack id e registered)
        else some (w.goto id (.searching e registered (i+1)))

local instance lawfulLoan : LawfulBEq (Loan T) := inferInstance

def next (w : Crowd T) : T × Move T → Option (Crowd T)
  | (id,.allocate size count) =>
    match w.phase id with
    | .idle => if size*count < 2^64 then some (w.goto id (.finding size count)) else none
    | _ => none
  | (id,.deallocate e) =>
    match w.phase id with
    | .idle =>
      if e ∈ w.live then
        some ({ w with live := w.live.erase e, leaving := e :: w.leaving }.goto id (.freeing e))
      else none
    | _ => none
  | (id,.advance answers) => (w.put (w.interface.supply answers)).advance id

def machine (T : Type) [DecidableEq T] : Machine (Crowd T) (T × Move T) where
  start w := ∃ answers d, GlobalDispatch.make ⟨answers,[],[]⟩=(d,true) ∧
    w=⟨d,[],[],[],fun _ => .idle,[],[],[],[]⟩
  next := next

end Crowd

namespace Routing

namespace Secure

variable {T : Type} [DecidableEq T] {s s' : Interface T} {d d' : GlobalDispatch}
  {buckets buckets' made : List (T × Bucket)} {live : List (Loan T)} {served : List Extent}
  {e : Loan T} {id : T} {size n i ptr : Nat} {mem : Option Nat}

/-- `allocate` in the bucket of the thread, while others have made theirs. -/
theorem findAlloc (h : Secure ⟨s.dispatcher,s.buckets ++ made⟩ live served)
    (hlt : size*n < 2^64)
    (ha : s.findAlloc id (findCacheIdx (size*n)) (size*n)=some (s',some ptr)) :
    (id ∉ s.buckets.map Prod.fst ∧ s'=s ∧ ptr=0) ∨
    (id ∈ s.buckets.map Prod.fst ∧ 0 < ptr ∧ s'.buckets.map Prod.fst=s.buckets.map Prod.fst ∧
      Secure ⟨s'.dispatcher,s'.buckets ++ made⟩ (⟨ptr,id,size,n⟩ :: live)
        (serving ⟨ptr,id,size,n⟩ served)) := by
  by_cases hid : id ∈ s.buckets.map Prod.fst
  · refine .inr ⟨hid,?_⟩
    obtain ⟨lo,b,hi,hs⟩ := exists_bucket hid
    have hall : s.buckets ++ made=lo ++ (id,b) :: (hi ++ made) := by simp [hs]
    have hlo : ∀ x ∈ lo, x.1 ≠ id := fun x hx =>
      key_ne (hall ▸ h.keys) x (List.mem_append_left _ hx)
    simp only [Interface.findAlloc,SmpMap.findDo,hs,SmpMap.find_mid hlo,getElem?_mid] at ha
    cases hk : findCacheIdx (size*n) with
    | some k =>
      rw [hk] at ha
      cases hb : b.allocate s.dispatcher (some k) (size*n) with
      | none => simp [hb] at ha
      | some x =>
        obtain ⟨d,b',mem⟩ := x
        simp only [hb,set_mid,Option.some.injEq,Prod.mk.injEq] at ha
        obtain ⟨rfl,rfl⟩ := ha
        have hidx : (Loan.mk ptr id size n).idx=some k := hk
        obtain ⟨hpos,hsec⟩ := h.lend hall hlt hk hb
        rw [serving,if_neg (by simp [hidx])]
        exact ⟨hpos,by simp [hs],by simpa using hsec⟩
    | none =>
      rw [hk] at ha
      cases hn : s.dispatcher.heap.new (size*n) with
      | none => simp [Bucket.allocate,hn] at ha
      | some x =>
        obtain ⟨mem,heap⟩ := x
        simp only [Bucket.allocate,hn,set_mid,Option.some.injEq,Prod.mk.injEq] at ha
        obtain ⟨rfl,rfl⟩ := ha
        have hidx : (Loan.mk mem id size n).idx=none := hk
        have hmem : id ∈ (s.buckets ++ made).map Prod.fst := by simp [hs]
        obtain ⟨hpos,hsec⟩ := h.lend_large hmem hlt hk hn
        rw [serving,if_pos hidx]
        exact ⟨hpos,by simp [hs],hs ▸ hsec⟩
  · rw [Tidy.findAlloc_missing hid] at ha
    obtain ⟨rfl,hx⟩ := Prod.mk.inj (Option.some.inj ha)
    exact .inl ⟨hid,rfl,(Option.some.inj hx).symm⟩

/-- What one bucket does with a live block: its owner takes it, as does any for memory of
`operator new`; the others leave it. -/
theorem bucket (h : Secure ⟨d,buckets⟩ live served) (hm : e ∈ live) {lo hi : List (T × Bucket)}
    {o : T} {b : Bucket} (hs : buckets=lo ++ (o,b) :: hi) (own : Bool) :
    (e.idx ≠ none ∧ e.owner ≠ o ∧ b.deallocate d e.ptr e.idx e.bytes own=some (d,b,false)) ∨
    ((e.idx=none ∨ e.owner=o) ∧ ∃ d' b', b.deallocate d e.ptr e.idx e.bytes own=some (d',b',true) ∧
      Secure ⟨d',lo ++ (o,b') :: hi⟩ (live.erase e) served) := by
  cases hk : e.idx with
  | none =>
    refine .inr ⟨.inl rfl,_,b,rfl,?_⟩
    exact hs ▸ h.give_large hm hk
  | some k =>
    by_cases ho : e.owner=o
    · subst ho
      obtain ⟨size,hsz⟩ := exists_size hk
      have hb : b.Keeps (liveOf live e.owner) := h.kept (e.owner,b) (by simp [hs])
      obtain ⟨c,c',_,hd,hkeeps,hsub,_⟩ := hb.deallocate hsz (mem_liveOf hm hk) d e.bytes own
      exact .inr ⟨.inr rfl,d,_,hd,h.give hm hk hs hkeeps hsub⟩
    · refine .inl ⟨by simp,ho,?_⟩
      obtain ⟨lo',b',hi',hs'⟩ := exists_bucket (h.owners e hm)
      have hmem : (o,b) ∈ lo' ++ hi' := by
        have hx : (o,b) ∈ lo' ++ (e.owner,b') :: hi' := hs' ▸ hs ▸ by simp
        rcases List.mem_cons.mp (List.perm_middle.mem_iff.mp hx) with he | hx
        · exact absurd (congrArg Prod.fst he).symm ho
        · exact hx
      exact h.toTidy.elsewhere hm hk hs' hmem d e.bytes own

/-- `deallocate` in the bucket of the thread. -/
theorem findDealloc (h : Secure ⟨s.dispatcher,s.buckets ++ made⟩ live served) (hm : e ∈ live)
    (ho : e.owner ∈ s.buckets.map Prod.fst) (id : T) :
    ∃ s' found, s.findDealloc id e.ptr e.idx e.bytes=
        some (s',found,decide (id ∈ s.buckets.map Prod.fst)) ∧
      (found=false ∧ s'=s ∧ e.owner ≠ id ∨
      found=true ∧ id ∈ s.buckets.map Prod.fst ∧
        s'.buckets.map Prod.fst=s.buckets.map Prod.fst ∧
        Secure ⟨s'.dispatcher,s'.buckets ++ made⟩ (live.erase e) served) := by
  by_cases hid : id ∈ s.buckets.map Prod.fst
  · obtain ⟨lo,b,hi,hs⟩ := exists_bucket hid
    have hall : s.buckets ++ made=lo ++ (id,b) :: (hi ++ made) := by simp [hs]
    have hlo : ∀ x ∈ lo, x.1 ≠ id := fun x hx =>
      key_ne (hall ▸ h.keys) x (List.mem_append_left _ hx)
    simp only [Interface.findDealloc,SmpMap.findDo,hid,decide_true]
    rw [hs,SmpMap.find_mid hlo,getElem?_mid]
    rcases h.bucket hm hall true with ⟨_,hne,hd⟩ | ⟨_,d',b',hd,hsec⟩
    · refine ⟨s,false,?_,.inl ⟨rfl,rfl,hne⟩⟩
      simp only [hd,set_mid]
      rw [← hs]
    · refine ⟨⟨d',lo ++ (id,b') :: hi⟩,true,?_,.inr ⟨rfl,?_,?_,?_⟩⟩
      · simp only [hd,set_mid]
      · simp
      · simp
      · simpa using hsec
  · have hne : ∀ x ∈ s.buckets, x.1 ≠ id := fun x hx he => hid (he ▸ List.mem_map_of_mem hx)
    refine ⟨s,false,?_,.inl ⟨rfl,rfl,fun heq => hid (heq ▸ ho)⟩⟩
    simp [Interface.findDealloc,SmpMap.findDo,SmpMap.find_end hne,hid]

/-- `iterate` at one bucket, on a thread that is not the owner of the block. -/
theorem deallocElsewhere (h : Secure ⟨d,buckets ++ made⟩ live served) (hm : e ∈ live)
    (hid : e.owner ≠ id) (ho : e.owner ∈ (buckets.map Prod.fst).drop i) :
    ∃ pair d' pair' stop, buckets[i]?=some pair ∧
      Interface.deallocElsewhere id e.ptr e.idx e.bytes (d,false) pair=
        some ((d',stop),pair',stop) ∧
      (buckets.set i pair').map Prod.fst=buckets.map Prod.fst ∧
      (stop=false ∧ d'=d ∧ buckets.set i pair'=buckets ∧
          e.owner ∈ (buckets.map Prod.fst).drop (i+1) ∨
        stop=true ∧ Secure ⟨d',buckets.set i pair' ++ made⟩ (live.erase e) served) := by
  have hlt : i < buckets.length := by
    by_contra hge
    rw [List.drop_eq_nil_of_le (by simpa using hge)] at ho
    exact List.not_mem_nil ho
  obtain ⟨⟨o,b⟩,hp⟩ : ∃ x, buckets[i]?=some x := ⟨_,List.getElem?_eq_getElem hlt⟩
  obtain ⟨lo,hi,rfl,rfl⟩ := eq_mid _ hp
  have hmap : ((lo ++ (o,b) :: hi).map Prod.fst).drop lo.length=o :: hi.map Prod.fst := by
    simp
  have hmap' : ((lo ++ (o,b) :: hi).map Prod.fst).drop (lo.length+1)=hi.map Prod.fst := by
    rw [← List.tail_drop,hmap]
    rfl
  rw [hmap] at ho
  have hrest : e.owner ≠ o → e.owner ∈ hi.map Prod.fst := fun hne =>
    (List.mem_cons.mp ho).resolve_left hne
  by_cases hoid : o=id
  · refine ⟨(o,b),d,(o,b),false,hp,?_,by simp,.inl ⟨rfl,rfl,by simp,?_⟩⟩
    · rw [Interface.deallocElsewhere,if_neg (by simpa using hoid)]
    · rw [hmap']
      exact hrest fun heq => hid (heq.trans hoid)
  · have hall : (lo ++ (o,b) :: hi) ++ made=lo ++ (o,b) :: (hi ++ made) := by simp
    rcases h.bucket hm hall false with ⟨_,hne,hd⟩ | ⟨_,d',b',hd,hsec⟩
    · refine ⟨(o,b),d,(o,b),false,hp,?_,by simp,.inl ⟨rfl,rfl,by simp,?_⟩⟩
      · rw [Interface.deallocElsewhere,if_pos hoid]
        simp only [hd]
      · rw [hmap']
        exact hrest hne
    · refine ⟨(o,b),d',(o,b'),true,hp,?_,by simp,.inr ⟨rfl,by simpa using hsec⟩⟩
      rw [Interface.deallocElsewhere,if_pos hoid]
      simp only [hd]

end Secure

end Routing

namespace Phase

variable {T : Type}

/-- The block a thread is giving back. -/
def frees : Phase T → Option (Loan T)
  | .freeing e | .seeking e _ | .searching e _ _ => some e
  | _ => none

end Phase

namespace Crowd

variable {T : Type} [DecidableEq T] {w w' : Crowd T} {id t : T} {e : Loan T}

omit [DecidableEq T] in
/-- The threads that have a bucket in the map. -/
def keys (w : Crowd T) : List T := w.buckets.map Prod.fst

omit [DecidableEq T] in
/-- What the place of a thread in its call says. -/
def Fits (w : Crowd T) (id : T) : Phase T → Prop
  | .idle => True
  | .finding size count => size*count < 2^64
  | .building next => id ∉ w.keys ∧ ∀ r ∈ next, r.1*r.2 < 2^64
  | .emplacing b next => (id,b) ∈ w.made ∧ ∀ r ∈ next, r.1*r.2 < 2^64
  | .retrying size count => id ∈ w.keys ∧ size*count < 2^64
  | .freeing e => e ∈ w.leaving
  | .seeking e registered => e ∈ w.leaving ∧ e.owner ≠ id ∧ (registered=true ↔ id ∈ w.keys)
  | .searching e registered i => e ∈ w.leaving ∧ e.owner ≠ id ∧
      (registered=true ↔ id ∈ w.keys) ∧ id ∈ w.readers ∧ e.owner ∈ w.keys.drop i

/-- The invariant. The blocks that are being given back still belong to their buckets, and no
thread gives one back that another does. -/
structure Sane (w : Crowd T) : Prop where
  secure : Routing.Secure ⟨w.dispatcher,w.buckets ++ w.made⟩ (w.leaving ++ w.live) w.served
  owners : ∀ e ∈ w.leaving ++ w.live, e.owner ∈ w.keys
  fits : ∀ id, w.Fits id (w.phase id)
  sole : ∀ id id' e, (w.phase id).frees=some e → (w.phase id').frees=some e → id=id'
  made : ∀ x ∈ w.made, ∃ next, w.phase x.1=.emplacing x.2 next
  lost : w.lost=[]

/-- How many of its own steps a thread is at most from the bucket that takes its block. -/
def rank (w : Crowd T) (id : T) : Nat :=
  match w.phase id with
  | .freeing e => w.keys.idxOf e.owner+3
  | .seeking e _ => w.keys.idxOf e.owner+2
  | .searching e _ i => w.keys.idxOf e.owner+1-i
  | _ => 0

/-- What a step of the thread `id` leads to. -/
structure Follows (w : Crowd T) (id : T) (w' : Crowd T) : Prop where
  sane : Sane w'
  keys : w.keys <+: w'.keys
  others : ∀ t, t ≠ id → w'.phase t=w.phase t

namespace Sane

/-- Every block a thread gives back is one that leaves. -/
theorem leaving (h : Sane w) (hf : (w.phase id).frees=some e) : e ∈ w.leaving := by
  have hfit := h.fits id
  cases hp : w.phase id with
  | freeing x | seeking x | searching x =>
    rw [hp] at hf hfit
    obtain rfl := Option.some.inj hf
    first | exact hfit | exact hfit.1
  | _ => simp [hp,Phase.frees] at hf

/-- No two blocks are the same. -/
theorem nodup (h : Sane w) : (w.leaving ++ w.live).Nodup := by
  have ht := List.pairwise_map.mp h.secure.toTidy.tiled
  refine ht.imp_of_mem fun {x y} hx hy hap heq => ?_
  subst heq
  have hroom : 0 < x.room := by
    obtain ⟨hle,_,hx⟩ := x.room_fits
    have h64 : 0 < smallestCache := by decide
    omega
  exact Set.disjoint_left.mp hap (mem_bytes.mpr ⟨le_rfl,Nat.lt_add_of_pos_right hroom⟩)
    (mem_bytes.mpr ⟨le_rfl,Nat.lt_add_of_pos_right hroom⟩)

theorem nodup_keys (h : Sane w) : w.keys.Nodup := by
  have hkeys := h.secure.keys
  rw [List.map_append] at hkeys
  exact (List.nodup_append.mp hkeys).1

/-- What one thread does leaves the others where they are. -/
theorem frame {l : List T} (h : Sane w) (hne : t ≠ id) (hk : w'.keys=w.keys ++ l)
    (hks : ∀ x ∈ l, x=id) (hm : ∀ b, (t,b) ∈ w.made → (t,b) ∈ w'.made)
    (hl : ∀ e, (w.phase t).frees=some e → e ∈ w'.leaving)
    (hr : t ∈ w.readers → t ∈ w'.readers) : w'.Fits t (w.phase t) := by
  have hfit := h.fits t
  have hkey : t ∈ w'.keys ↔ t ∈ w.keys := by
    rw [hk,List.mem_append]
    exact or_iff_left fun hx => hne (hks t hx)
  cases hp : w.phase t with
  | idle => trivial
  | finding size count => rwa [hp] at hfit
  | building next =>
    rw [hp] at hfit
    exact ⟨fun hx => hfit.1 (hkey.mp hx),hfit.2⟩
  | emplacing b next =>
    rw [hp] at hfit
    exact ⟨hm b hfit.1,hfit.2⟩
  | retrying size count =>
    rw [hp] at hfit
    exact ⟨hkey.mpr hfit.1,hfit.2⟩
  | freeing e => exact hl e (by rw [hp]; rfl)
  | seeking e registered =>
    rw [hp] at hfit
    exact ⟨hl e (by rw [hp]; rfl),hfit.2.1,hfit.2.2.trans hkey.symm⟩
  | searching e registered i =>
    rw [hp] at hfit
    obtain ⟨_,hne',hreg,hread,hdrop⟩ := hfit
    refine ⟨hl e (by rw [hp]; rfl),hne',hreg.trans hkey.symm,hr hread,?_⟩
    rw [hk,List.drop_append]
    exact List.mem_append_left _ hdrop

/-- The invariant after a step of one thread. -/
theorem step {l : List T} {p : Phase T} (h : Sane w)
    (hsec : Routing.Secure ⟨w'.dispatcher,w'.buckets ++ w'.made⟩ (w'.leaving ++ w'.live) w'.served)
    (hp : w'.phase=Function.update w.phase id p) (hk : w'.keys=w.keys ++ l)
    (hks : ∀ x ∈ l, x=id) (ho : ∀ e ∈ w'.leaving ++ w'.live, e.owner ∈ w'.keys)
    (hm : ∀ x : T × Bucket, x.1 ≠ id → (x ∈ w'.made ↔ x ∈ w.made))
    (hl : ∀ t e, t ≠ id → (w.phase t).frees=some e → e ∈ w'.leaving)
    (hr : ∀ t, t ≠ id → t ∈ w.readers → t ∈ w'.readers) (hfit : w'.Fits id p)
    (hsole : ∀ e, p.frees=some e → (w.phase id).frees=some e ∨ e ∉ w.leaving)
    (hmade : ∀ b, (id,b) ∈ w'.made → ∃ next, p=.emplacing b next) (hlost : w'.lost=[]) :
    Follows w id w' := by
  have hself : w'.phase id=p := by rw [hp,Function.update_self]
  have hother : ∀ t, t ≠ id → w'.phase t=w.phase t := fun t ht => by
    rw [hp,Function.update_of_ne ht]
  have hone : ∀ t e, t ≠ id → (w'.phase id).frees=some e → (w.phase t).frees ≠ some e := by
    intro t e ht hf hf'
    rcases hsole e (hself ▸ hf) with hx | hx
    · exact ht (h.sole t id e hf' hx)
    · exact hx (h.leaving hf')
  refine ⟨⟨hsec,ho,?_,?_,?_,hlost⟩,⟨l,hk.symm⟩,hother⟩
  · intro t
    by_cases ht : t=id
    · rw [ht,hself]
      exact hfit
    · rw [hother t ht]
      exact h.frame ht hk hks (fun b hb => (hm (t,b) ht).mpr hb) (fun e he => hl t e ht he) (hr t ht)
  · intro t t' e hf hf'
    by_cases ht : t=id
    · by_cases ht' : t'=id
      · rw [ht,ht']
      · rw [hother t' ht'] at hf'
        exact absurd hf' (hone t' e ht' (ht ▸ hf))
    · rw [hother t ht] at hf
      by_cases ht' : t'=id
      · exact absurd hf (hone t e ht (ht' ▸ hf'))
      · rw [hother t' ht'] at hf'
        exact h.sole t t' e hf hf'
  · rintro ⟨t,b⟩ hb
    by_cases ht : t=id
    · subst ht
      obtain ⟨next,rfl⟩ := hmade b hb
      exact ⟨next,hself⟩
    · rw [hother t ht]
      exact h.made (t,b) ((hm (t,b) ht).mp hb)

theorem supply (h : Sane w) (answers : List Nat) : Sane (w.put (w.interface.supply answers)) :=
  ⟨h.secure.supply answers,h.owners,h.fits,h.sole,h.made,h.lost⟩

/-- A thread that is not about to put a bucket into the map has none outside it. -/
theorem not_made (h : Sane w) (hp : ∀ b next, w.phase id ≠ .emplacing b next) (b : Bucket) :
    (id,b) ∉ w.made := by
  intro hm
  obtain ⟨next,hx⟩ := h.made (id,b) hm
  exact hp b next hx

/-- A thread goes on without a change to the rest. -/
theorem goto {p : Phase T} (h : Sane w) (hp : ∀ b next, w.phase id ≠ .emplacing b next)
    (hfit : w.Fits id p) (hsole : ∀ e, p.frees=some e → (w.phase id).frees=some e) :
    Follows w id (w.goto id p) := by
  refine h.step (l := []) h.secure rfl (List.append_nil _).symm (by simp) h.owners
    (fun _ _ => Iff.rfl) (fun t e _ hf => h.leaving hf) (fun _ _ hr => hr) hfit
    (fun e he => .inl (hsole e he)) ?_ h.lost
  exact fun b hb => absurd hb (h.not_made hp b)

/-- `allocate` returns a block. -/
theorem handOut {s : Interface T} (h : Sane w) (hp : ∀ b next, w.phase id ≠ .emplacing b next)
    (hid : e.owner ∈ w.keys) (hk : s.buckets.map Prod.fst=w.keys)
    (hsec : Routing.Secure ⟨s.dispatcher,s.buckets ++ w.made⟩ (e :: (w.leaving ++ w.live))
      (Routing.serving e w.served)) : Follows w id ((w.put s).handOut id e) := by
  have hkeys : ((w.put s).handOut id e).keys=w.keys := hk
  have hperm : (e :: (w.leaving ++ w.live)).Perm (w.leaving ++ e :: w.live) :=
    List.perm_middle.symm
  refine h.step (l := []) (hsec.perm (.refl _) hperm) rfl (by rw [hkeys,List.append_nil])
    (by simp) ?_ (fun _ _ => Iff.rfl) (fun t f _ hf => h.leaving hf) (fun _ _ hr => hr) trivial
    (by simp [Phase.frees]) (fun b hb => absurd hb (h.not_made hp b)) h.lost
  intro x hx
  rw [hkeys]
  rcases List.mem_cons.mp (hperm.mem_iff.mpr hx) with rfl | hx
  · exact hid
  · exact h.owners x hx

/-- `deallocate` is done with its block. -/
theorem handBack {s : Interface T} {registered : Bool} (h : Sane w)
    (hf : (w.phase id).frees=some e) (hreg : registered=true ↔ id ∈ w.keys)
    (hk : s.buckets.map Prod.fst=w.keys)
    (hsec : Routing.Secure ⟨s.dispatcher,s.buckets ++ w.made⟩ ((w.leaving ++ w.live).erase e)
      w.served) : Follows w id ((w.put s).handBack id e registered) := by
  have hkeys : ((w.put s).handBack id e registered).keys=w.keys := hk
  have hm := h.leaving hf
  rw [List.erase_append_left _ hm] at hsec
  refine h.step (l := []) hsec rfl (by rw [hkeys,List.append_nil]) (by simp) ?_
    (fun _ _ => Iff.rfl) ?_ ?_ ?_ ?_ ?_ h.lost
  · intro x hx
    rw [hkeys]
    exact h.owners x ((List.erase_sublist.append (List.Sublist.refl _)).subset hx)
  · intro t f ht hf'
    refine (List.mem_erase_of_ne ?_).mpr (h.leaving hf')
    rintro rfl
    exact ht (h.sole t id f hf' hf)
  · intro t ht hr
    exact (List.mem_erase_of_ne ht).mpr hr
  · cases registered with
    | true => trivial
    | false =>
      refine ⟨?_,by simp⟩
      rw [hkeys]
      exact fun hx => Bool.false_ne_true (hreg.mpr hx)
  · intro x hx
    cases registered <;> simp [Phase.frees] at hx
  · intro b hb
    refine absurd hb (h.not_made ?_ b)
    intro b next hx
    simp [hx,Phase.frees] at hf

theorem bounded (h : Sane w) (hm : e ∈ w.leaving) : toSizeT (e.size*e.n)=e.bytes :=
  Nat.mod_eq_of_lt (h.secure.bounded e (List.mem_append_left _ hm))

/-- The first look for the bucket of the thread. -/
theorem finding {size count : Nat} (h : Sane w) (hp : w.phase id=.finding size count)
    (ha : w.advance id=some w') : Follows w id w' := by
  have hlt : size*count < 2^64 := by
    have hfit := h.fits id
    rwa [hp] at hfit
  have hbytes : toSizeT (size*count)=size*count := Nat.mod_eq_of_lt hlt
  have hplain : ∀ b next, w.phase id ≠ .emplacing b next := by simp [hp]
  simp only [advance,hp,hbytes] at ha
  cases hf : w.interface.findAlloc id (findCacheIdx (size*count)) (size*count) with
  | none => simp [hf] at ha
  | some x =>
    obtain ⟨s,mem⟩ := x
    cases mem with
    | none => simp [hf] at ha
    | some ptr =>
      simp only [hf] at ha
      rcases h.secure.findAlloc (s := w.interface) hlt hf with
        ⟨hid,rfl,rfl⟩ | ⟨hid,hpos,hk,hsec⟩
      · rw [if_neg (by simp)] at ha
        obtain rfl := Option.some.inj ha
        refine h.goto hplain ⟨hid,?_⟩ (by simp [Phase.frees])
        rintro r ⟨⟩
        exact hlt
      · rw [if_pos (Nat.ne_of_gt hpos)] at ha
        obtain rfl := Option.some.inj ha
        exact h.handOut hplain hid hk hsec

/-- The second look, after `registerThread`. -/
theorem retrying {size count : Nat} (h : Sane w) (hp : w.phase id=.retrying size count)
    (ha : w.advance id=some w') : Follows w id w' := by
  obtain ⟨hid,hlt⟩ : id ∈ w.keys ∧ size*count < 2^64 := by
    have hfit := h.fits id
    rwa [hp] at hfit
  have hbytes : toSizeT (size*count)=size*count := Nat.mod_eq_of_lt hlt
  simp only [advance,hp,hbytes] at ha
  cases hf : w.interface.findAlloc id (findCacheIdx (size*count)) (size*count) with
  | none => simp [hf] at ha
  | some x =>
    obtain ⟨s,mem⟩ := x
    cases mem with
    | none => simp [hf] at ha
    | some ptr =>
      simp only [hf,Option.some.injEq] at ha
      subst ha
      rcases h.secure.findAlloc (s := w.interface) hlt hf with ⟨hno,_,_⟩ | ⟨_,_,hk,hsec⟩
      · exact absurd hid hno
      · exact h.handOut (by simp [hp]) hid hk hsec

/-- The constructor of `Bucket` in `registerThread`. -/
theorem building {next : Option (Nat × Nat)} (h : Sane w) (hp : w.phase id=.building next)
    (ha : w.advance id=some w') : Follows w id w' := by
  obtain ⟨hid,hlt⟩ : id ∉ w.keys ∧ ∀ r ∈ next, r.1*r.2 < 2^64 := by
    have hfit := h.fits id
    rwa [hp] at hfit
  have hno : ∀ b, (id,b) ∉ w.made := h.not_made (by simp [hp])
  simp only [advance,hp] at ha
  cases hm : Bucket.make w.dispatcher with
  | none => simp [hm] at ha
  | some x =>
    obtain ⟨d,b⟩ := x
    cases b with
    | none => simp [hm] at ha
    | some b =>
      simp only [hm,Option.some.injEq] at ha
      subst ha
      have hfresh : id ∉ (w.buckets ++ w.made).map Prod.fst := by
        rw [List.map_append,List.mem_append]
        rintro (hx | hx)
        · exact hid hx
        · obtain ⟨y,hy,rfl⟩ := List.mem_map.mp hx
          exact hno y.2 hy
      have hsec := h.secure.make hfresh hm
      rw [List.append_assoc] at hsec
      refine h.step (l := []) hsec rfl (List.append_nil _).symm (by simp) h.owners ?_
        (fun t e _ hf => h.leaving hf) (fun _ _ hr => hr) ⟨List.mem_append_right _ (by simp),hlt⟩
        (by simp [Phase.frees]) ?_ h.lost
      · intro x hx
        refine List.mem_append.trans (or_iff_left fun hm => hx ?_)
        rw [List.mem_singleton.mp hm]
      · intro b' hb'
        rcases List.mem_append.mp hb' with hb' | hb'
        · exact absurd hb' (hno b')
        · exact ⟨next,by rw [(Prod.mk.inj (List.mem_singleton.mp hb')).2]⟩

/-- The bucket goes into the map. -/
theorem emplacing {b : Bucket} {next : Option (Nat × Nat)} (h : Sane w)
    (hp : w.phase id=.emplacing b next) (ha : w.advance id=some w') : Follows w id w' := by
  obtain ⟨hm,hlt⟩ : (id,b) ∈ w.made ∧ ∀ r ∈ next, r.1*r.2 < 2^64 := by
    have hfit := h.fits id
    rwa [hp] at hfit
  simp only [advance,hp] at ha
  split_ifs at ha with hr
  obtain rfl := Option.some.inj ha
  have hkeys := h.secure.keys
  rw [List.map_append] at hkeys
  have hnodup : (w.made.map Prod.fst).Nodup := (List.nodup_append.mp hkeys).2.1
  have hperm := List.perm_cons_erase hm
  have hgone : id ∉ (w.made.erase (id,b)).map Prod.fst :=
    (List.nodup_cons.mp ((hperm.map Prod.fst).nodup_iff.mp hnodup)).1
  have hk : (SmpMap.emplace w.buckets id b).map Prod.fst=w.keys ++ [id] := by
    simp [SmpMap.emplace,keys]
  have hin : ∀ x ∈ w.keys ++ [id], x ∈ (SmpMap.emplace w.buckets id b).map Prod.fst :=
    fun x hx => hk ▸ hx
  refine h.step (l := [id]) (h.secure.perm ?_ (.refl _)) rfl hk (by simp) ?_ ?_
    (fun t e _ hf => h.leaving hf) (fun _ _ hr => hr) ?_ ?_ ?_ h.lost
  · change (w.buckets ++ w.made).Perm ((w.buckets ++ [(id,b)]) ++ w.made.erase (id,b))
    rw [List.append_assoc]
    exact hperm.append_left _
  · intro e he
    exact hin _ (List.mem_append_left _ (h.owners e he))
  · intro x hx
    refine List.mem_erase_of_ne fun heq => hx ?_
    rw [heq]
  · cases next with
    | none => trivial
    | some r => exact ⟨hin _ (List.mem_append_right _ (by simp)),hlt r rfl⟩
  · intro e he
    cases next <;> simp [Phase.after,Phase.frees] at he
  · intro b' hb'
    exact absurd (List.mem_map_of_mem hb') hgone

/-- What is found from a position on was not found before. -/
theorem le_idxOf {l : List T} {a : T} {i : Nat} (hn : l.Nodup) (ha : a ∈ l.drop i) :
    i ≤ l.idxOf a := by
  by_contra hlt
  have hm := (List.mem_take_iff_idxOf_lt (List.mem_of_mem_drop ha)).mpr (Nat.lt_of_not_ge hlt)
  rw [← List.take_append_drop i l] at hn
  exact (List.nodup_append.mp hn).2.2 a hm a ha rfl

theorem handBack_frees (w : Crowd T) (id : T) (e : Loan T) (registered : Bool) :
    ((w.handBack id e registered).phase id).frees=none := by
  cases registered <;> simp [Crowd.handBack,Crowd.goto,Phase.frees]

/-- `deallocate` in the bucket of the thread. -/
theorem freeing (h : Sane w) (hp : w.phase id=.freeing e) : ∃ w', w.advance id=some w' ∧
    Follows w id w' ∧ ((w'.phase id).frees=none ∨
      (w'.phase id).frees=some e ∧ w'.rank id < w.rank id) := by
  have hf : (w.phase id).frees=some e := by simp [hp,Phase.frees]
  have hm := h.leaving hf
  have hm' := List.mem_append_left w.live hm
  have hplain : ∀ b next, w.phase id ≠ .emplacing b next := by simp [hp]
  obtain ⟨s,found,hd,hcase⟩ := h.secure.findDealloc (s := w.interface) hm' (h.owners e hm') id
  have hd' : w.interface.findDealloc id e.ptr (findCacheIdx e.bytes) e.bytes=
      some (s,found,decide (id ∈ w.keys)) := hd
  simp only [advance,hp,h.bounded hm,hd']
  rcases hcase with ⟨rfl,rfl,hne⟩ | ⟨rfl,_,hk,hsec⟩
  · refine ⟨_,rfl,h.goto hplain ⟨hm,hne,decide_eq_true_iff⟩ ?_,.inr ⟨?_,?_⟩⟩
    · exact fun x hx => hf.trans hx
    · simp [Crowd.goto,Phase.frees]
    · simp [Crowd.goto,rank,hp,keys,Crowd.put,interface]
  · exact ⟨_,rfl,h.handBack hf decide_eq_true_iff hk hsec,.inl (handBack_frees ..)⟩

/-- `iterate` takes the lock. -/
theorem seeking {registered : Bool} (h : Sane w) (hp : w.phase id=.seeking e registered) :
    ∃ w', w.advance id=some w' ∧ Follows w id w' ∧ ((w'.phase id).frees=none ∨
      (w'.phase id).frees=some e ∧ w'.rank id < w.rank id) := by
  have hf : (w.phase id).frees=some e := by simp [hp,Phase.frees]
  have hm := h.leaving hf
  have hno : ∀ b, (id,b) ∉ w.made := h.not_made (by simp [hp])
  obtain ⟨_,hne,hreg⟩ : e ∈ w.leaving ∧ e.owner ≠ id ∧ (registered=true ↔ id ∈ w.keys) := by
    have hfit := h.fits id
    rwa [hp] at hfit
  have ho : e.owner ∈ w.keys := h.owners e (List.mem_append_left _ hm)
  simp only [advance,hp]
  refine ⟨_,rfl,?_,.inr ⟨?_,?_⟩⟩
  · refine h.step (l := []) h.secure rfl (List.append_nil _).symm (by simp) h.owners
      (fun _ _ => Iff.rfl) (fun t x _ hx => h.leaving hx)
      (fun t _ hr => List.mem_cons_of_mem _ hr) ?_ (fun x hx => .inl (hf.trans hx))
      (fun b hb => absurd hb (hno b)) h.lost
    exact ⟨hm,hne,hreg,List.mem_cons_self,ho⟩
  · simp [Crowd.goto,Phase.frees]
  · simp [Crowd.goto,rank,hp,keys]

/-- `iterate` at the next bucket. -/
theorem searching {registered : Bool} {i : Nat} (h : Sane w)
    (hp : w.phase id=.searching e registered i) :
    ∃ w', w.advance id=some w' ∧ Follows w id w' ∧ ((w'.phase id).frees=none ∨
      (w'.phase id).frees=some e ∧ w'.rank id < w.rank id) := by
  have hf : (w.phase id).frees=some e := by simp [hp,Phase.frees]
  have hm := h.leaving hf
  have hplain : ∀ b next, w.phase id ≠ .emplacing b next := by simp [hp]
  obtain ⟨_,hne,hreg,hread,hdrop⟩ : e ∈ w.leaving ∧ e.owner ≠ id ∧
      (registered=true ↔ id ∈ w.keys) ∧ id ∈ w.readers ∧ e.owner ∈ w.keys.drop i := by
    have hfit := h.fits id
    rwa [hp] at hfit
  obtain ⟨pair,d,pair',stop,hget,hd,hk,hcase⟩ :=
    h.secure.deallocElsewhere (List.mem_append_left w.live hm) hne hdrop
  have hd' : Interface.deallocElsewhere id e.ptr (findCacheIdx e.bytes) e.bytes
      (w.dispatcher,false) pair=some ((d,stop),pair',stop) := hd
  simp only [advance,hp,h.bounded hm,hget,hd']
  rcases hcase with ⟨rfl,rfl,hset,hdrop'⟩ | ⟨rfl,hsec⟩
  · have hput : w.put ⟨w.dispatcher,w.buckets.set i pair'⟩=w := by
      rw [hset]
      rfl
    simp only [hput]
    refine ⟨_,rfl,h.goto hplain ⟨hm,hne,hreg,hread,hdrop'⟩ fun x hx => hf.trans hx,
      .inr ⟨?_,?_⟩⟩
    · simp [Crowd.goto,Phase.frees]
    · have hge := le_idxOf h.nodup_keys hdrop'
      have hrank : (w.goto id (.searching e registered (i+1))).rank id=
          w.keys.idxOf e.owner+1-(i+1) := by simp [Crowd.goto,rank,keys]
      have hrank' : w.rank id=w.keys.idxOf e.owner+1-i := by simp [rank,hp]
      omega
  · exact ⟨_,rfl,h.handBack hf hreg hk hsec,.inl (handBack_frees ..)⟩

/-- A thread that gives a block back can always go on, and is nearer to the end then. -/
theorem frees_step (h : Sane w) (hf : (w.phase id).frees=some e) : ∃ w', w.advance id=some w' ∧
    Follows w id w' ∧ ((w'.phase id).frees=none ∨
      (w'.phase id).frees=some e ∧ w'.rank id < w.rank id) := by
  cases hp : w.phase id with
  | freeing x =>
    rw [hp] at hf
    obtain rfl := Option.some.inj hf
    exact h.freeing hp
  | seeking x registered =>
    rw [hp] at hf
    obtain rfl := Option.some.inj hf
    exact h.seeking hp
  | searching x registered i =>
    rw [hp] at hf
    obtain rfl := Option.some.inj hf
    exact h.searching hp
  | _ => simp [hp,Phase.frees] at hf

theorem advance (h : Sane w) (ha : w.advance id=some w') : Follows w id w' := by
  have hfrees : ∀ e, (w.phase id).frees=some e → Follows w id w' := by
    intro e hf
    obtain ⟨w₁,h₁,hn,_⟩ := h.frees_step hf
    obtain rfl := Option.some.inj (h₁.symm.trans ha)
    exact hn
  cases hp : w.phase id with
  | idle => simp [Crowd.advance,hp] at ha
  | finding size count => exact h.finding hp ha
  | building next => exact h.building hp ha
  | emplacing b next => exact h.emplacing hp ha
  | retrying size count => exact h.retrying hp ha
  | freeing e | seeking e | searching e => exact hfrees e (by rw [hp]; rfl)

/-- Every step keeps the invariant. -/
theorem next {m : Move T} (h : Sane w) (hn : w.next (id,m)=some w') : Follows w id w' := by
  cases m with
  | allocate size count =>
    simp only [Crowd.next] at hn
    cases hp : w.phase id with
    | idle =>
      simp only [hp] at hn
      split_ifs at hn with hlt
      obtain rfl := Option.some.inj hn
      exact h.goto (by simp [hp]) hlt (by simp [Phase.frees])
    | _ => simp [hp] at hn
  | deallocate e =>
    simp only [Crowd.next] at hn
    cases hp : w.phase id with
    | idle =>
      simp only [hp] at hn
      split_ifs at hn with hm
      obtain rfl := Option.some.inj hn
      have hperm : (w.leaving ++ w.live).Perm (e :: w.leaving ++ w.live.erase e) :=
        ((List.perm_cons_erase hm).append_left _).trans List.perm_middle
      refine h.step (l := []) (h.secure.perm (.refl _) hperm) rfl (List.append_nil _).symm
        (by simp) (fun x hx => h.owners x (hperm.mem_iff.mpr hx)) (fun _ _ => Iff.rfl)
        (fun t x _ hx => List.mem_cons_of_mem _ (h.leaving hx)) (fun _ _ hr => hr)
        List.mem_cons_self ?_ (fun b hb => absurd hb (h.not_made (by simp [hp]) b)) h.lost
      rintro x ⟨⟩
      exact .inr fun hx => (List.nodup_append.mp h.nodup).2.2 e hx e hm rfl
    | _ => simp [hp] at hn
  | advance answers =>
    have hx := (h.supply answers).advance hn
    exact ⟨hx.sane,hx.keys,hx.others⟩

end Sane

end Crowd

end Allocators.SlabMulti
