import Allocators.SlabMulti.Client

/-! `deallocate` in two steps: what is decided under the shared lock, and what is done about it
under the exclusive lock, with the calls of other threads in between. -/

namespace Allocators.SlabMulti

open Lib Vector Extent

/-- The position of the iterators a decision keeps. -/
def Decision.position : Decision → Option Nat
  | .nothing => none
  | .splice it => some it
  | .toDispatch it => some it

/-- To carry the decision out moves the slab at position `j` or takes it out. -/
def Cache.Displaces (c : Cache) (j : Nat) : Decision → Prop
  | .nothing => False
  | .splice it => c.actBlock < it ∧ c.actBlock ≤ j ∧ j ≤ it
  | .toDispatch it => if it < c.actBlock then it ≤ j else j=it ∨ j+1=c.slabs.length

/-- A `deallocate` between its two steps, with the memory of the slab it is about and whether the
vectors were reallocated since. -/
structure Pending (T : Type) where
  thread : T
  decision : Decision
  mem : Option Nat
  stale : Bool

structure Deferred (T : Type) where
  cache : Cache
  live : List Nat
  pending : List (Pending T)

/-- A step of a thread: the owner's `allocate`, for which the dispatcher would return `mem` and
whose `emplace_back` may reallocate, and the two steps of `deallocate`. -/
inductive Half
  | allocate (mem : Nat) (realloc : Bool)
  | locate (ptr : Nat)
  | rearrange
  deriving DecidableEq

namespace Deferred

variable {T : Type} [DecidableEq T]

/-- The thread is in no `deallocate`. -/
def Idle (w : Deferred T) (t : T) : Prop := ∀ p ∈ w.pending, p.thread ≠ t

instance (w : Deferred T) (t : T) : Decidable (w.Idle t) :=
  inferInstanceAs (Decidable (∀ p ∈ w.pending, _))

def outdate (grown realloc : Bool) (p : Pending T) : Pending T :=
  { p with stale := p.stale || grown && realloc }

def serve (owner : T) (count : Nat) (w : Deferred T) (t : T) : Half → Option (Deferred T)
  | .allocate mem realloc =>
    if t=owner ∧ w.Idle t ∧ w.cache.Fresh mem then
      match w.cache.allocate (⟨indices count,mem⟩ : Supply) with
      | some (_,c,some ptr) =>
        let grown := decide (w.cache.ptrs.length < c.ptrs.length)
        some ⟨c,ptr :: w.live,w.pending.map (outdate grown realloc)⟩
      | _ => none
    else none
  | .locate ptr =>
    if w.Idle t ∧ ptr ∈ w.live then
      match w.cache.locate ptr (decide (t=owner)) with
      | some (c,some decision) =>
        let mem := decision.position.bind fun it => c.ptrs[it]?
        some ⟨c,w.live.erase ptr,⟨t,decision,mem,false⟩ :: w.pending⟩
      | _ => none
    else none
  | .rearrange =>
    match w.pending.find? fun p => decide (p.thread=t) with
    | none => none
    | some p => (w.cache.rearrange p.decision).map fun c =>
        ⟨c,w.live,w.pending.eraseP fun p => decide (p.thread=t)⟩

/-- Any number of threads, one of them the owner of the cache. The second step of a `deallocate` is
none if the slab it is to splice has come to be in front of the active one, where `memmove` would
get a length that wrapped around. -/
def machine (owner : T) (count blockSize : Nat) : Machine (Deferred T) (T × Half) where
  start w := ∃ mem c, Cache.make (⟨indices count,mem⟩ : Supply) count blockSize=
    some (⟨indices count,mem⟩,c,true) ∧ w=⟨c,[],[]⟩
  next w l := serve owner count w l.1 l.2

omit [DecidableEq T] in
/-- The iterators the thread kept denote the slab it has looked at, and a slab that it is to give
back to the dispatcher holds no live block. -/
def Intact (w : Deferred T) (p : Pending T) : Prop :=
  ∀ it, p.decision.position=some it → p.stale=false ∧ ∃ mem, p.mem=some mem ∧
    w.cache.ptrs[it]?=some mem ∧ (p.decision=.toDispatch it →
      ∀ q ∈ w.live, Slab.containsMem q mem w.cache.blockSize w.cache.count=false)

/-- The same of all threads: of every decision that is pending, since each may be the next to be
carried out, and not only of the one that is. -/
def AllIntact (w : Deferred T) : Prop := ∀ p ∈ w.pending, w.Intact p

/-- The step takes no block from a slab that is to go back to the dispatcher, and neither moves
nor takes out a slab to which another thread has iterators. -/
def Undisturbed (w : Deferred T) : T × Half → Prop
  | (_,.allocate _ realloc) => ∀ p ∈ w.pending, p.decision ≠ .toDispatch w.cache.actBlock ∧
      (w.cache.Grows → ∀ it, p.decision.position=some it → it ≠ 0 ∧ realloc=false)
  | (_,.locate _) => True
  | (t,.rearrange) => ∀ p ∈ w.pending, p.thread=t → ∀ q ∈ w.pending, q.thread ≠ t →
      ∀ it, q.decision.position=some it → ¬ w.cache.Displaces it p.decision

end Deferred

section Positions

variable {s s' : Shelf} {d : Supply} {ptr : Nat} {decision : Decision} {r : Row}

/-- `allocate` leaves the slabs where they are, unless it puts a new one in front. -/
theorem Served.getElem? (h : Served s d s' ptr) {j : Nat} (hj : s.rows[j]?=some r)
    (hg : s.cache.Grows → j ≠ 0) : ∃ r', s'.rows[j]?=some r' ∧ r'.region=r.region := by
  have hmid : ∀ {lo hi : List Row} {x y : Row}, s.rows=lo ++ x :: hi → y.region=x.region →
      ∃ r', (lo ++ y :: hi)[j]?=some r' ∧ r'.region=r.region := by
    intro lo hi x y hr he
    rw [hr] at hj
    rcases getElem?_mid_cases lo hi x y hj with ⟨rfl,rfl⟩ | ⟨_,hj⟩
    · exact ⟨y,getElem?_mid _ _ _,he⟩
    · exact ⟨r,hj,rfl⟩
  cases h with
  | stay hr _ _ _ => exact hmid hr rfl
  | merge hr _ _ _ => exact hmid hr rfl
  | back hr _ _ _ _ => exact hmid hr rfl
  | @grow hi x idx hr ha he hf =>
    have hr' : s.rows=[] ++ x :: hi := hr
    obtain ⟨k,rfl⟩ := Nat.exists_eq_succ_of_ne_zero
      (hg ((Shelf.grows_iff hr' ha).mpr ⟨rfl,⟨idx,he⟩,hf⟩))
    rw [hr,Nat.succ_eq_add_one,List.getElem?_cons_succ] at hj
    have hk := (List.getElem?_eq_some_iff.mp hj).1
    refine ⟨r,?_,rfl⟩
    rw [Nat.succ_eq_add_one,List.getElem?_cons_succ,List.getElem?_append_left hk]
    exact hj

/-- A new slab takes the place in front. -/
theorem Served.front (h : Served s d s' ptr) (hg : s.cache.Grows) :
    s'.cache.ptrs[0]?=some d.mem := by
  rcases h.length with ⟨_,hl⟩ | ⟨hn,_⟩
  · cases h with
    | stay hr _ _ _ => simp [hr] at hl
    | merge hr _ _ _ => simp [hr] at hl
    | back hr _ _ _ _ => simp [hr] at hl
    | grow hr _ _ _ => rfl
  · exact absurd hg hn

theorem Shelf.displaces_front {it j : Nat} (h : it < s.act) :
    s.cache.Displaces j (.toDispatch it) ↔ it ≤ j := by
  have h' : it < s.cache.actBlock := h
  simp only [Cache.Displaces,if_pos h']

theorem Shelf.displaces_back {it j : Nat} (h : s.act ≤ it) :
    s.cache.Displaces j (.toDispatch it) ↔ j=it ∨ j+1=s.rows.length := by
  have h' : ¬ it < s.cache.actBlock := Nat.not_lt.mpr h
  have hl : s.cache.slabs.length=s.rows.length := by simp [Shelf.cache]
  simp only [Cache.Displaces,if_neg h',hl]

/-- A position whose slab is not displaced keeps it. -/
theorem Rearranged.getElem? (h : Rearranged s decision s') {j : Nat}
    (hd : ¬ s.cache.Displaces j decision) (hj : s.rows[j]?=some r) : s'.rows[j]?=some r := by
  have hlen := (List.getElem?_eq_some_iff.mp hj).1
  cases h with
  | nothing => exact hj
  | @splice it hle hlt =>
    have hx := List.getElem?_eq_getElem hlt
    simp only [Cache.Displaces,Shelf.cache] at hd
    change (moveBefore s.rows s.act it)[j]?=some r
    rw [getElem?_moveBefore hle hx]
    split_ifs with h1 h2 h3
    · exact hj
    · obtain rfl : it=j := by omega
      exact hx.symm.trans hj
    · omega
    · exact hj
  | @behind it hlt hlen' =>
    have hx := List.getElem?_eq_getElem hlen'
    rw [Shelf.displaces_back hlt.le,not_or] at hd
    change (swapPop s.rows it)[j]?=some r
    rw [getElem?_swapPop hx,if_pos (by omega),if_neg hd.1]
    exact hj
  | @front it hlt hlen' =>
    rw [Shelf.displaces_front hlt] at hd
    change (s.rows.eraseIdx it)[j]?=some r
    rw [List.getElem?_eraseIdx_of_lt (by omega)]
    exact hj
  | active hlen' =>
    have hx := List.getElem?_eq_getElem hlen'
    rw [Shelf.displaces_back le_rfl,not_or] at hd
    change (swapPop s.rows s.act)[j]?=some r
    rw [getElem?_swapPop hx,if_pos (by omega),if_neg hd.1]
    exact hj

theorem mem_ne {rows : List Row} (h : (rows.map Prod.fst).Nodup) {i j : Nat} {x y : Row}
    (hi : rows[i]?=some x) (hj : rows[j]?=some y) (hne : i ≠ j) : x.1 ≠ y.1 := by
  intro he
  have hlt := (List.getElem?_eq_some_iff.mp hi).1
  have h1 : (rows.map Prod.fst)[i]?=some x.1 := by simp [hi]
  have h2 : (rows.map Prod.fst)[j]?=some y.1 := by simp [hj]
  exact hne ((List.getElem?_inj (by simpa using hlt) h).mp (h1.trans (he ▸ h2.symm)))

/-- A position whose slab is displaced has another one, or none. -/
theorem Rearranged.displaced (h : Rearranged s decision s') (hn : (s.rows.map Prod.fst).Nodup)
    {j : Nat} (hd : s.cache.Displaces j decision) (hj : s.rows[j]?=some r) {r' : Row}
    (hj' : s'.rows[j]?=some r') : r'.1 ≠ r.1 := by
  have hswap : ∀ it, it < s.rows.length → j=it ∨ j+1=s.rows.length →
      (swapPop s.rows it)[j]?=some r' → r'.1 ≠ r.1 := by
    intro it hlt hor hs
    rw [getElem?_swapPop (List.getElem?_eq_getElem hlt)] at hs
    split_ifs at hs with h1 h2
    · exact mem_ne hn hs hj (by omega)
    · omega
  cases h with
  | nothing => exact hd.elim
  | @splice it hle hlt =>
    obtain ⟨h1,h2,h3⟩ : s.act < it ∧ s.act ≤ j ∧ j ≤ it := hd
    have hx := List.getElem?_eq_getElem hlt
    change (moveBefore s.rows s.act it)[j]?=some r' at hj'
    rw [getElem?_moveBefore hle hx,if_neg (by omega)] at hj'
    split_ifs at hj' with h4
    · exact mem_ne hn (hx.trans hj') hj (by omega)
    · exact mem_ne hn hj' hj (by omega)
  | @behind it hlt hlen =>
    exact hswap it hlen ((Shelf.displaces_back hlt.le).mp hd) hj'
  | @front it hlt hlen =>
    rw [Shelf.displaces_front hlt] at hd
    change (s.rows.eraseIdx it)[j]?=some r' at hj'
    rw [List.getElem?_eraseIdx_of_ge hd] at hj'
    exact mem_ne hn hj' hj (by omega)
  | active hlen =>
    exact hswap s.act hlen ((Shelf.displaces_back le_rfl).mp hd) hj'

end Positions

namespace Deferred

section Rows

variable {T : Type} {s s' : Shelf} {live : List Nat} {p : Pending T} {pending : List (Pending T)}
  {count blockSize ptr mem it : Nat} {decision : Decision} {r : Row} {lo hi : List Row}
  {thisThread grown realloc : Bool} {t : T}

/-- The slab a decision is about, found in the rows. -/
theorem intact_iff (hs : s.Shaped) : Intact ⟨s.cache,live,pending⟩ p ↔
    ∀ it, p.decision.position=some it → p.stale=false ∧ ∃ r, s.rows[it]?=some r ∧
      p.mem=some r.1 ∧ (p.decision=.toDispatch it → ∀ q ∈ live, ¬ r.region.Contains q) := by
  constructor
  · intro h it hit
    obtain ⟨hst,mem,hm,hptr,hno⟩ := h it hit
    obtain ⟨r,hr,rfl⟩ := Shelf.exists_ptr hptr
    refine ⟨hst,r,hr,hm,?_⟩
    intro hd q hq hc
    have ht := (Shelf.containsMem_iff hs (List.mem_of_getElem? hr)).mpr hc
    exact Bool.false_ne_true ((hno hd q hq).symm.trans ht)
  · intro h it hit
    obtain ⟨hst,r,hr,hm,hno⟩ := h it hit
    refine ⟨hst,r.1,hm,by simp [Shelf.cache,hr],?_⟩
    intro hd q hq
    have hmem : r ∈ s.rows := List.mem_of_getElem? hr
    exact Bool.eq_false_iff.mpr fun hc => hno hd q hq ((Shelf.containsMem_iff hs hmem).mp hc)

/-- What a decision keeps when the slab at its position stays. -/
theorem Intact.keep (hs : s.Shaped) (hs' : s'.Shaped) {live' : List Nat}
    {pending' : List (Pending T)} {p' : Pending T} (h : Intact ⟨s.cache,live,pending⟩ p)
    (hd : p'.decision=p.decision) (hm : p'.mem=p.mem)
    (hst : p.decision.position ≠ none → p.stale=false → p'.stale=false)
    (hr : ∀ it r, p.decision.position=some it → s.rows[it]?=some r →
      ∃ r', s'.rows[it]?=some r' ∧ r'.region=r.region)
    (hl : ∀ it r, p.decision=.toDispatch it → s.rows[it]?=some r → ∀ q ∈ live',
      q ∈ live ∨ ¬ r.region.Contains q) :
    Intact ⟨s'.cache,live',pending'⟩ p' := by
  rw [intact_iff hs'] 
  intro it hit
  rw [hd] at hit
  obtain ⟨hst',r,hrow,hmem,hno⟩ := (intact_iff hs).mp h it hit
  obtain ⟨r',hrow',hreg⟩ := hr it r hit hrow
  refine ⟨hst (by simp [hit]) hst',r',hrow',?_,?_⟩
  · rw [hm,hmem]
    exact congrArg (fun x : Region => some x.base) hreg.symm
  · intro hx q hq
    rw [hd] at hx
    rw [hreg]
    rcases hl it r hx hrow q hq with hq | hq
    · exact hno hx q hq
    · exact hq

/-- The slab at the position of a decision. -/
theorem Intact.row (hs : s.Shaped) (h : Intact ⟨s.cache,live,pending⟩ p)
    (hit : p.decision.position=some it) :
    ∃ r, s.rows[it]?=some r ∧ p.mem=some r.1 := by
  obtain ⟨_,r,hr,hm,_⟩ := (intact_iff hs).mp h it hit
  exact ⟨r,hr,hm⟩

/-- A decision just made is about the slab that was looked at. -/
theorem intact_located (h : Stocked count blockSize s live) (hr : s.rows=lo ++ r :: hi)
    (hm : ptr ∈ live) (hc : r.region.Contains ptr)
    (hs' : s'={ s with rows := lo ++ r.give ptr thisThread :: hi })
    (hd : decision=s.cache.decision lo.length (r.give ptr thisThread).2) :
    Intact ⟨s'.cache,live.erase ptr,pending⟩
      ⟨t,decision,decision.position.bind fun it => s'.cache.ptrs[it]?,false⟩ := by
  have hsound := h.give_sound hr hm hc thisThread
  have hrows : s'.rows=lo ++ r.give ptr thisThread :: hi := by rw [hs']
  have hshape : s'.Shaped := by
    subst hs'
    intro x hx
    rw [h.blockSize_eq,h.count_eq]
    exact hsound.shaped x hx
  have hget : s'.rows[lo.length]?=some (r.give ptr thisThread) := by rw [hrows,getElem?_mid]
  rw [intact_iff hshape]
  intro it hit
  have hpos : it=lo.length ∧ (decision=.toDispatch it →
      (r.give ptr thisThread).free.length=count) := by
    rw [hd] at hit ⊢
    rcases Shelf.decision_cases s lo.length (r.give ptr thisThread).2 with
      ⟨hd,_⟩ | ⟨hd,hl,_⟩ | ⟨hd,_⟩
    · rw [hd] at hit ⊢
      exact ⟨(Option.some.inj hit).symm,fun hx => Decision.noConfusion hx⟩
    · rw [hd] at hit ⊢
      refine ⟨(Option.some.inj hit).symm,?_⟩
      intro _
      rw [Row.free,List.length_append,hl]
      exact (hsound.shaped (r.give ptr thisThread) (by simp)).2
    · rw [hd] at hit
      cases hit
  obtain ⟨rfl,hfull⟩ := hpos
  refine ⟨rfl,r.give ptr thisThread,hget,?_,?_⟩
  · change decision.position=_ at hit
    change (decision.position.bind fun it => s'.cache.ptrs[it]?)=_
    rw [hit]
    exact Shelf.ptrs_getElem? hrows
  · intro hd
    exact (hsound.perm List.perm_middle).complete_iff.mp (hfull hd)

end Rows

section Steps

variable {T : Type} [DecidableEq T] {owner t : T} {count blockSize : Nat} {s s' : Shelf}
  {w w' : Deferred T} {live : List Nat} {pending : List (Pending T)} {mem ptr : Nat}
  {realloc : Bool}

/-- The invariant of the steps. The counter still counts the blocks of the threads that have not
carried their decision out. -/
structure Inv (count blockSize : Nat) (s : Shelf) (w : Deferred T) : Prop where
  cache : w.cache=s.cache
  stocked : Stocked count blockSize s w.live
  size : s.mySize=w.live.length+w.pending.length
  threads : (w.pending.map Pending.thread).Nodup
  intact : w.AllIntact

/-- What `allocate` does to the decisions. -/
theorem serve_allocate (h : Inv count blockSize s w)
    (hn : serve owner count w t (.allocate mem realloc)=some w') :
    ∃ s' ptr, w'=⟨s'.cache,ptr :: w.live,w.pending.map (outdate (decide w.cache.Grows) realloc)⟩ ∧
      Served s ⟨indices count,mem⟩ s' ptr ∧ w.cache.Fresh mem := by
  obtain ⟨cache,live,pending⟩ := w
  obtain rfl : cache=s.cache := h.cache
  simp only [serve] at hn
  split_ifs at hn with hf
  have hd : s.cache.allocate (⟨indices count,mem⟩ : Supply) ≠ none := by
    intro he
    rw [he] at hn
    cases hn
  obtain ⟨s',ptr,he,hs⟩ := Shelf.supply_of_allocate hd
  rw [he] at hn
  refine ⟨s',ptr,?_,hs,hf.2.2⟩
  have hlen : ∀ x : Shelf, x.cache.ptrs.length=x.rows.length := by simp [Shelf.cache]
  have hg : s.cache.ptrs.length < s'.cache.ptrs.length ↔ s.cache.Grows := by
    rw [hlen,hlen]
    rcases hs.length with ⟨hg,hl⟩ | ⟨hg,hl⟩
    · exact ⟨fun _ => hg,fun _ => by omega⟩
    · exact ⟨fun _ => by omega,fun hx => absurd hx hg⟩
  simp only [← hg]
  exact (Option.some.inj hn).symm

theorem inv_allocate (h : Inv count blockSize s w) (hg : w.Undisturbed (t,.allocate mem realloc))
    (hn : serve owner count w t (.allocate mem realloc)=some w') :
    ∃ s', Inv count blockSize s' w' := by
  obtain ⟨s',ptr,rfl,hs,hf⟩ := serve_allocate h hn
  obtain ⟨cache,live,pending⟩ := w
  obtain rfl : cache=s.cache := h.cache
  have hst' := h.stocked.served hs fun _ => hf
  refine ⟨s',rfl,hst',?_,?_,?_⟩
  · obtain ⟨_,_,hm,_⟩ := hs.core
    have hsize := h.size
    simp only [List.length_cons,List.length_map] at hsize ⊢
    omega
  · rw [List.map_map]
    exact h.threads
  · intro p' hp'
    obtain ⟨p,hp,rfl⟩ := List.mem_map.mp hp'
    obtain ⟨hne,hgrow⟩ := hg p hp
    refine (h.intact p hp).keep h.stocked.shaped hst'.shaped rfl rfl ?_ ?_ ?_
    · intro hpos hstale
      obtain ⟨it,hit⟩ := Option.ne_none_iff_exists'.mp hpos
      simp only [outdate,hstale,Bool.false_or,Bool.and_eq_false_imp,decide_eq_true_eq]
      exact fun hx => (hgrow hx it hit).2
    · exact fun it r hit hr => hs.getElem? hr fun hx => (hgrow hx it hit).1
    · intro it r hd hr q hq
      rcases List.mem_cons.mp hq with rfl | hq
      · right
        intro hc
        obtain ⟨a,ha,hca⟩ := h.stocked.served_contains hs
        obtain rfl := h.stocked.sound.position_unique hr ha hc hca
        exact hne hd
      · exact .inl hq

theorem inv_locate (h : Inv count blockSize s w)
    (hn : serve owner count w t (.locate ptr)=some w') : ∃ s', Inv count blockSize s' w' := by
  obtain ⟨cache,live,pending⟩ := w
  obtain rfl : cache=s.cache := h.cache
  simp only [serve] at hn
  split_ifs at hn with hf
  obtain ⟨hidle,hm⟩ := hf
  have hact : s.act < s.rows.length := by
    have hne : s.cache.locate ptr (decide (t=owner)) ≠ none := by
      intro he
      rw [he] at hn
      cases hn
    exact Shelf.act_lt_of_locate hne
  rcases Shelf.locate_cases h.stocked.shaped hact ptr (decide (t=owner)) with
    ⟨he,_⟩ | ⟨lo,r,hi,hr,hc,he⟩
  · rw [he] at hn
    cases hn
  · rw [he] at hn
    obtain rfl := Option.some.inj hn
    have hsound := h.stocked.give_sound hr hm hc (decide (t=owner))
    have hst' : Stocked count blockSize
        { s with rows := lo ++ r.give ptr (decide (t=owner)) :: hi } (live.erase ptr) :=
      ⟨h.stocked.count_eq,h.stocked.blockSize_eq,hsound⟩
    refine ⟨_,rfl,hst',?_,?_,?_⟩
    · have hsize := h.size
      have hlen := List.length_erase_of_mem hm
      have hpos := List.length_pos_of_mem hm
      simp only [List.length_cons] at hsize ⊢
      omega
    · refine List.nodup_cons.mpr ⟨?_,h.threads⟩
      intro hx
      obtain ⟨p,hp,hpt⟩ := List.mem_map.mp hx
      exact hidle p hp hpt
    · intro p hp
      rcases List.mem_cons.mp hp with rfl | hp
      · exact intact_located h.stocked hr hm hc rfl rfl
      · refine (h.intact p hp).keep h.stocked.shaped hst'.shaped rfl rfl (fun _ => id) ?_
          fun _ _ _ _ q hq => .inl (List.mem_of_mem_erase hq)
        intro it x _ hx
        rw [hr] at hx
        rcases getElem?_mid_cases lo hi r (r.give ptr (decide (t=owner))) hx with
          ⟨rfl,rfl⟩ | ⟨_,hx⟩
        · exact ⟨_,getElem?_mid _ _ _,x.region_give ptr _⟩
        · exact ⟨x,hx,rfl⟩

/-- The decision of a thread, and those of the others. -/
theorem serve_rearrange (h : Inv count blockSize s w)
    (hn : serve owner count w t .rearrange=some w') :
    ∃ p s' others, p ∈ w.pending ∧ p.thread=t ∧ Rearranged s p.decision s' ∧
      w.pending.Perm (p :: others) ∧ (∀ q ∈ w.pending, q ∈ others ↔ q.thread ≠ t) ∧
      w'=⟨s'.cache,w.live,others⟩ := by
  obtain ⟨cache,live,pending⟩ := w
  obtain rfl : cache=s.cache := h.cache
  simp only [serve] at hn
  cases hp : pending.find? fun p => decide (p.thread=t) with
  | none => simp [hp] at hn
  | some p =>
    rw [hp] at hn
    obtain ⟨c,hc,rfl⟩ := Option.map_eq_some_iff.mp hn
    obtain ⟨s',rfl,hs⟩ := Shelf.rearranged_of_some hc
    have hpt : p.thread=t := by simpa using List.find?_some hp
    have hmem := List.mem_of_find?_eq_some hp
    obtain ⟨a,l₁,l₂,hl₁,ha,hsplit,herase⟩ :=
      List.exists_of_eraseP hmem (p := fun p => decide (p.thread=t)) (by simpa using hpt)
    have hat : a.thread=t := of_decide_eq_true ha
    have hthreads := h.threads
    rw [hsplit,List.map_append,List.map_cons,List.nodup_middle] at hthreads
    have hnot := (List.nodup_cons.mp hthreads).1
    rw [hat,← List.map_append] at hnot
    have hother : ∀ q ∈ l₁ ++ l₂, q.thread ≠ t :=
      fun q hq he => hnot (he ▸ List.mem_map_of_mem hq)
    have hap : p=a := by
      have hmem' : p ∈ l₁ ++ a :: l₂ := hsplit ▸ hmem
      rcases List.mem_cons.mp (List.perm_middle.mem_iff.mp hmem') with he | hx
      · exact he
      · exact absurd hpt (hother p hx)
    refine ⟨p,s',_,hmem,hpt,hs,?_,?_,rfl⟩
    · rw [herase,hap]
      simp only [hsplit]
      exact List.perm_middle
    · intro q hq
      rw [herase]
      simp only [hsplit] at hq
      constructor
      · exact hother q
      · intro hne
        rcases List.mem_cons.mp (List.perm_middle.mem_iff.mp hq) with he | hx
        · exact absurd (he ▸ hat) hne
        · exact hx

theorem inv_rearrange (h : Inv count blockSize s w) (hg : w.Undisturbed (t,.rearrange))
    (hn : serve owner count w t .rearrange=some w') : ∃ s', Inv count blockSize s' w' := by
  obtain ⟨p,s',others,hp,hpt,hs,hperm,hothers,rfl⟩ := serve_rearrange h hn
  obtain ⟨cache,live,pending⟩ := w
  obtain rfl : cache=s.cache := h.cache
  obtain ⟨hc,hb,hsize⟩ := hs.fields
  have hsub : ∀ q ∈ others, q ∈ pending := fun q hq => hperm.mem_iff.mpr (List.mem_cons_of_mem _ hq)
  have hst' : Stocked count blockSize s' live := by
    refine ⟨hc.trans h.stocked.count_eq,hb.trans h.stocked.blockSize_eq,
      hs.sound h.stocked.sound ?_⟩
    intro it r hd hr
    obtain ⟨_,x,hx,_,hno⟩ := (intact_iff h.stocked.shaped).mp (h.intact p hp) it (by rw [hd]; rfl)
    obtain rfl : x=r := Option.some.inj (hx.symm.trans hr)
    obtain ⟨lo,hi,hrows,rfl⟩ := eq_mid x hr
    have hs' : Sound count blockSize (x :: (lo ++ hi)) live :=
      h.stocked.sound.perm (hrows ▸ List.perm_middle)
    exact hs'.complete_iff.mpr (hno hd)
  refine ⟨s',rfl,hst',?_,?_,?_⟩
  · have hl := hperm.length_eq
    have hsize' := h.size
    simp only [List.length_cons] at hl hsize' ⊢
    omega
  · exact (List.nodup_cons.mp ((hperm.map Pending.thread).nodup_iff.mp h.threads)).2
  · intro q hq
    have hne := (hothers q (hsub q hq)).mp hq
    refine (h.intact q (hsub q hq)).keep h.stocked.shaped hst'.shaped rfl rfl (fun _ => id) ?_
      fun _ _ _ _ x hx => .inl hx
    intro it r hit hr
    exact ⟨r,hs.getElem? (hg p hp hpt q (hsub q hq) hne it hit) hr,rfl⟩

/-- A block taken from a slab that is to go back, or iterators into vectors that have grown. -/
theorem disturbed_allocate (hc : 0 < count) (h : Inv count blockSize s w)
    (hg : ¬ w.Undisturbed (t,.allocate mem realloc))
    (hn : serve owner count w t (.allocate mem realloc)=some w') : ¬ w'.AllIntact := by
  obtain ⟨s',ptr,rfl,hs,hf⟩ := serve_allocate h hn
  obtain ⟨cache,live,pending⟩ := w
  obtain rfl : cache=s.cache := h.cache
  have hst' := h.stocked.served hs fun _ => hf
  intro hall
  apply hg
  intro p hp
  have hp' := hall _ (List.mem_map_of_mem hp)
  refine ⟨?_,?_⟩
  · intro hd
    have hit : p.decision.position=some s.act := by
      rw [hd]
      rfl
    obtain ⟨r,hr,hm⟩ := (h.intact p hp).row h.stocked.shaped hit
    obtain ⟨_,r',hr',hm',hno⟩ := (intact_iff hst'.shaped).mp hp' s.act (by
      change p.decision.position=_
      rw [hd]
      rfl)
    obtain ⟨a,ha,hca⟩ := h.stocked.served_contains hs
    obtain rfl : r=a := Option.some.inj (hr.symm.trans ha)
    have hmem := List.mem_of_getElem? hr
    have hfst : r'.1=r.1 := Option.some.inj (hm'.symm.trans hm)
    apply hno hd _ List.mem_cons_self
    rw [hst'.sound.region_eq (List.mem_of_getElem? hr'),hfst,← h.stocked.sound.region_eq hmem]
    exact hca
  · intro hgrow it hit
    obtain ⟨hstale,m,hm',hptr,_⟩ := hp' it hit
    have hrealloc : realloc=false := by
      have hor := (Bool.or_eq_false_iff.mp hstale).2
      rw [decide_eq_true hgrow,Bool.true_and] at hor
      exact hor
    refine ⟨?_,hrealloc⟩
    intro h0
    subst h0
    obtain ⟨r,hr,hm⟩ := (h.intact p hp).row h.stocked.shaped hit
    have hmem := List.mem_of_getElem? hr
    have hnew : r.1=mem := by
      have h1 : m=r.1 := Option.some.inj (hm'.symm.trans hm)
      have h2 : m=mem := Option.some.inj (hptr.symm.trans (hs.front hgrow))
      exact h1.symm.trans h2
    have hap := h.stocked.fresh_apart hf hmem
    have hreg := h.stocked.sound.region_eq hmem
    have hcount : 0 < r.region.count := by
      rw [hreg]
      exact hc
    have hcont := Region.contains_block (h.stocked.sound.size_pos hmem) hcount
    have hext : r.region.extent=(mem,blockSize*count) := by
      rw [hreg,hnew]
      rfl
    rw [← hext] at hap
    exact Region.not_contains_of_apart hap hcont hcont

/-- A slab that is moved or taken out under the iterators of another thread. -/
theorem disturbed_rearrange (hc : 0 < count) (h : Inv count blockSize s w)
    (hg : ¬ w.Undisturbed (t,.rearrange)) (hn : serve owner count w t .rearrange=some w') :
    ¬ w'.AllIntact := by
  obtain ⟨p,s',others,hp,hpt,hs,hperm,hothers,rfl⟩ := serve_rearrange h hn
  obtain ⟨cache,live,pending⟩ := w
  obtain rfl : cache=s.cache := h.cache
  intro hall
  apply hg
  intro p' hp' hpt' q hq hne it hit hd
  obtain rfl : p'=p := List.inj_on_of_nodup_map h.threads hp' hp (hpt'.trans hpt.symm)
  obtain ⟨r,hr,hm⟩ := (h.intact q hq).row h.stocked.shaped hit
  obtain ⟨_,m,hm',hptr,_⟩ := hall q ((hothers q hq).mpr hne) it hit
  obtain ⟨r',hr',rfl⟩ := Shelf.exists_ptr hptr
  exact hs.displaced (h.stocked.sound.nodup_mem hc) hd hr hr' (Option.some.inj (hm'.symm.trans hm))

theorem inv_start (h0 : 0 < blockSize) (hw : (machine owner count blockSize).start w) :
    ∃ s, Inv count blockSize s w := by
  obtain ⟨mem,c,hmake,rfl⟩ := hw
  rw [Client.make_eq] at hmake
  obtain ⟨_,hmake⟩ := Prod.mk.inj (Option.some.inj hmake)
  obtain ⟨rfl,_⟩ := Prod.mk.inj hmake
  exact ⟨_,rfl,(Client.first_holds h0 mem).toStocked,rfl,List.nodup_nil,by simp [AllIntact]⟩

/-- A step that disturbs no decision keeps the invariant. -/
theorem inv_next {l : T × Half} (hi : ∃ s, Inv count blockSize s w) (hg : w.Undisturbed l)
    (hn : (machine owner count blockSize).next w l=some w') :
    ∃ s', Inv count blockSize s' w' := by
  obtain ⟨s,hs⟩ := hi
  obtain ⟨t,half⟩ := l
  change serve owner count w t half=some w' at hn
  cases half with
  | allocate mem realloc => exact inv_allocate hs hg hn
  | locate ptr => exact inv_locate hs hn
  | rearrange => exact inv_rearrange hs hg hn

/-- Any other leaves a decision that is out of date. -/
theorem disturbed_next (hc : 0 < count) {l : T × Half} (hi : ∃ s, Inv count blockSize s w)
    (hg : ¬ w.Undisturbed l) (hn : (machine owner count blockSize).next w l=some w') :
    ¬ w'.AllIntact := by
  obtain ⟨s,hs⟩ := hi
  obtain ⟨t,half⟩ := l
  change serve owner count w t half=some w' at hn
  cases half with
  | allocate mem realloc => exact disturbed_allocate hc hs hg hn
  | locate ptr => exact absurd trivial hg
  | rearrange => exact disturbed_rearrange hc hs hg hn

/-- In every interleaving the iterators that threads kept denote the slabs they have looked at, and
slabs to go back hold no live block, exactly as long as no step disturbs the decision of another
thread. -/
theorem allIntact_iff_undisturbed (h0 : 0 < blockSize) (hmin : 2 ≤ count)
    {h : List (Deferred T × (T × Half))} {w : Deferred T}
    (r : (machine owner count blockSize).Run h w) :
    (∀ x ∈ Machine.visited h w, x.AllIntact) ↔ ∀ e ∈ h, e.1.Undisturbed e.2 := by
  have hc : 0 < count := by omega
  exact r.always_iff (fun _ hw => inv_start h0 hw) (fun _ _ _ hi hg hn => inv_next hi hg hn)
    (fun _ ⟨_,hs⟩ => hs.intact) fun _ _ _ hi hg hn => disturbed_next hc hi hg hn

end Steps

/-- Slabs of two blocks and two foreign threads, each about to move a slab of its own. -/
theorem allIntact_iff_undisturbed_two_threads :
    ∃ (h : List (Deferred Nat × (Nat × Half))) (w : Deferred Nat),
      (w.cache.ptrs=[200,100] ∧ w.pending.map Pending.decision=[.splice 1]) ∧
        ((∀ x ∈ Machine.visited h w, x.AllIntact) ↔ ∀ e ∈ h, e.1.Undisturbed e.2) := by
  obtain ⟨w,⟨h,r⟩,hw⟩ := Machine.reachable_of_runFrom (machine (0 : Nat) 2 8)
    ⟨(Client.first 2 8 100).cache,[],[]⟩
    [(0,.allocate 0 false),(0,.allocate 200 true),(1,.locate 100),(1,.rearrange),(2,.locate 108)]
    (fun w => w.cache.ptrs=[200,100] ∧ w.pending.map Pending.decision=[.splice 1])
    ⟨100,_,Client.make_eq 2 8 100,rfl⟩ (by decide)
  exact ⟨h,w,hw,allIntact_iff_undisturbed (by decide) (by decide) r⟩

/-- A slab found empty, from which the owner takes a block before it is given back. -/
theorem emptied_slab_is_used_again :
    ∃ w : Deferred Nat, (machine (0 : Nat) 2 8).Reachable w ∧ ¬ w.AllIntact := by
  obtain ⟨w,hr,hp,hl,hc⟩ := Machine.reachable_of_runFrom (machine (0 : Nat) 2 8)
    ⟨(Client.first 2 8 100).cache,[],[]⟩
    [(0,.allocate 0 false),(0,.allocate 200 true),(0,.allocate 0 false),(1,.locate 200),
      (0,.allocate 0 false)]
    (fun w => (w.pending.map fun p => (p.decision,p.mem))=[(.toDispatch 0,some 200)] ∧
      208 ∈ w.live ∧ w.cache.blockSize=8 ∧ w.cache.count=2)
    ⟨100,_,Client.make_eq 2 8 100,rfl⟩ (by decide)
  refine ⟨w,hr,?_⟩
  intro h
  obtain ⟨p,hpm,he⟩ := List.map_eq_singleton_iff.mp hp
  obtain ⟨hd,hmem⟩ := Prod.mk.inj he
  obtain ⟨_,m,hm,_,hno⟩ := h p (by simp [hpm]) 0 (by rw [hd]; rfl)
  obtain rfl : m=200 := Option.some.inj (hm.symm.trans hmem)
  have hf := hno hd 208 hl
  rw [hc.1,hc.2] at hf
  exact absurd hf (by decide)

end Deferred

end Allocators.SlabMulti
