import Allocators.SlabMulti.Representation

/-! Slabs moved in front of the active block, and whether the owner can pop from them later. -/

namespace Allocators.SlabMulti

open Lib Vector Extent

/-- A client, and the memory of the slabs that `spliceBoth` moved in front of the active block and
that have not been active before the last call. -/
structure Watch where
  client : Client
  moved : List Nat

/-- The slab behind the active one that the pointer lies in holds at most one block more than
`threshold`, and nothing in its `availible`. -/
def Cache.MovesUnpoppable (c : Cache) (ptr : Nat) : Prop :=
  ∃ i slab mem, c.slabs[i]?=some slab ∧ c.ptrs[i]?=some mem ∧
    Slab.containsMem ptr mem c.blockSize c.count=true ∧ c.actBlock < i ∧
    slab.size ≤ c.threshold+1 ∧ slab.availible=[]

/-- The call is no foreign free that moves a slab without an index for the owner. -/
def Cache.MovesPoppable (c : Cache) : Call → Prop
  | .allocate _ => True
  | .deallocate ptr thisThread => thisThread=true ∨ ¬ c.MovesUnpoppable ptr

namespace Watch

/-- The memory of the slab that a call moves in front of the active block. -/
def spliced (k : Client) : Call → List Nat
  | .allocate _ => []
  | .deallocate ptr thisThread =>
    match k.cache.locate ptr thisThread with
    | some (c,some (.splice it)) => c.ptrs[it]?.toList
    | _ => []

def serve (count : Nat) (w : Watch) (c : Call) : Option Watch :=
  (Client.serve count w.client c).map fun k =>
    ⟨k,(spliced w.client c ++ w.moved).filter fun mem =>
      decide (mem ∈ k.cache.ptrs ∧ w.client.cache.ptrs[w.client.cache.actMem]? ≠ some mem)⟩

def machine (count blockSize : Nat) : Machine Watch Call where
  start w := (Client.machine count blockSize fun _ => True).start w.client ∧ w.moved=[]
  next := serve count

/-- The owner can pop from every slab that was moved, also when it has just become active. -/
def Poppable (w : Watch) : Prop :=
  ∀ (i mem : Nat) (slab : Slab), w.client.cache.slabs[i]?=some slab →
    w.client.cache.ptrs[i]?=some mem → mem ∈ w.moved → slab.availible ≠ []

/-- The same of the rows of a cache. -/
def PoppableRows (s : Shelf) (moved : List Nat) : Prop :=
  ∀ r ∈ s.rows, r.1 ∈ moved → r.2.availible ≠ []

theorem poppable_iff (s : Shelf) (live moved : List Nat) :
    Poppable ⟨⟨s.cache,live⟩,moved⟩ ↔ PoppableRows s moved := by
  constructor
  · intro h r hr hm
    obtain ⟨i,hi,rfl⟩ := List.getElem_of_mem hr
    have hget := List.getElem?_eq_getElem hi
    exact h i _ _ (by simp [Shelf.cache,hget]) (by simp [Shelf.cache,hget]) hm
  · intro h i mem slab hs hp hm
    obtain ⟨r,hr,rfl,rfl⟩ := Shelf.exists_row hs hp
    exact h r (List.mem_of_getElem? hr) hm

/-- A moved slab onto which `allocate` has just stepped back can serve. -/
theorem Poppable.canServe {s : Shelf} {live moved : List Nat} {r : Row}
    (h : Poppable ⟨⟨s.cache,live⟩,moved⟩) (hr : s.rows[s.act]?=some r) (hm : r.1 ∈ moved) :
    s.cache.CanServe := by
  refine ⟨r.2,by simp [Shelf.cache,hr],?_⟩
  exact (poppable_iff s live moved).mp h r (List.mem_of_getElem? hr) hm

section Steps

variable {count blockSize mem ptr : Nat} {s s' : Shelf} {live moved : List Nat}
  {lo hi : List Row} {r : Row} {thisThread : Bool}

theorem served (h : PoppableRows s moved) (hs : Served s ⟨indices count,mem⟩ s' ptr)
    (hc : 0 < count) :
    PoppableRows s' (moved.filter fun mem =>
      decide (mem ∈ s'.cache.ptrs ∧ s.cache.ptrs[s.cache.actMem]? ≠ some mem)) := by
  obtain ⟨_,_,_,_,r,r',rest,idx,hr,hp,hreg,_,_,hrows⟩ := hs.core
  have hact : s.cache.ptrs[s.cache.actMem]?=some r.1 := by simp [Shelf.cache,hr]
  have hfst : r'.1=r.1 := congrArg Region.base hreg
  intro t ht hm
  obtain ⟨hm,hne⟩ := List.mem_filter.mp hm
  obtain ⟨_,hne⟩ := of_decide_eq_true hne
  rw [hact] at hne
  have hold : ∀ t ∈ r' :: rest, t.1 ∈ moved → some r.1 ≠ some t.1 → t.2.availible ≠ [] := by
    intro t ht hm hne
    rcases List.mem_cons.mp ht with rfl | ht
    · exact absurd (congrArg some hfst.symm) hne
    · exact h t (hp.mem_iff.mpr (List.mem_cons_of_mem _ ht)) hm
  rcases hrows with hrows | ⟨_,hrows⟩
  · exact hold t (hrows.mem_iff.mp ht) hm hne
  · rcases List.mem_cons.mp (hrows.mem_iff.mp ht) with rfl | ht
    · intro he
      have hl := length_indices count
      simp only at he
      rw [he] at hl
      simp only [List.length_nil] at hl
      omega
    · exact hold t ht hm hne

/-- What the call moves, as the decision says. -/
theorem spliced_eq (h : Holds count blockSize s live)
    (hr : Returned s ptr thisThread s' lo r hi) :
    spliced ⟨s.cache,live⟩ (.deallocate ptr thisThread)=
      if (r.give ptr thisThread).2.size ≤ s.count/4 ∧ s.act < lo.length then [r.1] else [] := by
  have hl := h.locate_eq hr.rows hr.contains thisThread
  have hp : ({ s with rows := lo ++ r.give ptr thisThread :: hi : Shelf }).cache.ptrs[lo.length]?=
      some r.1 := Shelf.ptrs_getElem? (r := r.give ptr thisThread) rfl
  rcases Shelf.decision_cases s lo.length (r.give ptr thisThread).2 with
    ⟨he,hs⟩ | ⟨he,_,_,_,hs⟩ | ⟨he,hs,_⟩
  · rw [if_pos hs]
    simp only [spliced,hl,he,hp,Option.toList_some]
  · rw [if_neg hs]
    simp only [spliced,hl,he]
  · rw [if_neg hs]
    simp only [spliced,hl,he]

/-- The row that was freed into is the only one with its memory. -/
theorem eq_give (h : Holds count blockSize s live) (hc : 0 < count)
    (hr : Returned s ptr thisThread s' lo r hi) {t : Row}
    (ht : t ∈ lo ++ r.give ptr thisThread :: hi) (he : t.1=r.1) : t=r.give ptr thisThread := by
  have hnd : s.cache.ptrs.Nodup := h.sound.nodup_mem hc
  rw [← hr.map_fst] at hnd
  exact List.inj_on_of_nodup_map hnd ht (by simp) he

theorem give_ne_nil (hr : r.2.availible ≠ []) : (r.give ptr thisThread).2.availible ≠ [] := by
  cases thisThread with
  | true => simp [Row.give,Slab.deallocate]
  | false => exact hr

theorem returned (hp : PoppableRows s moved) (h : Holds count blockSize s live) (hc : 0 < count)
    (hr : Returned s ptr thisThread s' lo r hi)
    (hg : (r.give ptr thisThread).2.size ≤ s.count/4 → s.act < lo.length →
      (r.give ptr thisThread).2.availible ≠ []) :
    PoppableRows s' ((spliced ⟨s.cache,live⟩ (.deallocate ptr thisThread) ++ moved).filter
      fun mem => decide (mem ∈ s'.cache.ptrs ∧ s.cache.ptrs[s.cache.actMem]? ≠ some mem)) := by
  intro t ht hm
  have hmem := hr.mem_rows ht
  rcases List.mem_append.mp (List.mem_filter.mp hm).1 with hm | hm
  · rw [spliced_eq h hr] at hm
    split_ifs at hm with hs
    · rw [eq_give h hc hr hmem (List.mem_singleton.mp hm)]
      exact hg hs.1 hs.2
    · exact absurd hm List.not_mem_nil
  · rcases List.mem_append.mp hmem with hmem | hmem
    · exact hp t (by simp [hr.rows,hmem]) hm
    · rcases List.mem_cons.mp hmem with rfl | hmem
      · exact give_ne_nil (hp r (by simp [hr.rows]) hm)
      · exact hp t (by simp [hr.rows,hmem]) hm

/-- The condition on the state before the call. -/
theorem movesUnpoppable_iff (h : Holds count blockSize s live) (hm : ptr ∈ live)
    (hr : Returned s ptr thisThread s' lo r hi) :
    s.cache.MovesUnpoppable ptr ↔
      (r.give ptr thisThread).2.size ≤ s.count/4 ∧ s.act < lo.length ∧ r.2.availible=[] := by
  have hsize := size_give h hm hr
  constructor
  · rintro ⟨i,slab,mem,hslab,hmem,hcm,hlt,hle,hnil⟩
    obtain ⟨rfl,rfl,rfl⟩ := found_unique h hr hslab hmem hcm
    have hle' : r.2.size ≤ s.count/4+1 := hle
    exact ⟨by omega,hlt,hnil⟩
  · rintro ⟨hle,hlt,hnil⟩
    refine ⟨lo.length,r.2,r.1,Shelf.slabs_getElem? hr.rows,Shelf.ptrs_getElem? hr.rows,?_,hlt,?_,
      hnil⟩
    · exact (Shelf.containsMem_iff h.shaped (by simp [hr.rows])).mpr hr.contains
    · change r.2.size ≤ s.count/4+1
      omega

/-- A slab moved without an index for the owner is seen at once. -/
theorem not_poppable (h : Holds count blockSize s live) (hc : 0 < count) (hm : ptr ∈ live)
    (hr : Returned s ptr false s' lo r hi) (hg : s.cache.MovesUnpoppable ptr) :
    ¬ PoppableRows s' ((spliced ⟨s.cache,live⟩ (.deallocate ptr false) ++ moved).filter
      fun mem => decide (mem ∈ s'.cache.ptrs ∧ s.cache.ptrs[s.cache.actMem]? ≠ some mem)) := by
  obtain ⟨hle,hlt,hnil⟩ := (movesUnpoppable_iff h hm hr).mp hg
  have hre := hr.rearranged
  have hmem : r.give ptr false ∈ s'.rows := by
    rcases Shelf.decision_cases s lo.length (r.give ptr false).2 with
      ⟨he,_⟩ | ⟨_,_,_,_,hs⟩ | ⟨_,hs,_⟩
    · rw [he] at hre
      rcases hre.core with ⟨_,hp⟩ | ⟨it,_,hd,_⟩
      · exact hp.mem_iff.mpr (by simp)
      · exact Decision.noConfusion hd
    · exact absurd ⟨hle,hlt⟩ hs
    · exact absurd ⟨hle,hlt⟩ hs
  intro hp
  refine hp _ hmem (List.mem_filter.mpr ⟨?_,decide_eq_true ⟨?_,?_⟩⟩) hnil
  · rw [spliced_eq h hr,if_pos ⟨hle,hlt⟩]
    simp [Row.give]
  · exact List.mem_map_of_mem hmem
  · intro hact
    have hnd : s.cache.ptrs.Nodup := h.sound.nodup_mem hc
    have hl : s.cache.ptrs[lo.length]?=some r.1 := Shelf.ptrs_getElem? hr.rows
    have hlt' : s.cache.actMem < s.cache.ptrs.length := by
      simpa [Shelf.cache] using h.act
    have he := (List.getElem?_inj hlt' hnd).mp (hact.trans hl.symm)
    have hact' : s.act=lo.length := he
    omega

/-- The invariant of the watched calls. -/
def Inv (count blockSize : Nat) (w : Watch) : Prop :=
  ∃ s : Shelf, w.client.cache=s.cache ∧ Holds count blockSize s w.client.live ∧
    PoppableRows s w.moved

theorem inv_next (hc : 0 < count) {w w' : Watch} {c : Call} (h : Inv count blockSize w)
    (hg : w.client.cache.MovesPoppable c) (hn : (machine count blockSize).next w c=some w') :
    Inv count blockSize w' := by
  obtain ⟨s,hk,hs,hp⟩ := h
  obtain ⟨⟨cache,live⟩,moved⟩ := w
  simp only at hk hs hg hp
  subst hk
  obtain ⟨k,hk,rfl⟩ := Option.map_eq_some_iff.mp hn
  cases c with
  | allocate mem =>
    obtain ⟨s',ptr,rfl,hserved,hf⟩ := Client.serve_allocate hk
    exact ⟨s',rfl,hs.served hserved fun _ => hf,served hp hserved hc⟩
  | deallocate ptr thisThread =>
    obtain ⟨hm,s',lo,r,hi,rfl,hr⟩ := Client.serve_deallocate hs hk
    refine ⟨s',rfl,hs.returned hm hr,returned hp hs hc hr ?_⟩
    intro hle hlt
    rcases hg with rfl | hg
    · simp [Row.give,Slab.deallocate]
    · refine give_ne_nil fun hnil => hg ?_
      exact (movesUnpoppable_iff hs hm hr).mpr ⟨hle,hlt,hnil⟩

theorem stuck_next (hc : 0 < count) {w w' : Watch} {c : Call} (h : Inv count blockSize w)
    (hg : ¬ w.client.cache.MovesPoppable c) (hn : (machine count blockSize).next w c=some w') :
    ¬ w'.Poppable := by
  obtain ⟨s,hk,hs,hp⟩ := h
  obtain ⟨⟨cache,live⟩,moved⟩ := w
  simp only at hk hs hg hp
  subst hk
  obtain ⟨k,hk,rfl⟩ := Option.map_eq_some_iff.mp hn
  cases c with
  | allocate mem => exact absurd trivial hg
  | deallocate ptr thisThread =>
    obtain ⟨hm,s',lo,r,hi,rfl,hr⟩ := Client.serve_deallocate hs hk
    obtain ⟨hown,hmove⟩ := not_or.mp hg
    obtain rfl : thisThread=false := by simpa using hown
    rw [poppable_iff]
    exact not_poppable hs hc hm hr (not_not.mp hmove)

end Steps

variable {count blockSize : Nat}

/-- In a run of owner and foreign calls the owner can pop from every slab that was moved in front
of the active block exactly when no foreign free moves a slab whose `availible` is empty. -/
theorem poppable_iff_movesPoppable (h0 : 0 < blockSize) (hmin : 2 ≤ count)
    {h : List (Watch × Call)} {w : Watch} (r : (machine count blockSize).Run h w) :
    (∀ t ∈ Machine.visited h w, t.Poppable) ↔
      ∀ e ∈ h, e.1.client.cache.MovesPoppable e.2 := by
  have hc : 0 < count := by omega
  refine r.always_iff ?_ (fun _ _ _ hi hg hn => inv_next hc hi hg hn)
    ?_ (fun _ _ _ hi hg hn => stuck_next hc hi hg hn)
  · intro w hw
    obtain ⟨hk,hm⟩ := hw
    obtain ⟨mem,hk⟩ := Client.start_cases hk
    refine ⟨_,by rw [hk],?_,?_⟩
    · rw [hk]
      exact Client.first_holds h0 mem
    · intro r _ hr
      rw [hm] at hr
      exact absurd hr List.not_mem_nil
  · intro w hw
    obtain ⟨s,hk,hs,hp⟩ := hw
    obtain ⟨⟨cache,live⟩,moved⟩ := w
    simp only at hk hp
    subst hk
    exact (poppable_iff s live moved).mpr hp

/-- A slab of four of which the owner gave two blocks back and another thread the other two. -/
theorem poppable_iff_movesPoppable_shared :
    ∃ (h : List (Watch × Call)) (w : Watch),
      (w.moved=[100] ∧ w.client.cache.ptrs=[100,200]) ∧
        ((∀ t ∈ Machine.visited h w, t.Poppable) ↔
          ∀ e ∈ h, e.1.client.cache.MovesPoppable e.2) := by
  obtain ⟨w,⟨h,r⟩,hw⟩ := Machine.reachable_of_runFrom (machine 4 8)
    ⟨⟨(Client.first 4 8 100).cache,[]⟩,[]⟩
    [.allocate 0,.allocate 0,.allocate 0,.allocate 200,.deallocate 100 true,.deallocate 108 false,
      .deallocate 116 false]
    (fun w => w.moved=[100] ∧ w.client.cache.ptrs=[100,200])
    ⟨⟨100,_,Client.make_eq 4 8 100,rfl⟩,rfl⟩ (by decide)
  exact ⟨h,w,hw,poppable_iff_movesPoppable (by decide) (by decide) r⟩

/-- Two blocks of a full slab come back from another thread: the slab is moved with nothing in its
`availible`. -/
theorem foreign_frees_move_unpoppable :
    ∃ w : Watch, (machine 2 8).Reachable w ∧ ¬ w.Poppable := by
  obtain ⟨w,hr,hs,hp,hm⟩ := Machine.reachable_of_runFrom (machine 2 8)
    ⟨⟨(Client.first 2 8 100).cache,[]⟩,[]⟩
    [.allocate 0,.allocate 200,.deallocate 100 false,.deallocate 108 false]
    (fun w => w.client.cache.slabs[0]?=some ⟨8,2,[],[0,1]⟩ ∧ w.client.cache.ptrs[0]?=some 100 ∧
      100 ∈ w.moved)
    ⟨⟨100,_,Client.make_eq 2 8 100,rfl⟩,rfl⟩ (by decide)
  exact ⟨w,hr,fun h => h 0 100 _ hs hp hm rfl⟩

end Watch

end Allocators.SlabMulti
