import Allocators.SlabMulti.Client

/-! When the active slab of a cache used by its owner alone can always serve. -/

namespace Allocators.SlabMulti

open Lib Vector Extent

/-- The calls of the owner. -/
def Call.ByOwner : Call → Prop
  | .allocate _ => True
  | .deallocate _ thisThread => thisThread=true

instance : DecidablePred Call.ByOwner
  | .allocate _ => inferInstanceAs (Decidable True)
  | .deallocate _ b => inferInstanceAs (Decidable (b=true))

/-- The pointer is the only live block of the active slab, the cache has other slabs, and more
blocks are in use than those can hold. -/
def Cache.EmptiesActive (c : Cache) (ptr : Nat) : Prop :=
  ∃ slab mem, c.slabs[c.actBlock]?=some slab ∧ c.ptrs[c.actMem]?=some mem ∧
    Slab.containsMem ptr mem c.blockSize c.count=true ∧ slab.size=1 ∧
    minSlabs < c.slabs.length ∧ c.myCapacity-c.count < c.mySize

/-- The call does not give the active slab back to the dispatcher. -/
def Cache.KeepsActive (c : Cache) : Call → Prop
  | .allocate _ => True
  | .deallocate ptr _ => ¬ c.EmptiesActive ptr

/-- Without other threads nothing is foreign, and the owner can work its way to the front. -/
structure Ready (s : Shelf) : Prop where
  own : ∀ r ∈ s.rows, r.2.foreigns=[]
  front : ∀ (i : Nat) (r : Row), i ≤ s.act → s.rows[i]?=some r → r.2.availible ≠ []

namespace Ready

variable {count blockSize mem ptr : Nat} {s s' : Shelf} {live : List Nat} {lo hi : List Row}
  {r : Row}

theorem canServe (h : Ready s) (hact : s.act < s.rows.length) : s.cache.CanServe := by
  obtain ⟨lo,r,hi,hr,ha⟩ := Shelf.exists_active hact
  refine (Shelf.canServe_iff hr ha).mpr (h.front lo.length r ha.ge ?_)
  rw [hr,getElem?_mid]

theorem indices_ne_nil (hc : 0 < count) : indices count ≠ [] := by
  intro he
  have hl := length_indices count
  rw [he] at hl
  simp only [List.length_nil] at hl
  omega

theorem first (hc : 0 < count) (blockSize mem : Nat) :
    Ready (Client.first count blockSize mem) := by
  refine ⟨by simp [Client.first],?_⟩
  intro i r hi hr
  obtain rfl : i=0 := Nat.le_zero.mp hi
  obtain rfl : (mem,⟨blockSize,count,indices count,[]⟩)=r := by simpa [Client.first] using hr
  exact indices_ne_nil hc

/-- A row may change as long as it stays the owner's; in front it must be able to serve. -/
theorem replace (h : Ready s) (hr : s.rows=lo ++ r :: hi) (x : Row) (hx : x.2.foreigns=[])
    {act mySize : Nat} (hact : act ≤ s.act) (hne : lo.length ≤ act → x.2.availible ≠ []) :
    Ready { s with rows := lo ++ x :: hi, act := act, mySize := mySize } := by
  refine ⟨?_,?_⟩
  · intro t ht
    rcases List.mem_append.mp ht with ht | ht
    · exact h.own t (by simp [hr,ht])
    · rcases List.mem_cons.mp ht with rfl | ht
      · exact hx
      · exact h.own t (by simp [hr,ht])
  · intro i t hi' ht
    rcases getElem?_mid_cases lo hi x r ht with ⟨rfl,rfl⟩ | ⟨_,ht⟩
    · exact hne hi'
    · exact h.front i t (hi'.trans hact) (hr ▸ ht)

theorem served (h : Ready s) (hc : 0 < s.count) (hd : Served s ⟨indices s.count,mem⟩ s' ptr) :
    Ready s' := by
  cases hd with
  | @stay lo hi r availible idx hr ha he hne =>
    exact h.replace hr (r.1,{ r.2 with availible := availible }) (h.own r (by simp [hr])) le_rfl
      fun _ => hne
  | @merge lo hi r idx hr ha he hf => exact absurd (h.own r (by simp [hr])) hf
  | @back lo hi r idx hr ha he hf hlo =>
    have h0 : lo.length ≠ 0 := by simpa using hlo
    refine h.replace hr (r.1,{ r.2 with availible := [] }) hf (Nat.sub_le _ _) ?_
    intro hle
    omega
  | @grow hi r idx hr ha he hf =>
    refine ⟨?_,?_⟩
    · intro t ht
      rcases List.mem_cons.mp ht with rfl | ht
      · rfl
      · rcases List.mem_append.mp ht with ht | ht
        · exact h.own t (by simp [hr,ht])
        · obtain rfl := List.mem_singleton.mp ht
          exact hf
    · intro i t hi' ht
      simp only [ha,Nat.le_zero] at hi'
      subst hi'
      obtain rfl := Option.some.inj ht
      exact indices_ne_nil hc

/-- The rows after an index came back to one of them. -/
theorem give (h : Ready s) (hr : s.rows=lo ++ r :: hi) (ptr : Nat) :
    Ready { s with rows := lo ++ r.give ptr true :: hi } :=
  h.replace hr (r.give ptr true) (h.own r (by simp [hr])) le_rfl
    fun _ => by simp [Row.give,Slab.deallocate]

end Ready

section Empties

variable {count blockSize ptr : Nat} {s s' : Shelf} {live : List Nat} {lo hi : List Row} {r : Row}

/-- When a slab is given back, all others are full. -/
theorem others_full (h : Holds count blockSize s live) (hr : s.rows=lo ++ r :: hi)
    (hf : r.free.length+1=count) (hm : s.count*s.rows.length-s.count < s.mySize) :
    ∀ t ∈ lo ++ hi, t.free=[] := by
  have hp : s.rows.Perm (r :: (lo ++ hi)) := hr ▸ List.perm_middle
  have hb := (h.sound.perm hp).balance
  have hl := hp.length_eq
  simp only [List.length_cons] at hl
  rw [h.count_eq,h.size,hl,Nat.mul_add,Nat.mul_one,Nat.add_sub_cancel] at hm
  simp only [List.map_cons,List.sum_cons,List.length_cons,Nat.mul_add,Nat.mul_one] at hb
  have h0 : ((lo ++ hi).map fun r => r.free.length).sum=0 := by omega
  intro t ht
  have ht0 := List.sum_eq_zero_iff.mp h0 _ (List.mem_map_of_mem ht)
  exact List.length_eq_zero_iff.mp ht0

/-- A slab goes back to the dispatcher only when all others are full. -/
theorem returned_full (h : Holds count blockSize s live) (hr : Returned s ptr true s' lo r hi)
    {it : Nat} (hd : s.cache.decision lo.length (r.give ptr true).2=.toDispatch it) :
    it=lo.length ∧ r.free.length+1=count ∧ 1 < s.rows.length ∧
      s.count*s.rows.length-s.count < s.mySize := by
  obtain ⟨hit,hl,hone,hm,_⟩ := Shelf.toDispatch_of_decision hd
  refine ⟨hit,?_,hone,hm⟩
  rw [← Row.length_give r ptr true,hl,r.count_give]
  exact (h.sound.shaped r (by simp [hr.rows])).2

theorem Ready.returned (h : Ready s) (hh : Holds count blockSize s live)
    (hr : Returned s ptr true s' lo r hi) (hk : ¬ s.cache.EmptiesActive ptr) : Ready s' := by
  have hg := h.give hr.rows ptr
  have hre := hr.rearranged
  cases hd : s.cache.decision lo.length (r.give ptr true).2 with
  | nothing =>
    rw [hd] at hre
    cases hre
    exact ⟨hg.own,hg.front⟩
  | splice it =>
    rw [hd] at hre
    cases hre with
    | splice hle hlt =>
      have hx := List.getElem?_eq_getElem hlt
      obtain ⟨hit,_,hact⟩ := Shelf.splice_of_decision hd
      refine ⟨fun t ht => hg.own t ((moveBefore_perm hle hx).mem_iff.mp ht),?_⟩
      intro i t hi' ht
      simp only at hi' ht hx hle
      rw [getElem?_moveBefore hle hx] at ht
      split_ifs at ht with h1 h2 h3
      · exact hg.front i t h1.le ht
      · have hxe : some t=some (r.give ptr true) := by
          rw [← ht,← hx,hit]
          exact getElem?_mid _ _ _
        rw [Option.some.inj hxe]
        simp [Row.give,Slab.deallocate]
      · exact hg.front (i-1) t (by simp only; omega) ht
      · omega
  | toDispatch it =>
    exfalso
    obtain ⟨_,hfree,hone,hm⟩ := returned_full hh hr hd
    obtain ⟨A,a,B,ha,hact⟩ := Shelf.exists_active hh.act
    have haget : s.rows[A.length]?=some a := by rw [ha,getElem?_mid]
    by_cases hlo : A.length=lo.length
    · have har : a=r := by
        rw [hr.rows,hlo,getElem?_mid] at haget
        exact (Option.some.inj haget).symm
      refine hk ⟨a.2,a.1,Shelf.active_slab ha hact,Shelf.active_ptr ha hact,?_,?_,?_,hm⟩
      · rw [har]
        exact (Shelf.containsMem_iff hh.shaped (by simp [hr.rows])).mpr hr.contains
      · have hc := (hh.sound.shaped r (by simp [hr.rows])).2
        rw [har,Slab.size,hc,← hfree,Row.free,List.length_append]
        omega
      · simpa [Shelf.cache,Cache.minSlabs] using hone
    · have hmem : a ∈ lo ++ hi := by
        rw [hr.rows] at haget
        exact mem_append_of_getElem? lo hi r haget hlo
      have hnil := others_full hh hr.rows hfree hm a hmem
      exact h.front A.length a hact.ge haget (List.append_eq_nil_iff.mp hnil).1

/-- Giving the active slab back leaves a full one active. -/
theorem not_canServe_of_empties (h : Holds count blockSize s live)
    (hr : Returned s ptr true s' lo r hi) (he : s.cache.EmptiesActive ptr) :
    ¬ s'.cache.CanServe := by
  obtain ⟨slab,mem,hslab,hmem,hc,hsize,hone,hm⟩ := he
  obtain ⟨hlo,rfl,rfl⟩ := found_unique h hr hslab hmem hc
  have hact : s.act=lo.length := hlo
  have hcount : r.2.count=count := (h.sound.shaped r (by simp [hr.rows])).2
  have hfree : r.free.length+1=count := by
    rw [Slab.size,hcount] at hsize
    rw [Row.free,List.length_append]
    omega
  have hone' : 1 < s.rows.length := by simpa [Shelf.cache,Cache.minSlabs] using hone
  have hd : s.cache.decision lo.length (r.give ptr true).2=.toDispatch s.act := by
    rcases Shelf.decision_cases s lo.length (r.give ptr true).2 with
      ⟨_,_,hlt⟩ | ⟨he,_⟩ | ⟨_,_,hno⟩
    · omega
    · rw [he,hact]
    · refine absurd ⟨?_,hone',hm⟩ hno
      rw [Row.length_give,hfree,r.count_give,hcount]
  have hre := hr.rearranged
  rw [hd] at hre
  have hact' := hr.act_lt h.act
  obtain ⟨A',t,B',ht,hta⟩ := Shelf.exists_active hact'
  rw [Shelf.canServe_iff ht hta]
  have hperm : s'.rows.Perm (lo ++ hi) := by
    have hx : (lo ++ r.give ptr true :: hi)[s.act]?=some (r.give ptr true) := by
      rw [hact,getElem?_mid]
    rcases hre.core with ⟨hn,_⟩ | ⟨it,x,hit,hxx,hp⟩
    · exact absurd rfl (hn s.act)
    · obtain rfl := Decision.toDispatch.inj hit
      rw [hx] at hxx
      obtain rfl := Option.some.inj hxx
      exact (hp.trans List.perm_middle).cons_inv
  have hnil := others_full h hr.rows hfree hm t (hperm.mem_iff.mp (by simp [ht]))
  simpa using (List.append_eq_nil_iff.mp hnil).1

end Empties

namespace Client

variable {count blockSize : Nat}

/-- The invariant of the owner's calls. -/
def Serving (count blockSize : Nat) (k : Client) : Prop :=
  ∃ s : Shelf, k.cache=s.cache ∧ Holds count blockSize s k.live ∧ Ready s

theorem serving_next (hc : 0 < count) {k k' : Client} {c : Call} (h : Serving count blockSize k)
    (hg : k.cache.KeepsActive c)
    (hn : (machine count blockSize Call.ByOwner).next k c=some k') :
    Serving count blockSize k' := by
  obtain ⟨s,hk,hs,hready⟩ := h
  obtain ⟨cache,live⟩ := k
  simp only at hk hs hg
  subst hk
  obtain ⟨hown,hn⟩ := next_allowed hn
  cases c with
  | allocate mem =>
    obtain ⟨s',ptr,rfl,hserved,hf⟩ := serve_allocate hn
    have hc' : 0 < s.count := by rw [hs.count_eq]; exact hc
    exact ⟨s',rfl,hs.served hserved fun _ => hf,hready.served hc' (hs.count_eq ▸ hserved)⟩
  | deallocate ptr thisThread =>
    obtain rfl : thisThread=true := hown
    obtain ⟨hm,s',lo,r,hi,rfl,hr⟩ := serve_deallocate hs hn
    exact ⟨s',rfl,hs.returned hm hr,hready.returned hs hr hg⟩

theorem stuck_next {k k' : Client} {c : Call} (h : Serving count blockSize k)
    (hg : ¬ k.cache.KeepsActive c)
    (hn : (machine count blockSize Call.ByOwner).next k c=some k') : ¬ k'.cache.CanServe := by
  obtain ⟨s,hk,hs,_⟩ := h
  obtain ⟨cache,live⟩ := k
  simp only at hk hs hg
  subst hk
  obtain ⟨hown,hn⟩ := next_allowed hn
  cases c with
  | allocate mem => exact absurd trivial hg
  | deallocate ptr thisThread =>
    obtain rfl : thisThread=true := hown
    obtain ⟨hm,s',lo,r,hi,rfl,hr⟩ := serve_deallocate hs hn
    exact not_canServe_of_empties hs hr (not_not.mp hg)

/-- In a run of the owner's calls the active slab can always serve exactly when no call gives the
active slab back to the dispatcher. -/
theorem canServe_iff_keepsActive (h0 : 0 < blockSize) (hmin : 2 ≤ count)
    {h : List (Client × Call)} {k : Client} (r : (machine count blockSize Call.ByOwner).Run h k) :
    (∀ t ∈ Machine.visited h k, t.cache.CanServe) ↔ ∀ e ∈ h, e.1.cache.KeepsActive e.2 := by
  have hc : 0 < count := by omega
  refine r.always_iff ?_ (fun _ _ _ hi hg hn => serving_next hc hi hg hn)
    ?_ (fun _ _ _ hi hg hn => stuck_next hi hg hn)
  · intro k hk
    obtain ⟨mem,rfl⟩ := start_cases hk
    exact ⟨_,rfl,first_holds h0 mem,Ready.first hc blockSize mem⟩
  · intro k hk
    obtain ⟨s,hk,hs,hready⟩ := hk
    rw [hk]
    exact hready.canServe hs.act

/-- Two slabs, both in use, and a block of the first one given back. -/
theorem canServe_iff_keepsActive_spliced :
    ∃ (h : List (Client × Call)) (k : Client),
      (k.cache.ptrs=[100,200] ∧ k.cache.actBlock=1) ∧
        ((∀ t ∈ Machine.visited h k, t.cache.CanServe) ↔
          ∀ e ∈ h, e.1.cache.KeepsActive e.2) := by
  obtain ⟨k,⟨h,r⟩,hk⟩ := Machine.reachable_of_runFrom (machine 4 8 Call.ByOwner)
    ⟨(first 4 8 100).cache,[]⟩
    [.allocate 0,.allocate 0,.allocate 0,.allocate 200,.deallocate 100 true,.deallocate 108 true,
      .deallocate 116 true]
    (fun k => k.cache.ptrs=[100,200] ∧ k.cache.actBlock=1) ⟨100,_,make_eq 4 8 100,rfl⟩ (by decide)
  exact ⟨h,k,hk,canServe_iff_keepsActive (by decide) (by decide) r⟩

/-- Slabs of two blocks, three allocated, the third given back: the full slab is active. -/
theorem emptied_active_cannot_serve :
    ∃ k : Client, (machine 2 8 Call.ByOwner).Reachable k ∧ ¬ k.cache.CanServe :=
  Machine.reachable_of_runFrom (machine 2 8 Call.ByOwner) ⟨(first 2 8 100).cache,[]⟩
    [.allocate 0,.allocate 200,.allocate 0,.deallocate 200 true] (fun k => ¬ k.cache.CanServe)
    ⟨100,_,make_eq 2 8 100,rfl⟩ (by decide)

end Client

end Allocators.SlabMulti
