import Allocators.SlabMulti.Representation

/-! How much of the slabs behind the active one is in use, in every run. -/

namespace Allocators.SlabMulti

open Lib Vector Extent

/-- The live blocks in the memory of a slab. -/
def Client.liveAt (k : Client) (mem : Nat) : Nat :=
  k.live.countP fun ptr => decide ((k.cache.regionAt mem).Contains ptr)

/-- More of the slab's blocks are in use than the threshold. -/
def Row.Dense (count : Nat) (r : Row) : Prop := r.free.length+count/4 < count

/-- The slabs behind the active one are dense. -/
def Shelf.DenseBehind (s : Shelf) : Prop :=
  ∀ (i : Nat) (r : Row), s.act < i → s.rows[i]?=some r → r.Dense s.count

namespace Shelf.DenseBehind

variable {count blockSize ptr : Nat} {s s' : Shelf} {d : Supply} {live : List Nat}
  {lo hi : List Row} {r : Row} {thisThread : Bool}

/-- The active slab may change in any way. -/
theorem replace_active (h : s.DenseBehind) (hr : s.rows=lo ++ r :: hi) (ha : s.act=lo.length)
    (x : Row) (mySize : Nat) :
    DenseBehind { s with rows := lo ++ x :: hi, mySize := mySize } := by
  intro i t hi' ht
  simp only at hi' ht
  rcases getElem?_mid_cases lo hi x r ht with ⟨rfl,_⟩ | ⟨_,ht⟩
  · omega
  · exact h i t hi' (hr ▸ ht)

/-- What stays behind the active slab was there, or is full. -/
theorem served (h : s.DenseBehind) (hmin : 2 ≤ s.count) (hs : Served s d s' ptr) :
    s'.DenseBehind := by
  cases hs with
  | stay hr ha he hne => exact h.replace_active hr ha _ _
  | merge hr ha he hf => exact h.replace_active hr ha _ _
  | @back lo hi r idx hr ha he hf hlo =>
    intro i t hi' ht
    simp only at hi' ht
    rcases getElem?_mid_cases lo hi _ r ht with ⟨rfl,rfl⟩ | ⟨hne,ht⟩
    · simp only [Row.Dense,Row.free,hf,List.append_nil,List.length_nil]
      omega
    · exact h i t (by omega) (hr ▸ ht)
  | @grow hi r idx hr ha he hf =>
    intro i t hi' ht
    simp only [ha] at hi' ht
    obtain ⟨j,rfl⟩ := Nat.exists_eq_succ_of_ne_zero (show i ≠ 0 by omega)
    rw [List.getElem?_cons_succ] at ht
    rcases List.mem_append.mp (List.mem_of_getElem? ht) with hm | hm
    · obtain ⟨l,hl⟩ := List.mem_iff_getElem?.mp hm
      exact h (l+1) t (by omega) (by rw [hr,List.getElem?_cons_succ,hl])
    · obtain rfl := List.mem_singleton.mp hm
      simp only [Row.Dense,Row.free,hf,List.append_nil,List.length_nil]
      omega

/-- A slab that got an index back stays behind the active one only if it is still dense. -/
theorem returned (h : s.DenseBehind) (hh : Holds count blockSize s live)
    (hr : Returned s ptr thisThread s' lo r hi) : s'.DenseBehind := by
  have hother : ∀ (i : Nat) (t : Row), s.act < i → i ≠ lo.length →
      (lo ++ r.give ptr thisThread :: hi)[i]?=some t → t.Dense s.count := by
    intro i t hi' hne ht
    rcases getElem?_mid_cases lo hi _ r ht with ⟨rfl,_⟩ | ⟨_,ht⟩
    · exact absurd rfl hne
    · exact h i t hi' (hr.rows ▸ ht)
  have hc : (r.give ptr thisThread).2.count=s.count := by
    rw [r.count_give]
    exact (hh.shaped r (by simp [hr.rows])).2
  have hre := hr.rearranged
  rcases Shelf.decision_cases s lo.length (r.give ptr thisThread).2 with
    ⟨hd,_,hact⟩ | ⟨hd,hl,_,_,hno⟩ | ⟨hd,hno,_⟩
  · rw [hd] at hre
    cases hre with
    | splice hle hlt =>
      have hx := List.getElem?_eq_getElem hlt
      intro i t hi' ht
      simp only at hi' ht hx hle
      rw [getElem?_moveBefore hle hx] at ht
      split_ifs at ht with h1 h2 h3
      · omega
      · omega
      · exact hother (i-1) t (by omega) (by omega) ht
      · exact hother i t (by omega) (by omega) ht
  · -- An empty slab behind the active one would have been moved, not given back.
    have hback : ¬ s.act < lo.length := by
      intro hact
      refine hno ⟨?_,hact⟩
      rw [Slab.size,hl]
      omega
    rw [hd] at hre
    generalize hit : lo.length=it at hre
    cases hre with
    | behind hlt _ => exact absurd (hit ▸ hlt) hback
    | front hlt hlen =>
      intro i t hi' ht
      simp only at hi' ht hlt
      rw [List.getElem?_eraseIdx,if_neg (by omega)] at ht
      exact hother (i+1) t (by omega) (by omega) ht
    | active hlen =>
      intro i t hi' ht
      have hx := length_swapPop (List.getElem?_eq_getElem hlen)
      simp only at hi' ht hx
      have := (List.getElem?_eq_some_iff.mp ht).1
      omega
  · rw [hd] at hre
    cases hre
    intro i t hi' ht
    by_cases hi : i=lo.length
    · subst hi
      simp only [getElem?_mid] at ht
      obtain rfl := Option.some.inj ht
      have hsize : s.count/4 < (r.give ptr thisThread).2.size := by
        by_contra hle
        exact hno ⟨by omega,hi'⟩
      rw [Slab.size,hc] at hsize
      simp only [Row.Dense,Row.free,List.length_append]
      omega
    · exact hother i t hi' hi ht

end Shelf.DenseBehind

section Grow

variable {count blockSize : Nat} {s s' : Shelf} {d : Supply} {live : List Nat} {ptr : Nat}

/-- When a slab is added all others are dense, the active one for lack of more than one block. -/
theorem Shelf.DenseBehind.all (h : s.DenseBehind) (hmin : 2 ≤ s.count) (hs : Served s d s' ptr)
    (hg : s.rows.length < s'.rows.length) : ∀ r ∈ s.rows, r.Dense s.count := by
  cases hs with
  | stay hr => simp [hr] at hg
  | merge hr => simp [hr] at hg
  | back hr => simp [hr] at hg
  | @grow hi r idx hr ha he hf =>
    intro t ht
    obtain ⟨i,hi'⟩ := List.mem_iff_getElem?.mp ht
    by_cases h0 : i=0
    · subst h0
      rw [hr,List.getElem?_cons_zero] at hi'
      obtain rfl := Option.some.inj hi'
      simp only [Row.Dense,Row.free,he,hf,List.append_nil,List.length_singleton]
      omega
    · exact h i t (by omega) hi'

/-- The live blocks of a dense slab. -/
theorem liveAt_of_dense (h : Holds count blockSize s live) {r : Row} (hr : r ∈ s.rows)
    (hd : r.Dense s.count) : s.count/4 < Client.liveAt ⟨s.cache,live⟩ r.1 := by
  have hsum := (h.sound.tally r hr).sum
  rw [h.sound.count_eq hr,← h.count_eq] at hsum
  unfold Client.liveAt
  simp only [Client.regionAt_eq h hr]
  simp only [Row.Dense] at hd
  omega

/-- Dense slabs have more live blocks between them than the thresholds add up to. -/
theorem live_of_dense (h : Holds count blockSize s live) (hd : ∀ r ∈ s.rows, r.Dense s.count) :
    s.rows.length*(s.count/4) < live.length := by
  have hb := h.sound.balance
  have hpos : 0 < s.rows.length := by
    have := h.act
    omega
  have hle : (s.rows.map fun r => r.free.length).sum ≤ s.rows.length*(s.count-s.count/4-1) := by
    have hsum := List.sum_le_card_nsmul (s.rows.map fun r => r.free.length) (s.count-s.count/4-1)
      fun n hn => by
        obtain ⟨r,hr,rfl⟩ := List.mem_map.mp hn
        have := hd r hr
        simp only [Row.Dense] at this
        omega
    simpa using hsum
  have hsplit : s.count=s.count-s.count/4-1+s.count/4+1 := by
    obtain ⟨r,hr⟩ := List.exists_mem_of_length_pos hpos
    have := hd r hr
    simp only [Row.Dense] at this
    omega
  have hcount : count*s.rows.length=
      s.rows.length*(s.count-s.count/4-1)+s.rows.length*(s.count/4)+s.rows.length := by
    rw [← h.count_eq]
    nth_rewrite 1 [hsplit]
    ring
  omega

end Grow

namespace Client

variable {count blockSize : Nat}

/-- The invariant behind it. -/
def Thrifty (count blockSize : Nat) (k : Client) : Prop :=
  ∃ s : Shelf, k.cache=s.cache ∧ Holds count blockSize s k.live ∧ s.DenseBehind

theorem thrifty_start (h0 : 0 < blockSize) {allowed : Call → Prop} [DecidablePred allowed]
    {k : Client} (h : (machine count blockSize allowed).start k) : Thrifty count blockSize k := by
  obtain ⟨mem,rfl⟩ := start_cases h
  refine ⟨_,rfl,first_holds h0 mem,?_⟩
  intro i r hi hr
  have hlt := (List.getElem?_eq_some_iff.mp hr).1
  simp only [first,List.length_singleton] at hi hlt
  omega

theorem thrifty_next (hmin : 2 ≤ count) {k k' : Client} {c : Call}
    (h : Thrifty count blockSize k) (hn : serve count k c=some k') :
    Thrifty count blockSize k' := by
  obtain ⟨s,hk,hs,hd⟩ := h
  obtain ⟨cache,live⟩ := k
  simp only at hk hs
  subst hk
  cases c with
  | allocate mem =>
    obtain ⟨s',ptr,rfl,hserved,hf⟩ := serve_allocate hn
    exact ⟨s',rfl,hs.served hserved fun _ => hf,hd.served (hs.count_eq ▸ hmin) hserved⟩
  | deallocate ptr thisThread =>
    obtain ⟨hm,s',lo,r,hi,rfl,hr⟩ := serve_deallocate hs hn
    exact ⟨s',rfl,hs.returned hm hr,hd.returned hs hr⟩

/-- In every run the slabs behind the active one have more live blocks than the threshold, and a
slab is added only when all have, so that more blocks are live than the thresholds add up to. -/
theorem reachable_wastes_little (h0 : 0 < blockSize) (hmin : 2 ≤ count) {k : Client}
    (r : (machine count blockSize fun _ => True).Reachable k) :
    k.cache.threshold=count/4 ∧
    (∀ i mem, k.cache.actBlock < i → k.cache.ptrs[i]?=some mem →
      k.cache.threshold < k.liveAt mem) ∧
    ∀ new k', (machine count blockSize fun _ => True).next k (.allocate new)=some k' →
      k.cache.slabs.length < k'.cache.slabs.length →
      (∀ mem ∈ k.cache.ptrs, k.cache.threshold < k.liveAt mem) ∧
        k.cache.slabs.length*k.cache.threshold < k.live.length := by
  obtain ⟨s,hk,hs,hd⟩ : Thrifty count blockSize k := r.invariant (fun _ hs => thrifty_start h0 hs)
    (fun _ _ _ hi hn => thrifty_next hmin hi (next_allowed hn).2)
  obtain ⟨cache,live⟩ := k
  simp only at hk hs
  subst hk
  refine ⟨by simp [Shelf.cache,hs.count_eq],?_,?_⟩
  · intro i mem hi hp
    obtain ⟨r,hr,rfl⟩ := Shelf.exists_ptr hp
    exact liveAt_of_dense hs (List.mem_of_getElem? hr) (hd i r hi hr)
  · intro new k' hn hlt
    obtain ⟨s',ptr,rfl,hserved,_⟩ := serve_allocate (next_allowed hn).2
    simp only [Shelf.cache,List.length_map] at hlt
    have hall := hd.all (hs.count_eq ▸ hmin) hserved hlt
    refine ⟨?_,by simpa [Shelf.cache] using live_of_dense hs hall⟩
    intro mem hm
    obtain ⟨r,hr,rfl⟩ := List.mem_map.mp hm
    exact liveAt_of_dense hs hr (hall r hr)

/-- Slabs of four blocks: three of them in use, and the fourth allocation adds a slab. -/
theorem reachable_wastes_little_grown :
    ∃ k k' : Client, (k.cache.ptrs=[100] ∧ k.live=[116,108,100]) ∧
      ((machine 4 8 fun _ => True).next k (.allocate 200)=some k' ∧
        k.cache.slabs.length < k'.cache.slabs.length) ∧
      k.cache.slabs.length*k.cache.threshold < k.live.length := by
  obtain ⟨k,hr,⟨hp,hl⟩,hn⟩ := Machine.reachable_of_runFrom (machine 4 8 fun _ => True)
    ⟨(first 4 8 100).cache,[]⟩ [.allocate 0,.allocate 0,.allocate 0]
    (fun k => (k.cache.ptrs=[100] ∧ k.live=[116,108,100]) ∧
      (((machine 4 8 fun _ => True).next k (.allocate 200)).any fun k' =>
        decide (k.cache.slabs.length < k'.cache.slabs.length))=true)
    ⟨100,_,make_eq 4 8 100,rfl⟩ (by decide)
  obtain ⟨k',hk',hlt⟩ := (Option.any_eq_true _ _).mp hn
  exact ⟨k,k',⟨hp,hl⟩,⟨hk',by simpa using hlt⟩,
    ((reachable_wastes_little (by decide) (by decide) hr).2.2 200 k' hk' (by simpa using hlt)).2⟩

end Client

end Allocators.SlabMulti
