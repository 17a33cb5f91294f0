import Allocators.FreeList.Conservation

/-! Blocks given back in any order: the chunks after each of them. -/

namespace Allocators.FreeList

open Lib Extent

namespace Arena

variable {bytes : Nat} {S : Type} [Storage S] {a : Arena S}

namespace Exact

/-- The chunks are the maximal runs of bytes outside the blocks. -/
theorem maximalRun (h : Exact bytes a) {e : Entry} (he : e ∈ availible a) :
    MaximalRun bytes (blocks bytes a) e := by
  have hpos := h.positive e he
  have hw := h.safe.2 e (List.mem_append_left _ he)
  have hap := (tiled_append.mp h.safe.1).2.2 e he
  -- A byte next to the chunk is in no other chunk, so it is in a block.
  have hedge : ∀ b < bytes, b+1=e.1 ∨ b=e.1+e.2 → Covers (blocks bytes a) b := by
    intro b hb hside
    rcases covers_append.mp (h.covered b hb) with ⟨x,hx,hxb⟩ | hc
    · simp only [mem_bytes] at hxb
      have hne : x ≠ e := by
        rintro rfl
        omega
      have := Gapped.apart h.gapped hx he hne
      omega
    · exact hc
  simp only [Extent.Within] at hw
  refine ⟨hpos,hw,?_,fun h0 => hedge _ (by omega) (.inl (by omega)),
    fun h0 => hedge _ (by omega) (.inr rfl)⟩
  rintro b hb ⟨x,hx,hxb⟩
  exact Set.disjoint_left.mp (hap x hx) hb hxb

theorem mem_availible_iff (h : Exact bytes a) (e : Entry) :
    e ∈ availible a ↔ MaximalRun bytes (blocks bytes a) e := by
  refine ⟨h.maximalRun,?_⟩
  intro he
  have hb : e.1 ∈ e.bytes := by
    have := he.positive
    simpa using this
  have hlt : e.1 < bytes := by
    have h1 := he.positive
    have h2 := he.within
    simp only [Extent.Within] at h2
    omega
  rcases covers_append.mp (h.covered e.1 hlt) with ⟨x,hx,hxb⟩ | hc
  · rw [he.eq_of_mem (h.maximalRun hx) hb hxb]
    exact hx
  · exact absurd hc (he.bare e.1 hb)

/-- A byte outside all blocks is in some chunk. -/
theorem availible_ne_nil (h : Exact bytes a) {b : Nat} (hb : b < bytes)
    (hn : ¬ Covers (blocks bytes a) b) : availible a ≠ [] := by
  intro he
  have hc := h.covered b hb
  rw [he] at hc
  exact hn (by simpa using hc)

variable [LawfulStorage S] {a' : Arena S} {r : Reply}

/-- While there is one chunk at most, a block is cut from its front. -/
theorem allocate_front (h : Exact bytes a) (hv : ValidSize bytes)
    (hone : (availible a).length ≤ 1) {sizeofT count : Nat}
    (hf : (Call.allocate sizeofT count).Fits bytes)
    (hs : serve bytes a (.allocate sizeofT count)=some (a',r)) (hr : r ≠ .badAlloc) :
    Exact bytes a' ∧ (availible a').length ≤ 1 ∧
      (blocks bytes a').map Prod.snd=
        (sizeofT*count+headerSize bytes) :: (blocks bytes a).map Prod.snd := by
  have hk : KeepsHeaders bytes a (.allocate sizeofT count) := by
    intro chunk hc _
    have hm := List.length_erase_of_mem (List.mem_of_find?_eq_some hc)
    exact List.length_eq_zero_iff.mp (by omega)
  refine ⟨h.allocate hv hf hk hs,?_⟩
  obtain ⟨hx,_⟩ | ⟨p',lo,mem,chunk,hi,hx,g⟩ := allocate_cases bytes a.itf h.search sizeofT count
  · simp only [serve,hx] at hs
    obtain ⟨_,rfl⟩ := Prod.mk.inj (Option.some.inj hs)
    exact absurd rfl hr
  · simp only [serve,hx] at hs
    obtain ⟨rfl,_⟩ := Prod.mk.inj (Option.some.inj hs)
    rw [reqBytes_of_fits hv hf.1 hf.2] at g
    have hb := h.toSound.blocks_grant g hv (by omega)
    have hav : availible a=lo ++ (mem,chunk) :: hi := g.entries
    have hnil : lo ++ hi=[] := by
      rw [hav,List.length_append,List.length_cons] at hone
      rw [List.append_eq_nil_iff,← List.length_eq_zero_iff,← List.length_eq_zero_iff]
      omega
    refine ⟨?_,by rw [hb,List.map_cons]⟩
    by_cases hlt : sizeofT*count+headerSize bytes < chunk
    · obtain ⟨s,he,hadd⟩ := g.rest hlt
      rw [availible,hadd,entries_add_empty bytes (he.trans hnil)]
      exact le_rfl
    · have hc := g.enough
      rw [availible,g.exact (by omega),hnil]
      exact Nat.zero_le _

/-- Blocks taken one after the other from the fresh arena. -/
theorem allocate_all (hv : ValidSize bytes) {requests : List (Nat × Nat)}
    (hf : ∀ q ∈ requests, 0 < q.1 ∧ q.1*q.2+headerSize bytes ≤ bytes) {a b : Arena S}
    (h : Exact bytes a) (hone : (availible a).length ≤ 1) {rs : List Reply}
    (hs : session bytes a (requests.map fun q => .allocate q.1 q.2)=some (rs,b))
    (hrs : .badAlloc ∉ rs) :
    Exact bytes b ∧ (blocks bytes b).map Prod.snd=
      (requests.map fun q => q.1*q.2+headerSize bytes).reverse ++
        (blocks bytes a).map Prod.snd := by
  induction requests generalizing a rs with
  | nil =>
    obtain ⟨_,rfl⟩ := Prod.mk.inj (Option.some.inj hs)
    exact ⟨h,by simp⟩
  | cons q requests ih =>
    obtain ⟨hq,hf⟩ := List.forall_mem_cons.mp hf
    rw [List.map_cons,session] at hs
    cases hx : serve bytes a (.allocate q.1 q.2) with
    | none => simp [hx] at hs
    | some next =>
      obtain ⟨a',r⟩ := next
      rw [hx] at hs
      obtain ⟨⟨rs',b'⟩,hs',he⟩ := Option.map_eq_some_iff.mp hs
      obtain ⟨rfl,rfl⟩ := Prod.mk.inj he
      simp only [List.mem_cons,not_or] at hrs
      obtain ⟨hr,hrs⟩ := hrs
      obtain ⟨ha',hone',hsz⟩ := h.allocate_front hv hone hq hx (Ne.symm hr)
      obtain ⟨hb,hall⟩ := ih hf ha' hone' hs' hrs
      exact ⟨hb,by rw [hall,hsz]; simp⟩

/-- Giving a block back leaves at least the chunks' bytes that were there. -/
theorem deallocate_ne_nil (h : Exact bytes a) (hv : ValidSize bytes) {ptr : Nat} (hm : ptr ∈ a.live)
    (hne : availible a ≠ []) :
    availible (⟨a.itf.deallocate bytes ptr,a.live.erase ptr⟩ : Arena S) ≠ [] := by
  have h1 := h.total_eq
  have h2 := (h.deallocate hv hm hne).total_eq
  have hperm : (blocks bytes a).Perm _ := blocks_perm_erase hm
  have hp := total_perm hperm
  have hpos : 0 < total (availible a) := by
    obtain ⟨e,rest,he⟩ := List.exists_cons_of_ne_nil hne
    have := h.positive e (by simp [he])
    rw [he,total_cons]
    omega
  have hb : blocks bytes (⟨a.itf.deallocate bytes ptr,a.live.erase ptr⟩ : Arena S)=
      (a.live.erase ptr).map (block bytes a) := rfl
  intro hnil
  rw [hnil,hb,total_nil] at h2
  rw [total_cons] at hp
  omega

/-- Any blocks may be given back one after the other, in any order. -/
theorem deallocate_all (hv : ValidSize bytes) {given kept : List Nat} {a : Arena S}
    (h : Exact bytes a) (hne : availible a ≠ []) (hp : (given ++ kept).Perm a.live) :
    ∃ rs b, session bytes a (given.map .deallocate)=some (rs,b) ∧ b.live.Perm kept ∧
      Exact bytes b := by
  induction given generalizing a with
  | nil => exact ⟨[],a,rfl,hp.symm,h⟩
  | cons ptr given ih =>
    have hm : ptr ∈ a.live := hp.subset (by simp)
    have hrest : (given ++ kept).Perm (a.live.erase ptr) := by
      simpa using hp.erase ptr
    obtain ⟨rs,b,hs,hl,hb⟩ := ih (a := ⟨a.itf.deallocate bytes ptr,a.live.erase ptr⟩)
      (h.deallocate hv hm hne) (h.deallocate_ne_nil hv hm hne) hrest
    refine ⟨.done :: rs,b,?_,hl,hb⟩
    simp only [List.map_cons,session,serve,if_pos hm,hs,Option.map_some]

end Exact

/-- Whatever was allocated and in whatever order it is given back, the chunks after each block are
in order the maximal runs of bytes outside the blocks left, and in the end there is one. -/
theorem coalesces_in_any_order (P : Policy) {bytes : Nat} (hv : ValidSize bytes) (memory : Memory)
    {requests : List (Nat × Nat)}
    (hf : ∀ q ∈ requests, 0 < q.1 ∧ q.1*q.2+headerSize bytes ≤ bytes)
    {rs : List Reply} {a : Arena P.Store}
    (hs : session bytes (fresh bytes memory) (requests.map fun q => .allocate q.1 q.2)=some (rs,a))
    (hrs : .badAlloc ∉ rs) (hfree : ∃ b < bytes, ¬ Covers (blocks bytes a) b) :
    (blocks bytes a).map Prod.snd=
      (requests.map fun q => q.1*q.2+headerSize bytes).reverse ∧
    ∀ given kept, (given ++ kept).Perm a.live →
      ∃ rs b, session bytes a (given.map .deallocate)=some (rs,b) ∧ b.live.Perm kept ∧
        Sorted (availible b) ∧
        (∀ e, e ∈ availible b ↔ MaximalRun bytes (blocks bytes b) e) ∧
        (kept=[] → availible b=[(0,bytes)] ∧ b.itf.bytesFree=bytes) := by
  have hempty : availible (fresh bytes memory : Arena P.Store)=[(0,bytes)] :=
    entries_add_empty bytes LawfulStorage.entries_clear 0 bytes
  obtain ⟨ha,hsz⟩ := Exact.allocate_all hv hf (Exact.fresh hv memory) (by rw [hempty]; rfl) hs hrs
  refine ⟨by simpa [fresh,blocks] using hsz,?_⟩
  intro given kept hp
  obtain ⟨b,hb,hn⟩ := hfree
  obtain ⟨rs,t,hs',hl,ht⟩ := Exact.deallocate_all hv ha (ha.availible_ne_nil hb hn) hp
  refine ⟨rs,t,hs',hl,ht.sorted,ht.mem_availible_iff,?_⟩
  intro hk
  have hone := ht.availible_of_empty (by omega) (hk ▸ hl).eq_nil
  refine ⟨hone,?_⟩
  rw [ht.balance,hone]
  simp

/-- Blocks of 5, 5 and 2 bytes in an arena of 16, the middle one given back first. -/
theorem coalesces_in_any_order_three_blocks :
    ∃ (a b : Arena Policy.list.Store) (rs : List Reply), a.live=[11,6,1] ∧
      session 16 a ([6,11,1].map .deallocate)=some (rs,b) ∧ availible b=[(0,16)] ∧
      b.itf.bytesFree=16 := by
  obtain ⟨⟨rs,a⟩,hs,hp⟩ := (Option.any_eq_true
    (fun x : List Reply × Arena Policy.list.Store => decide (.badAlloc ∉ x.1 ∧
      x.2.live=[11,6,1] ∧ ¬ Covers (blocks 16 x.2) 15))
    (session 16 (fresh 16 fun _ => 0) ([(1,4),(1,4),(1,1)].map fun q => .allocate q.1 q.2))).mp
    (by decide)
  obtain ⟨hrs,hl,hfree⟩ := of_decide_eq_true hp
  obtain ⟨_,hback⟩ := coalesces_in_any_order .list (by decide) (fun _ => 0) (by decide) hs hrs
    ⟨15,by decide,hfree⟩
  obtain ⟨rs',b,hs',_,_,_,hend⟩ := hback [6,11,1] [] (hl ▸ by decide)
  exact ⟨a,b,rs',hl,hs',hend rfl⟩

end Arena

end Allocators.FreeList
