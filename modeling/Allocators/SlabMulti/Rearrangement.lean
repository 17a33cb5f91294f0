import Allocators.Lib.Moves
import Allocators.SlabMulti.Cache

/-! `spliceBoth` and `memToDispatch` move by move. What a container holds after it was moved from
by an assignment is not specified: it is `rest`. -/

namespace Allocators.SlabMulti

open Lib Vector

namespace Slab

/-- `Slab(Slab&& other)`: the slab and `other`. -/
def moveConstruct (other : Slab) : Slab × Slab :=
  (⟨other.blockSize,other.count,other.availible,other.foreigns⟩,
    { other with availible := [], foreigns := [] })

variable (rest : List Nat → List Nat)

/-- `operator=(Slab&& other)`: the slab and `other`. -/
def moveAssign (_ other : Slab) : Slab × Slab :=
  (⟨other.blockSize,other.count,other.availible,other.foreigns⟩,
    { other with availible := rest other.availible, foreigns := rest other.foreigns })

/-- `operator=` of a slab to itself. -/
def selfAssign (this : Slab) : Slab :=
  { this with availible := rest this.availible, foreigns := rest this.foreigns }

def moves : Moves Slab where
  construct := moveConstruct
  assign := moveAssign rest
  self := selfAssign rest
  construct_fst _ := rfl
  assign_fst _ _ := rfl

end Slab

namespace Moving

variable {α : Type}

/-- `splice(pos, it, cont)`: the container and `pos`. The slot at `it` is overwritten as it is, and
the one at `pos` is constructed over. -/
def splice (M : Moves α) (pos it : Nat) (cont : List α) : Option (List α × Nat) :=
  if pos ≤ it then do
    let (val,x) := M.construct (← cont[it]?)
    let cont := cont.set it x
    let cont := memmove cont (pos+1) pos (it-pos)
    let (item,_) := M.construct val
    some (cont.set pos item,pos+1)
  else none

variable (rest : List Nat → List Nat)

/-- `spliceBoth(actBlock, actMem, sit, mit)`. -/
def spliceBoth (c : Cache) (sit mit : Nat) : Option Cache := do
  let (slabs,actBlock) ← splice (Slab.moves rest) c.actBlock sit c.slabs
  let (ptrs,actMem) ← splice (Moves.copy Nat) c.actMem mit c.ptrs
  some { c with slabs := slabs, actBlock := actBlock, ptrs := ptrs, actMem := actMem }

/-- `std::swap(*it, cont.back())` and `cont.pop_back()`. -/
def swapOut (M : Moves α) (cont : List α) (it : Nat) : Option (List α) := do
  let (cont,_) ← M.swap cont it (cont.length-1)
  let (cont,_) ← Moves.popBack cont
  some cont

def memToDispatch (c : Cache) (sit mit : Nat) : Option Cache :=
  let c := { c with myCapacity := c.myCapacity-c.count }
  if sit ≠ c.actBlock then
    if c.actBlock < sit then do
      let slabs ← swapOut (Slab.moves rest) c.slabs sit
      let ptrs ← swapOut (Moves.copy Nat) c.ptrs mit
      some { c with slabs := slabs, ptrs := ptrs }
    else do
      let idx := c.actBlock-1
      let (slabs,_) ← (Slab.moves rest).erase c.slabs sit
      let (ptrs,_) ← (Moves.copy Nat).erase c.ptrs mit
      some { c with slabs := slabs, ptrs := ptrs, actBlock := idx, actMem := idx }
  else do
    let slabs ← swapOut (Slab.moves rest) c.slabs c.actBlock
    let ptrs ← swapOut (Moves.copy Nat) c.ptrs c.actMem
    some { c with
      slabs := slabs
      ptrs := ptrs
      actBlock := slabs.length-1
      actMem := ptrs.length-1 }

section Values

variable {M : Moves α} {cont : List α} {pos it : Nat} {x : α}

/-- No slot that was moved from, or that `memmove` left behind, shows in the result. -/
theorem splice_eq (M : Moves α) (h : pos ≤ it) (hx : cont[it]?=some x) :
    splice M pos it cont=some (moveBefore cont pos it,pos+1) := by
  obtain ⟨lo,mid,hi,rfl,rfl,rfl⟩ := eq_mid_of_le h hx
  have hget : ∀ y, (lo ++ (mid ++ y :: hi))[lo.length+mid.length]?=some y := by
    intro y
    rw [← List.append_assoc,← List.length_append,getElem?_mid]
  have hset : ∀ y, (lo ++ (mid ++ x :: hi)).set (lo.length+mid.length) y=
      lo ++ (mid ++ y :: hi) := by
    intro y
    rw [← List.append_assoc,← List.length_append,set_mid,List.append_assoc]
  -- whatever is in the slot at `it`, `memmove` writes over it
  have hput : ∀ y, (memmove (lo ++ (mid ++ y :: hi)) (lo.length+1) lo.length mid.length).set
      lo.length x=lo ++ x :: (mid ++ hi) := by
    intro y
    have hy : moveBefore (lo ++ (mid ++ y :: hi)) lo.length (lo.length+mid.length)=
        lo ++ y :: (mid ++ hi) := moveBefore_eq
    simp only [moveBefore,hget,Nat.add_sub_cancel_left] at hy
    rw [← set_mid lo (mid ++ hi) y x,← hy,List.set_set]
  simp only [splice,if_pos h,hx,hset,moveBefore_eq,M.construct_fst,Nat.add_sub_cancel_left,hput,
    Option.bind_eq_bind,Option.bind_some]

theorem swapOut_eq (M : Moves α) (hx : cont[it]?=some x) :
    swapOut M cont it=some (swapPop cont it) := by
  obtain ⟨v',z,hswap,hpop⟩ := M.swap_popBack hx
  simp only [swapOut,hswap,hpop,Option.bind_eq_bind,Option.bind_some]

end Values

variable {rest}

/-- Move by move it is what the cache does with the values. -/
theorem spliceBoth_eq {c : Cache} {it : Nat} (hb : c.actBlock ≤ it) (hs : it < c.slabs.length)
    (hm : c.actMem ≤ it) (hp : it < c.ptrs.length) : spliceBoth rest c it it=c.spliceBoth it := by
  rw [spliceBoth,splice_eq _ hb (List.getElem?_eq_getElem hs),
    splice_eq _ hm (List.getElem?_eq_getElem hp),Cache.spliceBoth,if_pos ⟨hb,hs,hm,hp⟩]
  rfl

theorem memToDispatch_eq {c : Cache} {it : Nat} (hs : it < c.slabs.length)
    (hp : it < c.ptrs.length) (hne : it ≠ c.actBlock) :
    memToDispatch rest c it it=c.memToDispatch it := by
  have hslab := List.getElem?_eq_getElem hs
  have hmem := List.getElem?_eq_getElem hp
  obtain ⟨_,he⟩ := (Slab.moves rest).erase_eq hslab
  obtain ⟨_,he'⟩ := (Moves.copy Nat).erase_eq hmem
  simp only [memToDispatch,Cache.memToDispatch,if_pos hne,if_pos (And.intro hs hp)]
  split_ifs
  · simp only [swapOut_eq _ hslab,swapOut_eq _ hmem,dropLast_swapBack hslab,dropLast_swapBack hmem,
      Option.bind_eq_bind,Option.bind_some]
  · simp only [he,he',Option.bind_eq_bind,Option.bind_some]

theorem spliceBoth_spec (rest : List Nat → List Nat) {c : Cache} {it : Nat} {slab : Slab}
    {mem : Nat} (hlt : c.actBlock ≤ it) (hm : c.actMem=c.actBlock)
    (hslab : c.slabs[it]?=some slab) (hmem : c.ptrs[it]?=some mem) :
    ∃ c', spliceBoth rest c it it=some c' ∧ c'.slabs=moveBefore c.slabs c.actBlock it ∧
      c'.ptrs=moveBefore c.ptrs c.actBlock it ∧ c'.actBlock=c.actBlock+1 ∧
      c'.actMem=c.actBlock+1 := by
  have hsl := (List.getElem?_eq_some_iff.mp hslab).1
  have hpl := (List.getElem?_eq_some_iff.mp hmem).1
  have hpos : c.actBlock ≤ it ∧ it < c.slabs.length ∧ c.actMem ≤ it ∧ it < c.ptrs.length :=
    ⟨hlt,hsl,hm ▸ hlt,hpl⟩
  rw [spliceBoth_eq hlt hsl (hm ▸ hlt) hpl,Cache.spliceBoth,if_pos hpos]
  exact ⟨_,rfl,rfl,congrArg (fun k => moveBefore c.ptrs k it) hm,rfl,congrArg (·+1) hm⟩

/-- Removing a row removes it from both vectors. -/
theorem memToDispatch_rows (rest : List Nat → List Nat) {c : Cache} {rows : List (Slab × Nat)}
    {it : Nat} {row : Slab × Nat} (hs : c.slabs=rows.map Prod.fst)
    (hp : c.ptrs=rows.map Prod.snd) (hm : c.actMem=c.actBlock)
    (ha : c.actBlock < rows.length) (hrow : rows[it]?=some row) (hne : it ≠ c.actBlock) :
    ∃ (c' : Cache) (rows' : List (Slab × Nat)), memToDispatch rest c it it=some c' ∧
      c'.slabs=rows'.map Prod.fst ∧ c'.ptrs=rows'.map Prod.snd ∧ c'.actMem=c'.actBlock ∧
      rows'.Perm (rows.eraseIdx it) ∧ rows'[c'.actBlock]?=rows[c.actBlock]? := by
  have hlt : it < rows.length := (List.getElem?_eq_some_iff.mp hrow).1
  have hsl : it < c.slabs.length := by rwa [hs,List.length_map]
  have hpl : it < c.ptrs.length := by rwa [hp,List.length_map]
  have hslab : c.slabs[it]?=some c.slabs[it] := List.getElem?_eq_getElem hsl
  have hmem : c.ptrs[it]?=some c.ptrs[it] := List.getElem?_eq_getElem hpl
  rw [memToDispatch_eq hsl hpl hne]
  simp only [Cache.memToDispatch,if_pos (And.intro hsl hpl),if_pos hne]
  by_cases hlate : c.actBlock < it
  · refine ⟨_,swapPop rows it,if_pos hlate,?_,?_,hm,swapPop_perm_eraseIdx hrow,?_⟩
    · dsimp only
      rw [dropLast_swapBack hslab,map_swapPop Prod.fst rows it hrow,← hs]
    · dsimp only
      rw [dropLast_swapBack hmem,map_swapPop Prod.snd rows it hrow,← hp]
    · dsimp only
      rw [getElem?_swapPop hrow,if_pos (by omega),if_neg (by omega)]
  · refine ⟨_,rows.eraseIdx it,if_neg hlate,?_,?_,rfl,.refl _,?_⟩
    · dsimp only
      rw [hs,List.eraseIdx_map]
    · dsimp only
      rw [hp,List.eraseIdx_map]
    · dsimp only
      rw [List.getElem?_eraseIdx,if_neg (by omega),Nat.sub_add_cancel (by omega)]

/-- Both rearrangements permute the slabs with their memory and keep the active one, whatever a
container holds that was moved from. -/
theorem rearrangement_keeps_active (rest : List Nat → List Nat) {c : Cache} {n a i : Nat}
    (hs : c.slabs.length=n) (hp : c.ptrs.length=n) (hb : c.actBlock=a) (hm : c.actMem=a)
    (ha : a < n) (hi : i < n) :
    (a < i → ∃ slab mem, c.slabs[i]?=some slab ∧ c.ptrs[i]?=some mem ∧
      ∃ c', spliceBoth rest c i i=some c' ∧
        c'.slabs=c.slabs.take a ++ slab :: ((c.slabs.drop a).take (i-a) ++ c.slabs.drop (i+1)) ∧
        c'.ptrs=c.ptrs.take a ++ mem :: ((c.ptrs.drop a).take (i-a) ++ c.ptrs.drop (i+1)) ∧
        c'.slabs.Perm c.slabs ∧ c'.ptrs.Perm c.ptrs ∧
        c'.slabs[c'.actBlock]?=c.slabs[a]? ∧ c'.ptrs[c'.actMem]?=c.ptrs[a]?) ∧
    (i ≠ a → ∃ c', memToDispatch rest c i i=some c' ∧
      c'.slabs.length=n-1 ∧ c'.ptrs.length=n-1 ∧
      (c'.slabs.zip c'.ptrs).Perm ((c.slabs.zip c.ptrs).eraseIdx i) ∧
      c'.slabs[c'.actBlock]?=c.slabs[a]? ∧ c'.ptrs[c'.actMem]?=c.ptrs[a]?) := by
  subst hb
  have hsl : i < c.slabs.length := hs ▸ hi
  have hpl : i < c.ptrs.length := hp ▸ hi
  have hslab : c.slabs[i]?=some c.slabs[i] := List.getElem?_eq_getElem hsl
  have hmem : c.ptrs[i]?=some c.ptrs[i] := List.getElem?_eq_getElem hpl
  constructor
  · intro hlt
    refine ⟨c.slabs[i],c.ptrs[i],hslab,hmem,?_⟩
    obtain ⟨c',hc',hs',hp',hb',hm'⟩ := spliceBoth_spec rest hlt.le hm hslab hmem
    refine ⟨c',hc',hs' ▸ moveBefore_eq_take hlt.le hslab,hp' ▸ moveBefore_eq_take hlt.le hmem,
      hs' ▸ moveBefore_perm hlt.le hslab,hp' ▸ moveBefore_perm hlt.le hmem,?_,?_⟩
    · rw [hs',hb']
      exact getElem?_moveBefore_succ hlt hslab
    · rw [hp',hm']
      exact getElem?_moveBefore_succ hlt hmem
  · intro hne
    set rows := c.slabs.zip c.ptrs with hrows
    have hfst : c.slabs=rows.map Prod.fst := (List.map_fst_zip (by omega)).symm
    have hsnd : c.ptrs=rows.map Prod.snd := (List.map_snd_zip (by omega)).symm
    have hlen : rows.length=n := by rw [← hs,hfst,List.length_map]
    have hrow : rows[i]?=some rows[i] := List.getElem?_eq_getElem (by omega)
    obtain ⟨c',rows',hc',hs',hp',hm',hperm,hact⟩ :=
      memToDispatch_rows rest hfst hsnd hm (hlen ▸ ha) hrow hne
    have hlen' : rows'.length=n-1 := by
      rw [hperm.length_eq,List.length_eraseIdx_of_lt (by omega),hlen]
    refine ⟨c',hc',?_,?_,?_,?_,?_⟩
    · rw [hs',List.length_map,hlen']
    · rw [hp',List.length_map,hlen']
    · have hzip : rows'=(rows'.map Prod.fst).zip (rows'.map Prod.snd) := List.zip_of_prod rfl rfl
      rw [hs',hp',← hzip]
      exact hperm
    · rw [hs',hfst,List.getElem?_map,List.getElem?_map,hact]
    · rw [hm',hp',hsnd,List.getElem?_map,List.getElem?_map,hact]

/-- Three slabs with the second active: the third goes in front of it, or is removed. -/
theorem rearrangement_keeps_active_three :
    let c : Cache := Cache.mk 0 12 4 8 1 [⟨8,4,[],[]⟩,⟨8,4,[1],[]⟩,⟨8,4,[2],[3]⟩] [100,200,300] 1 1
    (∃ c', spliceBoth (fun _ => []) c 2 2=some c' ∧ c'.ptrs=[100,300,200] ∧
      c'.slabs=[⟨8,4,[],[]⟩,⟨8,4,[2],[3]⟩,⟨8,4,[1],[]⟩] ∧ c'.ptrs[c'.actMem]?=some 200) ∧
    ∃ c', memToDispatch (fun _ => []) c 2 2=some c' ∧
      (c'.slabs.zip c'.ptrs).Perm [(⟨8,4,[],[]⟩,100),(⟨8,4,[1],[]⟩,200)] ∧
      c'.ptrs[c'.actMem]?=some 200 := by
  intro c
  obtain ⟨hmove,hremove⟩ := rearrangement_keeps_active (fun _ => []) (c := c) (n := 3) (a := 1)
    (i := 2) rfl rfl rfl rfl (by decide) (by decide)
  obtain ⟨slab,mem,hslab,hmem,c₁,hc₁,hs₁,hp₁,_,_,_,hact₁⟩ := hmove (by decide)
  obtain ⟨c₂,hc₂,_,_,hperm₂,_,hact₂⟩ := hremove (by decide)
  cases hslab
  cases hmem
  exact ⟨⟨c₁,hc₁,hp₁,hs₁,hact₁⟩,c₂,hc₂,hperm₂,hact₂⟩

end Moving

end Allocators.SlabMulti
