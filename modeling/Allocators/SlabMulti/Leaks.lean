import Allocators.SlabMulti.Depot

/-! The slabs that `memToDispatch` takes from a cache and gives to nobody. -/

namespace Allocators.SlabMulti

open Lib Vector Extent

namespace Depot

variable {s s' : Depot}

/-- How many calls of a run give a slab back. -/
def givenBack (h : List (Depot × Request)) : Nat := h.countP fun e => decide (¬ e.1.Retains e.2)

/-- As long as no `operator new` fails inside `requestMem` (after a failure its superblocks are not
all counted), what was ever cut from superblocks is in the dispatcher, in a cache or lost, and one
slab is lost in each call that gives one back. -/
theorem leaks_accounted {h : List (Depot × Request)} (r : machine.Run h s)
    (hx : ∀ e ∈ h, e.1.Supplied e.2) :
    ∃ lost, lost.length=givenBack h ∧
      (s.dispatcher.blocks ++ (s.ptrs ++ lost)).Perm s.dispatcher.carved ∧
      Tiled (slabExtents (s.dispatcher.blocks ++ (s.ptrs ++ lost))) ∧
      s.dispatcher.blocks.length+s.ptrs.length+givenBack h=
        superblockSize/slabSize*s.dispatcher.totalSBlocks := by
  have hspent : ∃ lost, s.Spent lost ∧ lost.length=givenBack h := by
    induction r with
    | start h0 => exact ⟨[],spent_start h0,rfl⟩
    | @step h t t' q r hn ih =>
      obtain ⟨lost,hs,hl⟩ := ih fun e he => hx e (List.mem_cons_of_mem _ he)
      obtain ⟨gone,hs',hg⟩ := hs.next (hx (t,q) List.mem_cons_self) hn
      refine ⟨gone ++ lost,hs',?_⟩
      rw [List.length_append,hg,hl,givenBack,givenBack,List.countP_cons]
      by_cases hr : t.Retains q
      · simp [hr]
      · simp [hr]
        omega
  obtain ⟨lost,hs,hl⟩ := hspent
  refine ⟨lost,hl,hs.places.placed,?_,?_⟩
  · rw [slabExtents_append]
    exact hs.ledger.tiled
  · have ht := hs.places.total
    rw [List.length_append] at ht
    omega

/-- The third of three blocks comes back, and its slab is lost. -/
theorem leaks_accounted_given_back : ∃ (h : List (Depot × Request)) (s : Depot),
    s.ptrs=[5226496] ∧ givenBack h=1 ∧ ∃ lost, lost.length=givenBack h ∧
      (s.dispatcher.blocks ++ (s.ptrs ++ lost)).Perm s.dispatcher.carved := by
  obtain ⟨s,⟨h,r⟩,hp,hl,ht⟩ := Machine.reachable_of_runFrom (machine.restrict Supplied) first
    [.make 7 [],.allocate 0 [],.allocate 0 [],.allocate 0 [],.deallocate 0 5210112 true]
    (fun s => s.ptrs=[5226496] ∧ s.dispatcher.blocks.length+s.ptrs.length=255 ∧
      s.dispatcher.totalSBlocks=4) start_first (by decide +kernel)
  obtain ⟨hr,hx⟩ := r.of_restrict
  obtain ⟨lost,hlost,hperm,_,htotal⟩ := leaks_accounted hr hx
  have hcut : superblockSize/slabSize=64 := by decide
  rw [ht,hcut] at htotal
  exact ⟨h,s,hp,by omega,lost,hlost,hperm⟩

/-- There is always memory that was not granted yet. -/
theorem exists_grants (n : Nat) (granted deleted : List Extent) :
    ∃ answers, Heap.Grants n ⟨answers,granted,deleted⟩ := by
  induction n generalizing granted with
  | zero => exact ⟨[],trivial⟩
  | succ n ih =>
    let mem := 1+(granted.map fun g => g.1+g.2).sum
    have hbelow : ∀ g ∈ granted, g.1+g.2 ≤ mem := by
      intro g hg
      have hle : g.1+g.2 ≤ (granted.map fun g => g.1+g.2).sum :=
        List.single_le_sum (by simp) _ (List.mem_map_of_mem hg)
      omega
    have hnew : 0 < mem ∧ ∀ g ∈ granted, Extent.Apart (mem,superblockSize) g := by
      refine ⟨by omega,fun g hg => apart_iff.mpr ?_⟩
      exact .inr (.inr (.inr (hbelow g hg)))
    obtain ⟨answers,ha⟩ := ih ((mem,superblockSize) :: granted)
    refine ⟨mem :: answers,?_⟩
    have hn : Heap.new ⟨mem :: answers,granted,deleted⟩ superblockSize=
        some (mem,⟨answers,(mem,superblockSize) :: granted,deleted⟩) := by
      simp only [Heap.new,if_pos hnew]
    rw [Heap.Grants,hn]
    exact ha

section Cycle

variable {d d' : GlobalDispatch} {a b : Nat} {answers : List Nat}

/-- A cache of the largest class with one slab, whose first block is live. -/
def oneLive (a : Nat) : Cache :=
  ⟨1,2,2,largestCache,0,[⟨largestCache,2,[1],[]⟩],[a],0,0⟩

/-- The other block was handed out, and the cache has a new slab at `b`. -/
def grown (a b : Nat) : Cache :=
  ⟨2,4,2,largestCache,0,[⟨largestCache,2,[1,0],[]⟩,⟨largestCache,2,[],[]⟩],[b,a],0,0⟩

/-- One block of the new slab was handed out too. -/
def threeLive (a b : Nat) : Cache :=
  ⟨3,4,2,largestCache,0,[⟨largestCache,2,[1],[]⟩,⟨largestCache,2,[],[]⟩],[b,a],0,0⟩

/-- It came back, and the new slab is gone. -/
def shrunk (a : Nat) : Cache :=
  ⟨2,2,2,largestCache,0,[⟨largestCache,2,[],[]⟩],[a],0,0⟩

theorem allocate_oneLive (hb : d.getBlock=(some b,d')) :
    (oneLive a).allocate d=some (d',grown a b,some (a+largestCache)) := by
  have hi : Dispatch.getIndicies d largestCache=some [1,0] := by
    exact (getIndicies_eq (show largestCache ∈ cacheSizes by decide)).trans (by decide)
  have hb : Dispatch.getBlock d=(some b,d') := hb
  simp [Cache.allocate,oneLive,Slab.allocate,Cache.possiblyFull,Slab.full,Cache.addCache,hi,hb,
    swapBack,grown]

theorem allocate_grown : (grown a b).allocate d=some (d,threeLive a b,some b) := by
  simp [Cache.allocate,grown,Slab.allocate,threeLive]

theorem deallocate_threeLive : (threeLive a b).deallocate b true=some (shrunk a,true) := by
  have hl : 0 < largestCache := by decide
  have hsearch : (threeLive a b).search b=some (some 0) := by
    simp [Cache.search,Cache.searchLoop,threeLive,Slab.containsMem,hl]
  have hlocate : (threeLive a b).locate b true=some
      (⟨3,4,2,largestCache,0,[⟨largestCache,2,[1,0],[]⟩,⟨largestCache,2,[],[]⟩],[b,a],0,0⟩,
        some (.toDispatch 0)) := by
    rw [Cache.locate,hsearch]
    simp [threeLive,Slab.deallocate,toIndexSizeT,Cache.decision,Slab.size,Slab.empty,
      Cache.minSlabs]
  rw [Cache.deallocate,hlocate]
  simp [Cache.rearrange,Cache.memToDispatch,swapBack,shrunk]

theorem deallocate_shrunk :
    (shrunk a).deallocate (a+largestCache) true=some (oneLive a,true) := by
  have hl : 0 < largestCache := by decide
  have h1 : toIndexSizeT 1=1 := toIndexSizeT_of_lt (by decide)
  have hsearch : (shrunk a).search (a+largestCache)=some (some 0) := by
    have hin : largestCache < largestCache*2 := by omega
    simp [Cache.search,Cache.searchLoop,shrunk,Slab.containsMem,hin]
  have hlocate : (shrunk a).locate (a+largestCache) true=some
      (⟨2,2,2,largestCache,0,[⟨largestCache,2,[1],[]⟩],[a],0,0⟩,some .nothing) := by
    rw [Cache.locate,hsearch]
    simp [shrunk,Slab.deallocate,Cache.decision,Slab.size,Slab.empty,Cache.minSlabs,
      Nat.div_self hl,h1]
  rw [Cache.deallocate,hlocate]
  simp [Cache.rearrange,oneLive]

/-- How many blocks are live. -/
def liveCount (s : Depot) : Nat := (s.clients.map fun k => k.live.length).sum

/-- A run with memory for all its calls and at most three live blocks at a time. -/
structure Thin (h : List (Depot × Request)) (s : Depot) : Prop where
  run : machine.Run h s
  supplied : ∀ e ∈ h, e.1.Supplied e.2
  few : ∀ t ∈ Machine.visited h s, t.liveCount ≤ 3

theorem Thin.step {h : List (Depot × Request)} {q : Request} (ht : Thin h s)
    (hn : s.serve q=some s') (hx : s.Supplied q) (hl : s'.liveCount ≤ 3) :
    Thin ((s,q) :: h) s' := by
  refine ⟨.step ht.run hn,?_,?_⟩
  · intro e he
    rcases List.mem_cons.mp he with rfl | he
    · exact hx
    · exact ht.supplied e he
  · intro t hv
    rw [Machine.visited_cons] at hv
    rcases List.mem_cons.mp hv with rfl | hv
    · exact hl
    · exact ht.few t hv

/-- A cache is built and one block allocated. -/
theorem thin_oneLive : ∃ h s a, Thin h s ∧ s.clients=[⟨oneLive a,[a]⟩] := by
  have hstart : Thin [] first := by
    refine ⟨.start start_first,by simp,?_⟩
    intro t ht
    obtain rfl : t=first := by simpa using ht
    simp [liveCount,first]
  have hsup : (first.dispatcher.supply []).Supplies := by decide +kernel
  obtain ⟨a,d,hb⟩ := GlobalDispatch.getBlock_of_supplies hsup
  have hb' : Dispatch.getBlock (first.dispatcher.supply [])=(some a,d) := hb
  have hi : Dispatch.getIndicies (first.dispatcher.supply []) largestCache=some [1,0] :=
    (getIndicies_eq (show largestCache ∈ cacheSizes by decide)).trans (by decide)
  have hsize : cacheSizes[7]?=some largestCache := by decide
  have hcount : blocksPer[7]?=some 2 := by decide
  have h1 : first.serve (.make 7 [])=
      some ⟨d,[⟨⟨0,2,2,largestCache,0,[⟨largestCache,2,[1,0],[]⟩],[a],0,0⟩,[]⟩]⟩ := by
    simp only [serve,hsize,hcount,Cache.make,Cache.addCache,hi,hb']
    simp [first]
  have h2 : serve ⟨d,[⟨⟨0,2,2,largestCache,0,[⟨largestCache,2,[1,0],[]⟩],[a],0,0⟩,[]⟩]⟩
      (.allocate 0 [])=some ⟨d.supply [],[⟨oneLive a,[a]⟩]⟩ := by
    simp [serve,Cache.allocate,Slab.allocate,oneLive]
  have hgrow : ¬ Cache.Grows ⟨0,2,2,largestCache,0,[⟨largestCache,2,[1,0],[]⟩],[a],0,0⟩ := by
    simp [Cache.Grows]
  have ht1 := hstart.step h1 hsup (by simp [liveCount])
  exact ⟨_,_,a,ht1.step h2 (fun hx => absurd hx hgrow) (by simp [liveCount]),rfl⟩

/-- Allocate twice and free twice: the cache is as it was, and a slab is lost. -/
theorem Thin.cycle {h : List (Depot × Request)} (ht : Thin h s)
    (hs : s.clients=[⟨oneLive a,[a]⟩]) :
    ∃ h' s', Thin h' s' ∧ s'.clients=[⟨oneLive a,[a]⟩] ∧ givenBack h < givenBack h' := by
  obtain ⟨d,clients⟩ := s
  simp only at hs
  subst hs
  obtain ⟨answers,hgrants⟩ := exists_grants initSuperblocks d.heap.granted d.heap.deleted
  have hsup : (d.supply answers).Supplies := fun _ => hgrants
  obtain ⟨b,d',hb⟩ := GlobalDispatch.getBlock_of_supplies hsup
  have h1 : serve ⟨d,[⟨oneLive a,[a]⟩]⟩ (.allocate 0 answers)=
      some ⟨d',[⟨grown a b,[a+largestCache,a]⟩]⟩ := by
    simp [serve,allocate_oneLive hb]
  have h2 : serve ⟨d',[⟨grown a b,[a+largestCache,a]⟩]⟩ (.allocate 0 [])=
      some ⟨d'.supply [],[⟨threeLive a b,[b,a+largestCache,a]⟩]⟩ := by
    simp [serve,allocate_grown]
  have h3 : serve ⟨d'.supply [],[⟨threeLive a b,[b,a+largestCache,a]⟩]⟩ (.deallocate 0 b true)=
      some ⟨d'.supply [],[⟨shrunk a,[a+largestCache,a]⟩]⟩ := by
    simp [serve,deallocate_threeLive]
  have h4 : serve ⟨d'.supply [],[⟨shrunk a,[a+largestCache,a]⟩]⟩
      (.deallocate 0 (a+largestCache) true)=some ⟨d'.supply [],[⟨oneLive a,[a]⟩]⟩ := by
    simp [serve,deallocate_shrunk]
  have hgrow : ¬ (grown a b).Grows := by simp [Cache.Grows,grown]
  have hback : ¬ Retains ⟨d'.supply [],[⟨threeLive a b,[b,a+largestCache,a]⟩]⟩
      (.deallocate 0 b true) := by
    have hl : 0 < largestCache := by decide
    intro hr
    refine hr ⟨0,by simp,⟨largestCache,2,[1],[]⟩,b,rfl,rfl,?_,rfl,?_,?_⟩
    · simp [threeLive,Slab.containsMem,hl]
    · simp [threeLive,Cache.minSlabs]
    · simp [threeLive]
  have ht1 := ht.step h1 (fun _ => hsup) (by simp [liveCount])
  have ht2 := ht1.step h2 (fun hx => absurd hx hgrow) (by simp [liveCount])
  have ht3 := ht2.step h3 trivial (by simp [liveCount])
  refine ⟨_,_,ht3.step h4 trivial (by simp [liveCount]),rfl,?_⟩
  simp only [givenBack,List.countP_cons,decide_eq_true hback]
  simp
  omega

/-- However much memory: some run that never has more than three live blocks has it taken from
`operator new`. -/
theorem leaks_without_bound (n : Nat) : ∃ (h : List (Depot × Request)) (s : Depot),
    machine.Run h s ∧ (∀ e ∈ h, e.1.Supplied e.2) ∧
    (∀ t ∈ Machine.visited h s, t.liveCount ≤ 3) ∧ n ≤ s.dispatcher.totalSBlocks := by
  have hcycles : ∀ m, ∃ h s a, Thin h s ∧ s.clients=[⟨oneLive a,[a]⟩] ∧ m ≤ givenBack h := by
    intro m
    induction m with
    | zero =>
      obtain ⟨h,s,a,ht,hs⟩ := thin_oneLive
      exact ⟨h,s,a,ht,hs,Nat.zero_le _⟩
    | succ m ih =>
      obtain ⟨h,s,a,ht,hs,hm⟩ := ih
      obtain ⟨h',s',ht',hs',hlt⟩ := ht.cycle hs
      exact ⟨h',s',a,ht',hs',by omega⟩
  obtain ⟨h,s,a,ht,hs,hm⟩ := hcycles (superblockSize/slabSize*n)
  obtain ⟨_,_,_,_,htotal⟩ := leaks_accounted ht.run ht.supplied
  refine ⟨h,s,ht.run,ht.supplied,ht.few,?_⟩
  have hpos : 0 < superblockSize/slabSize := by decide
  refine Nat.le_of_mul_le_mul_left ?_ hpos
  omega

end Cycle

end Depot

end Allocators.SlabMulti
