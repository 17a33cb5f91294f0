import Allocators.SlabMulti.Interleaving

/-! What the step of a thread under the shared lock needs of the map, the keys and one bucket, and
what it does to the threads in `iterate`. -/

namespace Allocators.SlabMulti

open Lib

namespace Interface

variable {T : Type} [DecidableEq T] {s : Interface T} {id : T} {pair : T × Bucket}

theorem findAlloc_end (h : s.buckets[SmpMap.find s.buckets id]?=none) (idx : Option Nat)
    (bytes : Nat) : s.findAlloc id idx bytes=some (s,some 0) := by
  simp only [findAlloc,SmpMap.findDo,h]

theorem findAlloc_at (h : s.buckets[SmpMap.find s.buckets id]?=some pair) (idx : Option Nat)
    (bytes : Nat) : s.findAlloc id idx bytes=(pair.2.allocate s.dispatcher idx bytes).map fun r =>
      (⟨r.1,s.buckets.set (SmpMap.find s.buckets id) (pair.1,r.2.1)⟩,r.2.2) := by
  simp only [findAlloc,SmpMap.findDo,h]
  cases pair.2.allocate s.dispatcher idx bytes <;> rfl

theorem findDealloc_end (h : s.buckets[SmpMap.find s.buckets id]?=none) (ptr : Nat)
    (idx : Option Nat) (bytes : Nat) :
    s.findDealloc id ptr idx bytes=some (s,false,false) := by
  simp only [findDealloc,SmpMap.findDo,h]

theorem findDealloc_at (h : s.buckets[SmpMap.find s.buckets id]?=some pair) (ptr : Nat)
    (idx : Option Nat) (bytes : Nat) : s.findDealloc id ptr idx bytes=
      (pair.2.deallocate s.dispatcher ptr idx bytes true).map fun r =>
        (⟨r.1,s.buckets.set (SmpMap.find s.buckets id) (pair.1,r.2.1)⟩,r.2.2,true) := by
  simp only [findDealloc,SmpMap.findDo,h]
  cases pair.2.deallocate s.dispatcher ptr idx bytes true <;> rfl

end Interface

namespace Phase

variable {T : Type}

/-- Before or inside what `findDo` and `iterate` do under a shared lock. -/
def reads : Phase T → Bool
  | .finding _ _ | .retrying _ _ | .freeing _ | .seeking _ _ | .searching _ _ _ => true
  | _ => false

/-- In the loop of `iterate`. -/
def searches : Phase T → Bool
  | .searching _ _ _ => true
  | _ => false

theorem searches_after (next : Option (Nat × Nat)) :
    (Phase.after next : Phase T).searches=false := by
  cases next <;> rfl

end Phase

namespace Crowd

variable {T : Type} [DecidableEq T] {w w' : Crowd T} {id t : T} {bs : List (T × Bucket)}

/-- The bucket a thread works on in its next step, if there is one: its own after `find`, or the next
of `iterate` that is not its own. -/
def place (w : Crowd T) (id : T) : Option Nat :=
  match w.phase id with
  | .finding _ _ | .retrying _ _ | .freeing _ =>
    let it := SmpMap.find w.buckets id
    if it < w.buckets.length then some it else none
  | .searching _ _ i =>
    if (w.buckets[i]?).any fun pair => decide (pair.1 ≠ id) then some i else none
  | _ => none

/-- A step of the thread `id` from `w` to `w'` is one with other buckets `bs`, too, where the keys
and the bucket worked on are the same. -/
inductive Local (step : Crowd T → Option (Crowd T)) (w : Crowd T) (id : T) (w' : Crowd T)
    (bs : List (T × Bucket)) : Prop
  | outside : w.place id=none → w'.buckets=w.buckets →
      step { w with buckets := bs }=some { w' with buckets := bs } → Local step w id w' bs
  | inside {it : Nat} {pair : T × Bucket} (pair' : T × Bucket) : w.place id=some it →
      w.buckets[it]?=some pair → pair'.1=pair.1 → w'.buckets=w.buckets.set it pair' →
      step { w with buckets := bs }=some { w' with buckets := bs.set it pair' } →
      Local step w id w' bs

omit [DecidableEq T] in
theorem length_of_keys (hk : bs.map Prod.fst=w.keys) : bs.length=w.buckets.length := by
  have := congrArg List.length hk
  rwa [keys,List.length_map,List.length_map] at this

/-- Where a thread is does not depend on what is in the buckets. -/
theorem place_congr (hk : bs.map Prod.fst=w.keys) (id : T) :
    Crowd.place { w with buckets := bs } id=w.place id := by
  have hlen := length_of_keys hk
  unfold place
  cases hp : w.phase id with
  | finding _ _ | retrying _ _ | freeing _ => simp only [SmpMap.find_congr hk,hlen]
  | searching e registered i =>
    have hany : ∀ l : List (T × Bucket), ((l[i]?).any fun pair => decide (pair.1 ≠ id))=
        ((l.map Prod.fst)[i]?).any fun k => decide (k ≠ id) := fun l => by
      rw [List.getElem?_map,Option.any_map]
    simp only [hany,hk]
    rfl
  | _ => rfl

/-- Where a thread finds its bucket. -/
theorem place_own (h : w.place id=if SmpMap.find w.buckets id < w.buckets.length then
      some (SmpMap.find w.buckets id) else none)
    (hk : bs.map Prod.fst=w.keys) (hb : ∀ it, w.place id=some it → bs[it]?=w.buckets[it]?) :
    (w.place id=none ∧ w.buckets[SmpMap.find w.buckets id]?=none ∧
      bs[SmpMap.find bs id]?=none) ∨
    ∃ pair, w.place id=some (SmpMap.find w.buckets id) ∧
      SmpMap.find bs id=SmpMap.find w.buckets id ∧
      w.buckets[SmpMap.find w.buckets id]?=some pair ∧ bs[SmpMap.find bs id]?=some pair := by
  have hfind : SmpMap.find bs id=SmpMap.find w.buckets id := SmpMap.find_congr hk id
  have hlen := length_of_keys hk
  by_cases hlt : SmpMap.find w.buckets id < w.buckets.length
  · rw [if_pos hlt] at h
    refine .inr ⟨_,h,hfind,List.getElem?_eq_getElem hlt,?_⟩
    rw [hfind,hb _ h,List.getElem?_eq_getElem hlt]
  · rw [if_neg hlt] at h
    refine .inl ⟨h,List.getElem?_eq_none (by omega),?_⟩
    rw [hfind]
    exact List.getElem?_eq_none (by omega)

/-- A thread looks for its bucket, and goes on with what it gets there. -/
theorem local_own {X : Type} (find : Interface T → Option (Interface T × X))
    (op : Bucket → Option (GlobalDispatch × Bucket × X)) (missing : X)
    (go : Crowd T → X → Option (Crowd T))
    (hplace : w.place id=if SmpMap.find w.buckets id < w.buckets.length then
      some (SmpMap.find w.buckets id) else none)
    (hend : ∀ bs : List (T × Bucket), bs[SmpMap.find bs id]?=none →
      find ⟨w.dispatcher,bs⟩=some (⟨w.dispatcher,bs⟩,missing))
    (hat : ∀ (bs : List (T × Bucket)) pair, bs[SmpMap.find bs id]?=some pair →
      find ⟨w.dispatcher,bs⟩=(op pair.2).map fun r =>
        (⟨r.1,bs.set (SmpMap.find bs id) (pair.1,r.2.1)⟩,r.2.2))
    (hgo : ∀ v x v', go v x=some v' → v'.buckets=v.buckets ∧
      ∀ bs : List (T × Bucket), go { v with buckets := bs } x=some { v' with buckets := bs })
    (ha : ∀ bs : List (T × Bucket), Crowd.advance { w with buckets := bs } id=
      (find ⟨w.dispatcher,bs⟩).bind fun r => go (w.put r.1) r.2)
    (hk : bs.map Prod.fst=w.keys) (hb : ∀ it, w.place id=some it → bs[it]?=w.buckets[it]?)
    (h : w.advance id=some w') : Local (fun v => v.advance id) w id w' bs := by
  have h : (find ⟨w.dispatcher,w.buckets⟩).bind (fun r => go (w.put r.1) r.2)=some w' :=
    (ha w.buckets).symm.trans h
  rcases place_own hplace hk hb with ⟨hplace,hw,hbs⟩ | ⟨pair,hplace,hf,hw,hbs⟩
  · rw [hend _ hw,Option.bind_some] at h
    obtain ⟨hsame,hrest⟩ := hgo _ _ _ h
    refine .outside hplace hsame ?_
    rw [ha,hend _ hbs,Option.bind_some]
    exact hrest bs
  · rw [hat _ _ hw] at h
    cases hop : op pair.2 with
    | none => simp [hop] at h
    | some r =>
      rw [hop,Option.map_some,Option.bind_some] at h
      obtain ⟨hsame,hrest⟩ := hgo _ _ _ h
      refine .inside (pair.1,r.2.1) hplace hw rfl hsame ?_
      rw [ha,hat _ _ hbs,hop,Option.map_some,Option.bind_some,hf]
      exact hrest _

theorem local_finding {size count : Nat} (hp : w.phase id=.finding size count)
    (hk : bs.map Prod.fst=w.keys) (hb : ∀ it, w.place id=some it → bs[it]?=w.buckets[it]?)
    (h : w.advance id=some w') : Local (fun v => v.advance id) w id w' bs := by
  let idx := findCacheIdx (toSizeT (size*count))
  let bytes := toSizeT (size*count)
  refine local_own (fun s => s.findAlloc id idx bytes)
    (fun b => b.allocate w.dispatcher idx bytes) (some 0)
    (fun v mem => mem.bind fun mem =>
      if mem ≠ 0 then some (v.handOut id ⟨mem,id,size,count⟩)
      else some (v.goto id (.building (some (size,count)))))
    (by simp only [place,hp]) (fun _ hx => Interface.findAlloc_end hx _ _)
    (fun _ _ hx => Interface.findAlloc_at hx _ _) ?_ ?_ hk hb h
  · rintro v (_ | mem) v' hv
    · cases hv
    · simp only [Option.bind_some] at hv ⊢
      split_ifs at hv with h0
      · obtain rfl := Option.some.inj hv
        exact ⟨rfl,fun _ => if_pos h0⟩
      · obtain rfl := Option.some.inj hv
        exact ⟨rfl,fun _ => if_neg h0⟩
  · intro bs
    simp only [advance,hp,interface]
    rcases Interface.findAlloc ⟨w.dispatcher,bs⟩ id idx bytes with _ | ⟨s,_ | mem⟩ <;> rfl

theorem local_retrying {size count : Nat} (hp : w.phase id=.retrying size count)
    (hk : bs.map Prod.fst=w.keys) (hb : ∀ it, w.place id=some it → bs[it]?=w.buckets[it]?)
    (h : w.advance id=some w') : Local (fun v => v.advance id) w id w' bs := by
  let idx := findCacheIdx (toSizeT (size*count))
  let bytes := toSizeT (size*count)
  refine local_own (fun s => s.findAlloc id idx bytes)
    (fun b => b.allocate w.dispatcher idx bytes) (some 0)
    (fun v mem => mem.map fun mem => v.handOut id ⟨mem,id,size,count⟩)
    (by simp only [place,hp]) (fun _ hx => Interface.findAlloc_end hx _ _)
    (fun _ _ hx => Interface.findAlloc_at hx _ _) ?_ ?_ hk hb h
  · rintro v (_ | mem) v' hv
    · cases hv
    · obtain rfl := Option.some.inj hv
      exact ⟨rfl,fun _ => rfl⟩
  · intro bs
    simp only [advance,hp,interface]
    rcases Interface.findAlloc ⟨w.dispatcher,bs⟩ id idx bytes with _ | ⟨s,_ | mem⟩ <;> rfl

theorem local_freeing {e : Loan T} (hp : w.phase id=.freeing e)
    (hk : bs.map Prod.fst=w.keys) (hb : ∀ it, w.place id=some it → bs[it]?=w.buckets[it]?)
    (h : w.advance id=some w') : Local (fun v => v.advance id) w id w' bs := by
  let idx := findCacheIdx (toSizeT (e.size*e.n))
  let bytes := toSizeT (e.size*e.n)
  refine local_own (fun s => s.findDealloc id e.ptr idx bytes)
    (fun b => (b.deallocate w.dispatcher e.ptr idx bytes true).map fun r =>
      (r.1,r.2.1,r.2.2,true)) (false,false)
    (fun v x => if x.1 then some (v.handBack id e x.2) else some (v.goto id (.seeking e x.2)))
    (by simp only [place,hp]) (fun _ hx => Interface.findDealloc_end hx _ _ _) ?_ ?_ ?_ hk hb h
  · intro bs pair hx
    rw [Interface.findDealloc_at hx]
    cases pair.2.deallocate w.dispatcher e.ptr idx bytes true <;> rfl
  · rintro v ⟨_ | _,registered⟩ v' hv
    · obtain rfl := Option.some.inj hv
      exact ⟨rfl,fun _ => rfl⟩
    · obtain rfl := Option.some.inj hv
      exact ⟨rfl,fun _ => rfl⟩
  · intro bs
    simp only [advance,hp,interface]
    rcases Interface.findDealloc ⟨w.dispatcher,bs⟩ id e.ptr idx bytes with
      _ | ⟨s,_ | _,registered⟩ <;> rfl

/-- `iterate` at a bucket that is not the thread's own, past it, or at the end. -/
theorem local_searching {e : Loan T} {registered : Bool} {i : Nat}
    (hp : w.phase id=.searching e registered i) (hk : bs.map Prod.fst=w.keys)
    (hb : ∀ it, w.place id=some it → bs[it]?=w.buckets[it]?) (h : w.advance id=some w') :
    Local (fun v => v.advance id) w id w' bs := by
  have hplace : w.place id=if (w.buckets[i]?).any fun pair => decide (pair.1 ≠ id) then some i
      else none := by simp only [place,hp]
  have hkey : (bs[i]?).map Prod.fst=(w.buckets[i]?).map Prod.fst := by
    rw [← List.getElem?_map,← List.getElem?_map,hk]
    rfl
  simp only [advance,hp] at h
  cases hw : w.buckets[i]? with
  | none =>
    rw [hw,Option.map_none,Option.map_eq_none_iff] at hkey
    simp only [hw] at h
    obtain rfl := Option.some.inj h
    refine .outside (by rw [hplace,hw]; rfl) rfl ?_
    simp only [advance,hp,hkey]
    rfl
  | some pair =>
    simp only [hw,Interface.deallocElsewhere] at h
    by_cases hid : pair.1=id
    · have hnone : w.place id=none := by
        rw [hplace,hw]
        simp [hid]
      rw [hw,Option.map_some] at hkey
      obtain ⟨pair',hpair',hfst⟩ := Option.map_eq_some_iff.mp hkey
      have hid' : pair'.1=id := hfst.trans hid
      have hsame : ∀ {v : List (T × Bucket)} {x}, v[i]?=some x → v.set i x=v := fun hx => by
        obtain ⟨hi,rfl⟩ := List.getElem?_eq_some_iff.mp hx
        exact List.set_getElem_self hi
      simp only [hid,ne_eq,not_true_eq_false,if_false,hsame hw] at h
      obtain rfl := Option.some.inj h
      refine .outside hnone rfl ?_
      simp only [advance,hp,hpair',Interface.deallocElsewhere,hid',ne_eq,not_true_eq_false,
        if_false,hsame hpair']
      rfl
    · have hsome : w.place id=some i := by
        rw [hplace,hw]
        simp [hid]
      have hbs : bs[i]?=some pair := (hb i hsome).trans hw
      cases hd : pair.2.deallocate w.dispatcher e.ptr (findCacheIdx (toSizeT (e.size*e.n)))
          (toSizeT (e.size*e.n)) false with
      | none => simp [hid,hd] at h
      | some r =>
        obtain ⟨d,b,found⟩ := r
        have ha : Crowd.advance { w with buckets := bs } id=
            if found then some ((w.put ⟨d,bs.set i (pair.1,b)⟩).handBack id e registered)
            else some ((w.put ⟨d,bs.set i (pair.1,b)⟩).goto id
              (.searching e registered (i+1))) := by
          simp only [advance,hp,hbs,Interface.deallocElsewhere,if_pos hid,hd]
          rfl
        simp only [if_pos hid,hd] at h
        cases found with
        | true =>
          obtain rfl := Option.some.inj h
          exact .inside (pair.1,b) hsome hw rfl rfl ha
        | false =>
          obtain rfl := Option.some.inj h
          exact .inside (pair.1,b) hsome hw rfl rfl ha

theorem local_advance (hr : (w.phase id).reads=true) (hk : bs.map Prod.fst=w.keys)
    (hb : ∀ it, w.place id=some it → bs[it]?=w.buckets[it]?) (h : w.advance id=some w') :
    Local (fun v => v.advance id) w id w' bs := by
  cases hp : w.phase id with
  | finding size count => exact local_finding hp hk hb h
  | retrying size count => exact local_retrying hp hk hb h
  | freeing e => exact local_freeing hp hk hb h
  | searching e registered i => exact local_searching hp hk hb h
  | seeking e registered =>
    simp only [advance,hp] at h
    obtain rfl := Option.some.inj h
    refine .outside (by simp only [place,hp]) rfl ?_
    simp only [advance,hp]
    rfl
  | _ => simp [hp,Phase.reads] at hr

variable {answers : List Nat}

theorem local_next (bs : List (T × Bucket)) (hr : (w.phase id).reads=true)
    (hk : bs.map Prod.fst=w.keys) (hb : ∀ it, w.place id=some it → bs[it]?=w.buckets[it]?)
    (h : w.next (id,.advance answers)=some w') :
    Local (fun v => v.next (id,.advance answers)) w id w' bs := by
  cases local_advance (w := w.put (w.interface.supply answers)) hr hk hb h with
  | outside hplace hsame hrest => exact .outside hplace hsame hrest
  | inside _ hplace hw hfst hset hrest => exact .inside _ hplace hw hfst hset hrest

/-- A thread that builds its bucket has nothing to do with the map. -/
theorem local_building {next : Option (Nat × Nat)} (hp : w.phase id=.building next)
    (h : w.next (id,.advance answers)=some w') (bs : List (T × Bucket)) :
    w'.buckets=w.buckets ∧
      Crowd.next { w with buckets := bs } (id,.advance answers)=some { w' with buckets := bs } := by
  simp only [Crowd.next,advance,put,hp] at h
  cases hm : Bucket.make (w.interface.supply answers).dispatcher with
  | none => simp [hm] at h
  | some r =>
    obtain ⟨d,_ | b⟩ := r
    · simp [hm] at h
    · simp only [hm] at h
      obtain rfl := Option.some.inj h
      refine ⟨rfl,?_⟩
      simp only [Crowd.next,advance,put,hp]
      have hm' : Bucket.make (Interface.supply ⟨w.dispatcher,bs⟩ answers).dispatcher=
          some (d,some b) := hm
      simp only [interface,hm']
      rfl

/-- Nor has one that begins a call. -/
theorem local_begin {m : Move T} (hm : ∀ answers, m ≠ .advance answers)
    (h : w.next (id,m)=some w') (bs : List (T × Bucket)) : w'.buckets=w.buckets ∧
      Crowd.next { w with buckets := bs } (id,m)=some { w' with buckets := bs } := by
  cases m with
  | advance answers => exact absurd rfl (hm answers)
  | allocate size count =>
    simp only [Crowd.next] at h ⊢
    cases hp : w.phase id with
    | idle =>
      simp only [hp] at h
      split_ifs at h with hlt
      obtain rfl := Option.some.inj h
      exact ⟨rfl,if_pos hlt⟩
    | _ => simp [hp] at h
  | deallocate e =>
    simp only [Crowd.next] at h ⊢
    cases hp : w.phase id with
    | idle =>
      simp only [hp] at h
      split_ifs at h with he
      obtain rfl := Option.some.inj h
      exact ⟨rfl,if_pos he⟩
    | _ => simp [hp] at h

/-- `readers` are threads in the loop of `iterate`, each once. -/
structure Reading (w : Crowd T) : Prop where
  nodup : w.readers.Nodup
  searches : ∀ t ∈ w.readers, (w.phase t).searches=true

/-- What a step of the thread `id` does to the readers. -/
inductive Rereads (w : Crowd T) (id : T) (w' : Crowd T) : Prop
  | keeps : w'.readers=w.readers → (w'.phase id).searches=(w.phase id).searches → Rereads w id w'
  | enters : w'.readers=id :: w.readers → (w.phase id).searches=false →
      (w'.phase id).searches=true → Rereads w id w'
  | leaves : w'.readers=w.readers.erase id → Rereads w id w'

theorem Reading.step (h : w.Reading) (ho : ∀ t, t ≠ id → w'.phase t=w.phase t)
    (hr : w.Rereads id w') : w'.Reading := by
  cases hr with
  | keeps he hs =>
    refine ⟨he ▸ h.nodup,?_⟩
    intro t ht
    rw [he] at ht
    by_cases hid : t=id
    · subst hid
      exact hs.trans (h.searches t ht)
    · rw [ho t hid]
      exact h.searches t ht
  | enters he hout hin =>
    have hnot : id ∉ w.readers := by
      intro hm
      have := h.searches id hm
      simp [hout] at this
    refine ⟨he ▸ List.nodup_cons.mpr ⟨hnot,h.nodup⟩,?_⟩
    intro t ht
    rw [he] at ht
    rcases List.mem_cons.mp ht with rfl | ht
    · exact hin
    · rw [ho t (ne_of_mem_of_not_mem ht hnot)]
      exact h.searches t ht
  | leaves he =>
    refine ⟨he ▸ h.nodup.erase id,?_⟩
    intro t ht
    rw [he] at ht
    obtain ⟨hid,ht⟩ := (h.nodup.mem_erase_iff).mp ht
    rw [ho t hid]
    exact h.searches t ht

theorem rereads_keeps {p : Phase T} (hp : w'.phase=Function.update w.phase id p)
    (hr : w'.readers=w.readers) (hs : p.searches=(w.phase id).searches) :
    (∀ t, t ≠ id → w'.phase t=w.phase t) ∧ w.Rereads id w' :=
  ⟨fun t ht => by rw [hp,Function.update_of_ne ht],
    .keeps hr (by rw [hp,Function.update_self,hs])⟩

theorem rereads_leaves {p : Phase T} (hp : w'.phase=Function.update w.phase id p)
    (hr : w'.readers=w.readers.erase id) :
    (∀ t, t ≠ id → w'.phase t=w.phase t) ∧ w.Rereads id w' :=
  ⟨fun t ht => by rw [hp,Function.update_of_ne ht],.leaves hr⟩

/-- Each step of a call moves its own thread only. -/
theorem rereads_advance (h : w.advance id=some w') :
    (∀ t, t ≠ id → w'.phase t=w.phase t) ∧ w.Rereads id w' := by
  rw [advance] at h
  cases hp : w.phase id with
  | idle => simp [hp] at h
  | finding size count =>
    simp only [hp] at h
    split at h
    · split_ifs at h
      · obtain rfl := Option.some.inj h
        exact rereads_keeps rfl rfl (by rw [hp]; rfl)
      · obtain rfl := Option.some.inj h
        exact rereads_keeps rfl rfl (by rw [hp]; rfl)
    · cases h
  | retrying size count =>
    simp only [hp] at h
    split at h
    · obtain rfl := Option.some.inj h
      exact rereads_keeps rfl rfl (by rw [hp]; rfl)
    · cases h
  | building next =>
    simp only [hp] at h
    split at h
    · obtain rfl := Option.some.inj h
      exact rereads_keeps rfl rfl (by rw [hp]; rfl)
    · cases h
  | emplacing b next =>
    simp only [hp] at h
    split_ifs at h
    obtain rfl := Option.some.inj h
    exact rereads_keeps rfl rfl (by rw [hp,Phase.searches_after]; rfl)
  | freeing e =>
    simp only [hp] at h
    split at h
    · cases h
    · obtain rfl := Option.some.inj h
      exact rereads_leaves rfl rfl
    · obtain rfl := Option.some.inj h
      exact rereads_keeps rfl rfl (by rw [hp]; rfl)
  | seeking e registered =>
    simp only [hp] at h
    obtain rfl := Option.some.inj h
    refine ⟨fun t ht => by simp [Crowd.goto,ht],.enters rfl (by rw [hp]; rfl) ?_⟩
    simp [Crowd.goto,Phase.searches]
  | searching e registered i =>
    simp only [hp] at h
    split at h
    · obtain rfl := Option.some.inj h
      exact rereads_leaves rfl rfl
    · split at h
      · cases h
      · split_ifs at h
        · obtain rfl := Option.some.inj h
          exact rereads_leaves rfl rfl
        · obtain rfl := Option.some.inj h
          exact rereads_keeps rfl rfl (by rw [hp]; rfl)

/-- A call that begins changes the place of its thread only. -/
theorem begin_phase {m : Move T} (hm : ∀ answers, m ≠ .advance answers)
    (h : w.next (id,m)=some w') : ∃ p : Phase T, p.searches=false ∧ w.phase id=.idle ∧
      w'.phase=Function.update w.phase id p ∧ w'.readers=w.readers := by
  cases m with
  | advance answers => exact absurd rfl (hm answers)
  | allocate _ _ | deallocate _ =>
    cases hp : w.phase id with
    | idle =>
      simp only [Crowd.next,hp] at h
      split_ifs at h
      obtain rfl := Option.some.inj h
      exact ⟨_,rfl,rfl,rfl,rfl⟩
    | _ => simp [Crowd.next,hp] at h

theorem rereads_next (h : w.next (id,.advance answers)=some w') :
    (∀ t, t ≠ id → w'.phase t=w.phase t) ∧ w.Rereads id w' := by
  obtain ⟨ho,hr⟩ := rereads_advance h
  refine ⟨ho,?_⟩
  cases hr with
  | keeps he hs => exact .keeps he hs
  | enters he hout hin => exact .enters he hout hin
  | leaves he => exact .leaves he

/-- `Bucket.make` leads to the `emplace`. -/
theorem searches_of_building {next : Option (Nat × Nat)} (hp : w.phase id=.building next)
    (h : w.next (id,.advance answers)=some w') : (w'.phase id).searches=false := by
  have h : (w.put (w.interface.supply answers)).advance id=some w' := h
  rw [advance] at h
  simp only [Crowd.put,hp] at h
  split at h
  · obtain rfl := Option.some.inj h
    simp [Crowd.goto,Phase.searches]
  · cases h

end Crowd

end Allocators.SlabMulti
