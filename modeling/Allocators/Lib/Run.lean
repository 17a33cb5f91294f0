import Mathlib.Data.List.Basic

namespace Lib

universe u v

/-- A system whose steps are chosen from outside; `next` is `none` where a step is not available. -/
structure Machine (σ : Type u) (ι : Type v) where
  start : σ → Prop
  next : σ → ι → Option σ

namespace Machine

variable {σ : Type u} {ι : Type v} (M : Machine σ ι)

/-- `M.Run h s`: a run now in `s`, with the state before each step and its label in `h`,
the latest step first. -/
inductive Run : List (σ × ι) → σ → Prop
  | start {s : σ} : M.start s → Run [] s
  | step {h : List (σ × ι)} {s s' : σ} {i : ι} :
      Run h s → M.next s i = some s' → Run ((s,i) :: h) s'

/-- The states of a run, the present one first. -/
def visited (h : List (σ × ι)) (s : σ) : List σ := s :: h.map Prod.fst

def Reachable (s : σ) : Prop := ∃ h, M.Run h s

variable {M}

@[simp] theorem mem_visited {h : List (σ × ι)} {s t : σ} :
    t ∈ visited h s ↔ t = s ∨ ∃ e ∈ h, e.1 = t := by
  simp [visited]

theorem visited_cons (h : List (σ × ι)) (s s' : σ) (i : ι) :
    visited ((s,i) :: h) s' = s' :: visited h s := rfl

/-- Every state a run went through ends a run of its own. -/
theorem Run.reachable {h : List (σ × ι)} {s : σ} (r : M.Run h s) :
    ∀ t ∈ visited h s, M.Reachable t := by
  induction r with
  | @start s h0 =>
    intro t ht
    have he : t = s := by simpa using ht
    subst he
    exact ⟨[],.start h0⟩
  | step r hn ih =>
    intro t ht
    rw [visited_cons,List.mem_cons] at ht
    rcases ht with rfl | ht
    · exact ⟨_,.step r hn⟩
    · exact ih t ht

/-- Every step of a run is the last one of a run. -/
theorem Run.of_suffix {h h' : List (σ × ι)} {s : σ} {e : σ × ι} (r : M.Run h s)
    (hs : e :: h' <:+ h) : M.Run h' e.1 := by
  induction r with
  | start _ => exact absurd (List.suffix_nil.mp hs) (List.cons_ne_nil _ _)
  | @step h s s' i r hn ih =>
    rcases List.suffix_cons_iff.mp hs with he | hs
    · obtain ⟨rfl,rfl⟩ := List.cons.inj he
      exact r
    · exact ih hs

/-- An invariant kept by the guarded steps holds in every state of a guarded run. -/
theorem Run.always {Inv : σ → Prop} {guard : σ → ι → Prop}
    (h0 : ∀ s, M.start s → Inv s)
    (hs : ∀ s i s', Inv s → guard s i → M.next s i = some s' → Inv s')
    {h : List (σ × ι)} {s : σ} (r : M.Run h s) (hg : ∀ e ∈ h, guard e.1 e.2) :
    ∀ t ∈ visited h s, Inv t := by
  induction r with
  | @start s h0' =>
    intro t ht
    have he : t = s := by simpa using ht
    subst he
    exact h0 _ h0'
  | @step h s s' i r hn ih =>
    have hp := ih (fun e he => hg e (List.mem_cons_of_mem _ he))
    intro t ht
    rw [visited_cons,List.mem_cons] at ht
    rcases ht with rfl | ht
    · exact hs s i _ (hp s (by simp)) (hg (s,i) (by simp)) hn
    · exact hp t ht

theorem Run.invariant {Inv : σ → Prop} (h0 : ∀ s, M.start s → Inv s)
    (hs : ∀ s i s', Inv s → M.next s i = some s' → Inv s')
    {h : List (σ × ι)} {s : σ} (r : M.Run h s) : Inv s :=
  have hg : ∀ s i s', Inv s → (fun _ _ => True : σ → ι → Prop) s i → M.next s i = some s' → Inv s' :=
    fun s i s' hi _ hn => hs s i s' hi hn
  r.always h0 hg (fun _ _ => trivial) s (by simp)

theorem Reachable.invariant {Inv : σ → Prop} (h0 : ∀ s, M.start s → Inv s)
    (hs : ∀ s i s', Inv s → M.next s i = some s' → Inv s')
    {s : σ} (r : M.Reachable s) : Inv s :=
  r.elim fun _ r => r.invariant h0 hs

/-- When a step outside the guard spoils `Good` at once, the guard is exactly what a run needs
for `Good` to hold all along. -/
theorem Run.always_iff {Inv Good : σ → Prop} {guard : σ → ι → Prop}
    (h0 : ∀ s, M.start s → Inv s)
    (hs : ∀ s i s', Inv s → guard s i → M.next s i = some s' → Inv s')
    (hgood : ∀ s, Inv s → Good s)
    (hbad : ∀ s i s', Inv s → ¬ guard s i → M.next s i = some s' → ¬ Good s')
    {h : List (σ × ι)} {s : σ} (r : M.Run h s) :
    (∀ t ∈ visited h s, Good t) ↔ ∀ e ∈ h, guard e.1 e.2 := by
  constructor
  · induction r with
    | start _ => simp
    | @step h s s' i r hn ih =>
      intro hv
      have hg := ih (fun t ht => hv t (by rw [visited_cons]; exact List.mem_cons_of_mem _ ht))
      have hi := r.always h0 hs hg s (by simp)
      intro e he
      rcases List.mem_cons.mp he with rfl | he
      · by_contra hb
        exact hbad s i s' hi hb hn (hv s' (by simp))
      · exact hg e he
  · intro hg t ht
    exact hgood t (r.always h0 hs hg t ht)

/-- A run whose steps are steps of another machine, or none at all, as long as it stays in good
states. -/
theorem Run.refines {τ : Type*} {κ : Type*} {N : Machine τ κ} {abs : σ → τ} {label : ι → Option κ}
    {Good : σ → Prop} (h0 : ∀ s, M.start s → N.start (abs s))
    (hs : ∀ s i s', Good s → M.next s i = some s' →
      (label i).elim (abs s' = abs s) fun k => N.next (abs s) k = some (abs s'))
    {h : List (σ × ι)} {s : σ} (r : M.Run h s) (hg : ∀ t ∈ visited h s, Good t) :
    N.Run (h.filterMap fun e => (label e.2).map fun k => (abs e.1,k)) (abs s) := by
  induction r with
  | start hstart => exact .start (h0 _ hstart)
  | @step h s s' i r hn ih =>
    have hrun := ih fun t ht => hg t (by rw [visited_cons]; exact List.mem_cons_of_mem _ ht)
    have hstep := hs s i s' (hg s (by simp)) hn
    cases hl : label i with
    | none =>
      rw [hl] at hstep
      rw [List.filterMap_cons_none (by simp [hl]),hstep]
      exact hrun
    | some k =>
      rw [hl] at hstep
      rw [List.filterMap_cons_some (b := (abs s,k)) (by simp [hl])]
      exact .step hrun hstep

/-- The state after a list of labels, where every step is available. -/
def runFrom (M : Machine σ ι) (s : σ) (is : List ι) : Option σ := is.foldlM M.next s

theorem Run.append {h : List (σ × ι)} {s t : σ} {is : List ι} (r : M.Run h s)
    (hr : M.runFrom s is = some t) : ∃ k, M.Run (k ++ h) t := by
  induction is generalizing h s with
  | nil =>
    have he : s = t := by simpa [runFrom] using hr
    subst he
    exact ⟨[],r⟩
  | cons i is ih =>
    simp only [runFrom,List.foldlM_cons,Option.bind_eq_bind] at hr
    obtain ⟨s',hn,hr'⟩ := Option.bind_eq_some_iff.mp hr
    obtain ⟨k,hk⟩ := ih (.step r hn) hr'
    exact ⟨k ++ [(s,i)],by simpa using hk⟩

/-- What each step keeps holds after any number of further steps. -/
theorem runFrom_invariant {Inv : σ → Prop}
    (hs : ∀ s i s', Inv s → M.next s i = some s' → Inv s') {s t : σ} {is : List ι}
    (hr : M.runFrom s is = some t) (h : Inv s) : Inv t := by
  induction is generalizing s with
  | nil =>
    have he : s = t := by simpa [runFrom] using hr
    exact he ▸ h
  | cons i is ih =>
    simp only [runFrom,List.foldlM_cons,Option.bind_eq_bind] at hr
    obtain ⟨s',hn,hr'⟩ := Option.bind_eq_some_iff.mp hr
    exact ih hr' (hs s i s' h hn)

/-- Steps that each change the state. -/
inductive Strides (M : Machine σ ι) : σ → List ι → σ → Prop
  | nil (s) : Strides M s [] s
  | cons {s s₁ s' i is} : M.next s i = some s₁ → s₁ ≠ s → Strides M s₁ is s' →
      Strides M s (i :: is) s'

/-- Where every step of a kind that changes the state lowers a measure, there are no more of them
than it says. -/
theorem Strides.length_le {Inv : σ → Prop} {ok : ι → Prop} {μ : σ → Nat}
    (hs : ∀ s i s', Inv s → ok i → M.next s i = some s' → Inv s')
    (hm : ∀ s i s', Inv s → ok i → M.next s i = some s' → s' = s ∨ μ s' < μ s)
    {s s' : σ} {is : List ι} (hr : M.Strides s is s') (hok : ∀ i ∈ is, ok i) (h : Inv s) :
    Inv s' ∧ is.length+μ s' ≤ μ s := by
  induction hr with
  | nil s => exact ⟨h,by simp⟩
  | @cons s s₁ s' i is hn hne hr ih =>
    have hi := hok i List.mem_cons_self
    obtain ⟨hinv,hle⟩ := ih (fun j hj => hok j (List.mem_cons_of_mem _ hj)) (hs s i s₁ h hi hn)
    have hlt := (hm s i s₁ h hi hn).resolve_left hne
    refine ⟨hinv,?_⟩
    rw [List.length_cons]
    omega

/-- A concrete run that ends in a state with a decidable property. -/
theorem reachable_of_runFrom (M : Machine σ ι) (s : σ) (is : List ι) (p : σ → Prop)
    [DecidablePred p] (h0 : M.start s) (hr : (M.runFrom s is).any (fun t => decide (p t)) = true) :
    ∃ t, M.Reachable t ∧ p t := by
  obtain ⟨t,ht,hp⟩ := (Option.any_eq_true _ _).mp hr
  obtain ⟨k,hk⟩ := (Run.start h0).append ht
  exact ⟨t,⟨_,hk⟩,by simpa using hp⟩

/-- The machine that takes only the steps inside the guard. -/
def restrict (M : Machine σ ι) (guard : σ → ι → Prop) [∀ s i, Decidable (guard s i)] :
    Machine σ ι where
  start := M.start
  next s i := if guard s i then M.next s i else none

theorem restrict_next {guard : σ → ι → Prop} [∀ s i, Decidable (guard s i)] {s s' : σ} {i : ι} :
    (M.restrict guard).next s i = some s' ↔ guard s i ∧ M.next s i = some s' := by
  change (if guard s i then M.next s i else none)=some s' ↔ _
  split_ifs with hi
  · simp [hi]
  · simp [hi]

theorem Run.of_restrict {guard : σ → ι → Prop} [∀ s i, Decidable (guard s i)]
    {h : List (σ × ι)} {s : σ} (r : (M.restrict guard).Run h s) :
    M.Run h s ∧ ∀ e ∈ h, guard e.1 e.2 := by
  induction r with
  | start h0 => exact ⟨.start h0,by simp⟩
  | @step h s s' i r hn ih =>
    obtain ⟨hr,hg⟩ := ih
    obtain ⟨hi,hn⟩ := restrict_next.mp hn
    refine ⟨.step hr hn,?_⟩
    intro e he
    rcases List.mem_cons.mp he with rfl | he
    · exact hi
    · exact hg e he

theorem Run.restrict {guard : σ → ι → Prop} [∀ s i, Decidable (guard s i)]
    {h : List (σ × ι)} {s : σ} (r : M.Run h s) (hg : ∀ e ∈ h, guard e.1 e.2) :
    (M.restrict guard).Run h s := by
  induction r with
  | start h0 => exact .start h0
  | @step h s s' i r hn ih =>
    apply Run.step (ih fun e he => hg e (List.mem_cons_of_mem _ he))
    exact restrict_next.mpr ⟨hg (s,i) (by simp),hn⟩

/-- The same for the runs whose steps all meet an assumption. -/
theorem Run.always_iff_of {Inv Good : σ → Prop} {assumed guard : σ → ι → Prop}
    (h0 : ∀ s, M.start s → Inv s)
    (hs : ∀ s i s', Inv s → assumed s i → guard s i → M.next s i = some s' → Inv s')
    (hgood : ∀ s, Inv s → Good s)
    (hbad : ∀ s i s', Inv s → assumed s i → ¬ guard s i → M.next s i = some s' → ¬ Good s')
    {h : List (σ × ι)} {s : σ} (r : M.Run h s) (ha : ∀ e ∈ h, assumed e.1 e.2) :
    (∀ t ∈ visited h s, Good t) ↔ ∀ e ∈ h, guard e.1 e.2 := by
  classical
  refine Run.always_iff (M := M.restrict assumed) h0 ?_ hgood ?_ (r.restrict ha)
  · intro s i s' hi hg hn
    obtain ⟨ha,hn⟩ := restrict_next.mp hn
    exact hs s i s' hi ha hg hn
  · intro s i s' hi hg hn
    obtain ⟨ha,hn⟩ := restrict_next.mp hn
    exact hbad s i s' hi ha hg hn

end Machine

end Lib
