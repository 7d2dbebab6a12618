import Mathlib

/-!
# Labelled machines, their runs and their invariants

A `Machine σ α` is a set of initial states and a partial step function: `step a s` is the state
after the step labelled `a`, or `none` where that step cannot be taken. Non-determinism (a
schedule, a wake-up, the choice of an element) lives in the labels, so a run is a list of labels
and can be evaluated.

* `Machine.run` executes a list of labels; `run_append` and `run_cons` take it apart.
* `Machine.ReachableBy ok` are the states reached by runs all of whose steps satisfy the guard
  `ok`; `Machine.Reachable` is the unguarded case. `Reachable.run` and `ReachableBy.runBy` connect
  them with runs.
* `ReachableBy.invariant` and `run_invariant` are the two induction rules (from the start, and
  from any state along a run); `run_relation` carries a relation to a fixed earlier state.
* `run_measure` and `exists_run_done` are the rules of termination: steps that lower a measure;
  `runBy_measure` is the first for guarded runs, along a simulation.
* `Machine.observe` adds a history variable, which the steps write and do not read;
  `reachableBy_of_observe` and `ReachableBy.observe`: it changes nothing about what is reached.
* `Machine.within` leaves out the steps that end outside a set of states; `within_run` says which
  runs stay.
* `Simulation` is a forward simulation with stuttering, and `Simulation.reachable` transports
  reachability along it.
-/

namespace CoreOS.Lib

/-- A labelled machine: its initial states and its partial step function. -/
structure Machine (σ α : Type*) where
  /-- The states a run may start from. -/
  init : σ → Prop
  /-- The state after the step labelled `a`, if that step can be taken. -/
  step : α → σ → Option σ

namespace Machine

variable {σ α : Type*} (M : Machine σ α)

/-! ## Runs -/

/-- Executes a list of labels; `none` as soon as one of the steps cannot be taken. -/
def run : List α → σ → Option σ
  | [], s => some s
  | a :: as, s => (M.step a s).bind (run as)

@[simp] theorem run_nil (s : σ) : M.run [] s = some s := rfl

/-- A run splits at its first step. -/
theorem run_cons {a : α} {as : List α} {s s' : σ} :
    M.run (a :: as) s = some s' ↔ ∃ t, M.step a s = some t ∧ M.run as t = some s' := by
  simp only [run, Option.bind_eq_some_iff]

/-- A run splits at any point. -/
theorem run_append {as bs : List α} {s s' : σ} :
    M.run (as ++ bs) s = some s' ↔ ∃ t, M.run as s = some t ∧ M.run bs t = some s' := by
  induction as generalizing s with
  | nil => simp
  | cons a as ih =>
      simp only [List.cons_append, run_cons, ih]
      constructor
      · rintro ⟨t, ht, u, hu, hs'⟩
        exact ⟨u, ⟨t, ht, hu⟩, hs'⟩
      · rintro ⟨u, ⟨t, ht, hu⟩, hs'⟩
        exact ⟨t, ht, u, hu, hs'⟩

/-- A run of one label is a step. -/
theorem run_singleton {a : α} {s s' : σ} : M.run [a] s = some s' ↔ M.step a s = some s' := by
  simp [run_cons]

/-- **Run rule.** What every step preserves, every run preserves. -/
theorem run_invariant {P : σ → Prop}
    (hstep : ∀ a s s', P s → M.step a s = some s' → P s') :
    ∀ (as : List α) {s s' : σ}, P s → M.run as s = some s' → P s'
  | [], _, _, hP, h => by cases h; exact hP
  | a :: as, _, _, hP, h => by
      obtain ⟨t, ht, hrun⟩ := (M.run_cons).mp h
      exact run_invariant hstep as (hstep a _ t hP ht) hrun

/-- **Relational run rule.** A reflexive relation to the state a run starts from that every step
extends holds between both ends of the run. -/
theorem run_relation {R : σ → σ → Prop} (s₀ : σ) (hrefl : R s₀ s₀)
    (hstep : ∀ a s s', R s₀ s → M.step a s = some s' → R s₀ s') (as : List α) {s' : σ}
    (h : M.run as s₀ = some s') : R s₀ s' :=
  M.run_invariant (P := R s₀) hstep as hrefl h

/-- **Measure rule.** Steps that lower a measure are no more than it was. -/
theorem run_measure {P : σ → Prop} {μ : σ → ℕ}
    (hstep : ∀ a s s', P s → M.step a s = some s' → P s' ∧ μ s' < μ s) :
    ∀ (as : List α) {s s' : σ}, P s → M.run as s = some s' → P s' ∧ as.length + μ s' ≤ μ s
  | [], _, _, hP, h => by
      cases h
      exact ⟨hP, (Nat.zero_add _).le⟩
  | a :: as, s, _, hP, h => by
      obtain ⟨t, ht, hrun⟩ := (M.run_cons).mp h
      obtain ⟨hPt, hlt⟩ := hstep a s t hP ht
      obtain ⟨hP', hle⟩ := run_measure hstep as hPt hrun
      refine ⟨hP', ?_⟩
      rw [List.length_cons]
      omega

/-- **Completion rule.** A machine that lowers a measure, and can move until it is done, gets
done. -/
theorem exists_run_done {P done : σ → Prop} {μ : σ → ℕ}
    (hstep : ∀ a s s', P s → M.step a s = some s' → P s' ∧ μ s' < μ s)
    (hmove : ∀ s, P s → done s ∨ ∃ a s', M.step a s = some s') {s : σ} (hP : P s) :
    ∃ as s', M.run as s = some s' ∧ done s' := by
  induction hμ : μ s using Nat.strong_induction_on generalizing s with
  | _ n ih =>
      rcases hmove s hP with hdone | ⟨a, t, ht⟩
      · exact ⟨[], s, rfl, hdone⟩
      · obtain ⟨hPt, hlt⟩ := hstep a s t hP ht
        obtain ⟨as, s', hrun, hdone⟩ := ih _ (hμ ▸ hlt) hPt rfl
        exact ⟨a :: as, s', (M.run_cons).mpr ⟨t, ht, hrun⟩, hdone⟩

/-! ## Reachable states -/

/-- The states reached by runs all of whose steps satisfy the guard `ok` (a condition on the
state before the step and on its label). -/
inductive ReachableBy (ok : σ → α → Prop) : σ → Prop
  | init {s : σ} (h : M.init s) : ReachableBy ok s
  | step {s s' : σ} {a : α} (hs : ReachableBy ok s) (hok : ok s a) (h : M.step a s = some s') :
      ReachableBy ok s'

/-- The states reached by any run. -/
def Reachable : σ → Prop := M.ReachableBy fun _ _ => True

variable {M}

theorem Reachable.init {s : σ} (h : M.init s) : M.Reachable s := ReachableBy.init h

theorem Reachable.step {s s' : σ} {a : α} (hs : M.Reachable s) (h : M.step a s = some s') :
    M.Reachable s' := ReachableBy.step hs trivial h

/-- A guarded run is a run. -/
theorem ReachableBy.reachable {ok : σ → α → Prop} {s : σ} (h : M.ReachableBy ok s) :
    M.Reachable s := by
  induction h with
  | init h => exact Reachable.init h
  | step _ _ h ih => exact ih.step h

/-- **Invariant rule.** A predicate that holds initially and is preserved by every step that
satisfies the guard holds in every state reached under the guard. The step may use that its
source state is reachable. -/
theorem ReachableBy.invariant {ok : σ → α → Prop} {P : σ → Prop} (h0 : ∀ s, M.init s → P s)
    (hstep : ∀ a s s', M.ReachableBy ok s → P s → ok s a → M.step a s = some s' → P s')
    {s : σ} (h : M.ReachableBy ok s) : P s := by
  induction h with
  | init h => exact h0 _ h
  | step hs hok h ih => exact hstep _ _ _ hs ih hok h

/-- The invariant rule without a guard. -/
theorem Reachable.invariant {P : σ → Prop} (h0 : ∀ s, M.init s → P s)
    (hstep : ∀ a s s', P s → M.step a s = some s' → P s') {s : σ} (h : M.Reachable s) : P s :=
  ReachableBy.invariant h0 (fun a s s' _ hP _ hs => hstep a s s' hP hs) h

/-- A run from a reachable state ends in a reachable state. -/
theorem Reachable.run {as : List α} {s s' : σ} (hs : M.Reachable s)
    (h : M.run as s = some s') : M.Reachable s' :=
  M.run_invariant (P := M.Reachable) (fun _ _ _ hP hst => hP.step hst) as hs h

/-- Executes a list of labels as long as the guard holds before each. -/
def runBy (M : Machine σ α) (ok : σ → α → Prop) [∀ s a, Decidable (ok s a)] :
    List α → σ → Option σ
  | [], s => some s
  | a :: as, s => if ok s a then (M.step a s).bind (runBy M ok as) else none

/-- A guarded run from a state reached under the guard ends in one. -/
theorem ReachableBy.runBy {ok : σ → α → Prop} [∀ s a, Decidable (ok s a)] {as : List α} {s s' : σ}
    (hs : M.ReachableBy ok s) (h : M.runBy ok as s = some s') : M.ReachableBy ok s' := by
  induction as generalizing s with
  | nil => cases h; exact hs
  | cons a as ih =>
      simp only [Machine.runBy] at h
      split_ifs at h with hok
      obtain ⟨t, ht, h⟩ := Option.bind_eq_some_iff.mp h
      exact ih (hs.step hok ht) h

/-- A guarded run is a run. -/
theorem run_of_runBy {ok : σ → α → Prop} [∀ s a, Decidable (ok s a)] {as : List α} {s s' : σ}
    (h : M.runBy ok as s = some s') : M.run as s = some s' := by
  induction as generalizing s with
  | nil => exact h
  | cons a as ih =>
      simp only [Machine.runBy] at h
      split_ifs at h
      obtain ⟨t, ht, h⟩ := Option.bind_eq_some_iff.mp h
      exact (M.run_cons).mpr ⟨t, ht, ih h⟩

/-- **Completion rule**, under a guard. -/
theorem ReachableBy.exists_done {ok : σ → α → Prop} {P done : σ → Prop} {μ : σ → ℕ}
    (hmove : ∀ s, P s → done s ∨
      ∃ a s', ok s a ∧ M.step a s = some s' ∧ P s' ∧ μ s' < μ s)
    {s : σ} (hs : M.ReachableBy ok s) (hP : P s) : ∃ s', M.ReachableBy ok s' ∧ P s' ∧ done s' := by
  induction hμ : μ s using Nat.strong_induction_on generalizing s with
  | _ n ih =>
      rcases hmove s hP with hdone | ⟨a, t, hok, ht, hPt, hlt⟩
      · exact ⟨s, hs, hP, hdone⟩
      · exact ih _ (hμ ▸ hlt) (hs.step hok ht) hPt rfl

/-- **Measure rule along a simulation**, under a guard: the measure may depend on what the state is
related to. -/
theorem runBy_measure {τ : Type*} {R : σ → τ → Prop} {μ : σ → τ → ℕ} {ok : σ → α → Prop}
    [∀ s a, Decidable (ok s a)]
    (hstep : ∀ a s s' t, R s t → ok s a → M.step a s = some s' → ∃ t', R s' t' ∧ μ s' t' < μ s t) :
    ∀ (as : List α) {s s' : σ} {t : τ}, R s t → M.runBy ok as s = some s' →
      ∃ t', R s' t' ∧ as.length + μ s' t' ≤ μ s t
  | [], _, _, t, hR, h => by
      cases h
      exact ⟨t, hR, (Nat.zero_add _).le⟩
  | a :: as, s, _, t, hR, h => by
      simp only [Machine.runBy] at h
      split_ifs at h with hok
      obtain ⟨u, hu, hrun⟩ := Option.bind_eq_some_iff.mp h
      obtain ⟨t₁, hR₁, hlt⟩ := hstep a s u t hR hok hu
      obtain ⟨t', hR', hle⟩ := runBy_measure hstep as hR₁ hrun
      refine ⟨t', hR', ?_⟩
      rw [List.length_cons]
      omega

/-! ## History variables -/

section history

variable {γ : Type*} (g₀ : γ) (note : α → σ → σ → γ → γ)

/-- The machine with a history variable, which starts as `g₀` and which every step rewrites from
its label, its two states and the history so far. -/
def observe (M : Machine σ α) : Machine (σ × γ) α where
  init p := M.init p.1 ∧ p.2 = g₀
  step a p := (M.step a p.1).map fun s' => (s', note a p.1 s' p.2)

variable {g₀ note}

theorem observe_step {a : α} {p p' : σ × γ} : (M.observe g₀ note).step a p = some p' ↔
    M.step a p.1 = some p'.1 ∧ p'.2 = note a p.1 p'.1 p.2 := by
  simp only [observe, Option.map_eq_some_iff]
  constructor
  · rintro ⟨s', hs', rfl⟩
    exact ⟨hs', rfl⟩
  · rintro ⟨hs', hg⟩
    exact ⟨p'.1, hs', by rw [← hg]⟩

/-- Without its history, what is reached is reached by the machine itself. -/
theorem reachableBy_of_observe {ok : σ → α → Prop} {p : σ × γ}
    (h : (M.observe g₀ note).ReachableBy (fun p a => ok p.1 a) p) : M.ReachableBy ok p.1 := by
  induction h with
  | init h => exact .init h.1
  | step _ hok h ih => exact ih.step hok (observe_step.mp h).1

/-- Whatever the machine reaches has a history. -/
theorem ReachableBy.observe {ok : σ → α → Prop} {s : σ} (h : M.ReachableBy ok s) :
    ∃ g, (M.observe g₀ note).ReachableBy (fun p a => ok p.1 a) (s, g) := by
  induction h with
  | init h => exact ⟨g₀, .init ⟨h, rfl⟩⟩
  | @step s s' a _ hok h ih =>
      obtain ⟨g, hg⟩ := ih
      have hstep : (M.observe g₀ note).step a (s, g) = some (s', note a s s' g) :=
        observe_step.mpr ⟨h, rfl⟩
      exact ⟨_, hg.step hok hstep⟩

end history

/-! ## Bounded states -/

section within

variable (fits : σ → Prop) [DecidablePred fits]

/-- The machine without the steps that end in a state that does not fit. -/
def within (M : Machine σ α) : Machine σ α where
  init := M.init
  step a s := (M.step a s).filter fun s' => fits s'

variable {fits}

theorem within_step {a : α} {s s' : σ} :
    (M.within fits).step a s = some s' ↔ M.step a s = some s' ∧ fits s' := by
  simp [within, Option.filter_eq_some_iff]

theorem within_step_eq_none {a : α} {s : σ} :
    (M.within fits).step a s = none ↔
      M.step a s = none ∨ ∃ s', M.step a s = some s' ∧ ¬ fits s' := by
  cases h : M.step a s <;> simp [within, h]

/-- What is reached inside is reached. -/
theorem reachableBy_of_within {ok : σ → α → Prop} {s : σ} (h : (M.within fits).ReachableBy ok s) :
    M.ReachableBy ok s := by
  induction h with
  | init h => exact .init h
  | step _ hok h ih => exact ih.step hok (within_step.mp h).1

/-- What is reached inside fits. -/
theorem fits_of_within {ok : σ → α → Prop} (hinit : ∀ s, M.init s → fits s) {s : σ}
    (h : (M.within fits).ReachableBy ok s) : fits s := by
  cases h with
  | init h => exact hinit s h
  | step _ _ h => exact (within_step.mp h).2

/-- **Stay rule.** Where a step cannot come back from outside, a run that ends inside was inside. -/
theorem within_run {P : σ → Prop} (hstep : ∀ a s s', P s → M.step a s = some s' → P s')
    (hback : ∀ a s s', P s → M.step a s = some s' → fits s' → fits s) :
    ∀ (as : List α) {s s' : σ}, P s → M.run as s = some s' → fits s' →
      (M.within fits).run as s = some s' ∧ fits s
  | [], _, _, _, h, hfits => by
      cases h
      exact ⟨rfl, hfits⟩
  | a :: as, s, _, hP, h, hfits => by
      obtain ⟨t, ht, hrun⟩ := (M.run_cons).mp h
      obtain ⟨hrun', hfits'⟩ := within_run hstep hback as (hstep a s t hP ht) hrun hfits
      exact ⟨(run_cons _).mpr ⟨t, within_step.mpr ⟨ht, hfits'⟩, hrun'⟩, hback a s t hP ht hfits'⟩

end within

/-! ## Forward simulation -/

/-- A forward simulation with stuttering of `M` by `N`: related states stay related when `M`
takes a guarded step and `N` answers it with a run (of any length, none included). -/
structure Simulation {τ β : Type*} (M : Machine σ α) (ok : σ → α → Prop) (N : Machine τ β)
    (R : σ → τ → Prop) : Prop where
  /-- Every initial state is related to an initial state. -/
  init : ∀ s, M.init s → ∃ t, N.init t ∧ R s t
  /-- Every guarded step from related states is answered by a run. -/
  step : ∀ a s s' t, R s t → ok s a → M.step a s = some s' →
    ∃ bs t', N.run bs t = some t' ∧ R s' t'

/-- Reachability transports along a simulation. -/
theorem Simulation.reachable {τ β : Type*} {ok : σ → α → Prop} {N : Machine τ β}
    {R : σ → τ → Prop} (hsim : Simulation M ok N R) {s : σ} (h : M.ReachableBy ok s) :
    ∃ t, N.Reachable t ∧ R s t := by
  induction h with
  | init h =>
      obtain ⟨t, ht, hR⟩ := hsim.init _ h
      exact ⟨t, Reachable.init ht, hR⟩
  | step _ hok h ih =>
      obtain ⟨t, ht, hR⟩ := ih
      obtain ⟨bs, t', hrun, hR'⟩ := hsim.step _ _ _ t hR hok h
      exact ⟨t', ht.run hrun, hR'⟩

end Machine

end CoreOS.Lib
