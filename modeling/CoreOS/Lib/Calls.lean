import Mathlib

/-!
# Sequences of calls

Code that makes one call after the other and gives up at the first that fails.

* `Call`: a call gives the state after it, or the reason to stop.
* `runCalls` makes calls in turn and says in which state it ended, and why if it stopped.
  `runCalls_cons_of_ok`, `runCalls_append_of_none` and `runCalls_append_of_some` take it apart.
* `runCalls_invariant`: what every call keeps, a sequence keeps, wherever it stops.
* `converse`: calls that answer; `converse_view`: two components give the same answers if every
  request commutes with a view of the state.
* `GoesThrough`: when a sequence does not stop, and in what state it ends then, call by call.
-/

namespace CoreOS.Lib

variable {σ ε : Type*} {call : σ → Except ε σ} {calls xs ys : List (σ → Except ε σ)} {s s' t : σ}
  {e : ε}

/-- A call: the state after it, or the reason to stop. -/
abbrev Call (σ ε : Type*) := σ → Except ε σ

/-- Makes the calls in turn, up to the first that gives a reason to stop. -/
def runCalls : List (Call σ ε) → σ → σ × Option ε
  | [], s => (s, none)
  | call :: calls, s =>
    match call s with
    | .ok s' => runCalls calls s'
    | .error e => (s, some e)

@[simp] theorem runCalls_nil : runCalls ([] : List (Call σ ε)) s = (s, none) := rfl

theorem runCalls_cons_of_ok (h : call s = .ok s') :
    runCalls (call :: calls) s = runCalls calls s' := by
  simp only [runCalls, h]

theorem runCalls_cons_of_error (h : call s = .error e) :
    runCalls (call :: calls) s = (s, some e) := by
  simp only [runCalls, h]

/-- A sequence goes through if its first call does and the rest goes through from there. -/
theorem runCalls_cons_eq_none : runCalls (call :: calls) s = (t, none) ↔
    ∃ s', call s = .ok s' ∧ runCalls calls s' = (t, none) := by
  cases h : call s with
  | ok s' => simp [runCalls_cons_of_ok h]
  | error e => simp [runCalls_cons_of_error h]

theorem runCalls_append_of_none (h : runCalls xs s = (t, none)) :
    runCalls (xs ++ ys) s = runCalls ys t := by
  induction xs generalizing s with
  | nil =>
      cases h
      rfl
  | cons call xs ih =>
      cases hcall : call s with
      | ok s' =>
          rw [runCalls_cons_of_ok hcall] at h
          rw [List.cons_append, runCalls_cons_of_ok hcall, ih h]
      | error e =>
          rw [runCalls_cons_of_error hcall] at h
          cases h

theorem runCalls_append_of_some (h : runCalls xs s = (t, some e)) :
    runCalls (xs ++ ys) s = (t, some e) := by
  induction xs generalizing s with
  | nil => cases h
  | cons call xs ih =>
      cases hcall : call s with
      | ok s' =>
          rw [runCalls_cons_of_ok hcall] at h
          rw [List.cons_append, runCalls_cons_of_ok hcall, ih h]
      | error e =>
          rw [runCalls_cons_of_error hcall] at h
          rw [List.cons_append, runCalls_cons_of_error hcall, h]

/-- **Invariant rule.** What every call keeps that goes through, the sequence keeps. -/
theorem runCalls_invariant {P : σ → Prop}
    (hcall : ∀ call ∈ calls, ∀ s s', P s → call s = .ok s' → P s') (hs : P s) :
    P (runCalls calls s).1 := by
  induction calls generalizing s with
  | nil => exact hs
  | cons call calls ih =>
      have hrest : ∀ c ∈ calls, ∀ s s', P s → c s = .ok s' → P s' :=
        fun c hc => hcall c (List.mem_cons_of_mem _ hc)
      cases h : call s with
      | ok s' =>
          rw [runCalls_cons_of_ok h]
          exact ih hrest (hcall call List.mem_cons_self s s' hs h)
      | error e =>
          rw [runCalls_cons_of_error h]
          exact hs

/-- The sequence goes through exactly if `X` holds, and then it ends in a state with `Y`. -/
structure GoesThrough (calls : List (Call σ ε)) (s : σ) (X : Prop) (Y : σ → Prop) : Prop where
  iff : (runCalls calls s).2 = none ↔ X
  ends : (runCalls calls s).2 = none → Y (runCalls calls s).1

theorem GoesThrough.nil {Y : σ → Prop} (h : Y s) :
    GoesThrough ([] : List (Call σ ε)) s True Y :=
  ⟨by simp, fun _ => h⟩

/-- A call that goes through exactly if `A` holds, before the others. -/
theorem GoesThrough.cons {A X : Prop} {Y : σ → Prop} (hcall : (∃ s', call s = .ok s') ↔ A)
    (hrest : ∀ s', call s = .ok s' → GoesThrough calls s' X Y) :
    GoesThrough (call :: calls) s (A ∧ X) Y := by
  cases h : call s with
  | ok s' =>
      have hA : A := hcall.mp ⟨s', h⟩
      obtain ⟨hiff, hends⟩ := hrest s' h
      constructor
      · rw [runCalls_cons_of_ok h, hiff]
        exact (and_iff_right hA).symm
      · rw [runCalls_cons_of_ok h]
        exact hends
  | error e =>
      have hA : ¬ A := by
        rw [← hcall, h]
        rintro ⟨s', hs'⟩
        cases hs'
      constructor <;> rw [runCalls_cons_of_error h]
      · exact ⟨nofun, fun hAX => absurd hAX.1 hA⟩
      · exact nofun

/-- A sequence that stops does so for the reason of one of its calls. -/
theorem exists_of_runCalls (h : (runCalls calls s).2 = some e) :
    ∃ call ∈ calls, ∃ t, call t = .error e := by
  induction calls generalizing s with
  | nil => cases h
  | cons call calls ih =>
      cases hcall : call s with
      | ok s' =>
          rw [runCalls_cons_of_ok hcall] at h
          obtain ⟨c, hc, t, ht⟩ := ih h
          exact ⟨c, List.mem_cons_of_mem _ hc, t, ht⟩
      | error e' =>
          rw [runCalls_cons_of_error hcall] at h
          cases h
          exact ⟨call, List.mem_cons_self, s, hcall⟩

/-! ## Calls that answer -/

section Answers

variable {α ρ τ : Type*} {step : α → σ → Except ε (ρ × σ)} {step' : α → τ → Except ε (ρ × τ)}

/-- Makes the requests in turn, up to the first that stops: the answers, and the state at the end or
the reason to stop. -/
def converse (step : α → σ → Except ε (ρ × σ)) : List α → σ → List ρ × Except ε σ
  | [], s => ([], .ok s)
  | a :: as, s =>
    match step a s with
    | .ok (r, s') => ((r :: (converse step as s').1), (converse step as s').2)
    | .error e => ([], .error e)

/-- **Same answers.** Where every request commutes with a view of the state, so does a sequence of
requests; the answers are the same. -/
theorem converse_view {P : σ → Prop} {view : σ → τ}
    (hview : ∀ a s, P s → (step a s).map (Prod.map id view) = step' a (view s))
    (hkeep : ∀ a s r s', P s → step a s = .ok (r, s') → P s') {as : List α} {s : σ} (hs : P s) :
    Prod.map id (Except.map view) (converse step as s) = converse step' as (view s) := by
  induction as generalizing s with
  | nil => rfl
  | cons a as ih =>
      have hstep := hview a s hs
      cases h : step a s with
      | ok p =>
          obtain ⟨r, s'⟩ := p
          rw [h] at hstep
          have hrest := ih (hkeep a s r s' hs h)
          simp only [converse, h, ← hstep, Except.map, Prod.map, id] at hrest ⊢
          rw [← hrest]
      | error e =>
          rw [h] at hstep
          simp only [converse, h, ← hstep, Except.map, Prod.map, id]

end Answers

end CoreOS.Lib
