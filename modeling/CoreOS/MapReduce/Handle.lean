import CoreOS.MapReduce.OwnBarriers
import CoreOS.MapReduce.Reporting

/-!
# The life of a job

The thread that starts a job, asks for its state, waits for it and closes it, beside the workers.

* `Handle` and `handleStep`: a label is the worker that moves, or none for the caller. The caller
  makes the calls of a list, any calls of `waitForJob` and `getJobState`, and `closeJobHandle`.
* `CallerPoint.created`, `joined`, `waited`, `resources`: what the caller has done when it is at a
  point.
* `Managed`: the invariant, with the job's own; `Managed.step`.
* `handle_safe`: threads are created and joined once, and nothing is destroyed that is in use.
* `handle_terminates`: every call returns.
* `reports_after_wait`: what `getJobState` reports once `waitForJob` has returned.
-/

namespace CoreOS.MapReduce.Statement

open CoreOS.Lib Function Finset

variable {Input K V Out P : Type*} {T : ℕ} {client : Client Input K V Out} {input : List Input}
  {out : List Out}

/-! ## The machine -/

/-- A call that is made while the job runs. -/
inductive Call
  | waitForJob
  | getJobState
  deriving DecidableEq

/-- What `closeJobHandle` destroys or deletes. -/
inductive Resource
  | sem
  | mutexGetProgress
  | mutexSetAtomic
  | mutexMap
  | mutexSort
  | mutexReduce
  | barrier
  | barrierReduce
  | progress
  | job
  deriving DecidableEq

/-- The order in which `closeJobHandle` does so.
Source: `MapReduceFramework.cpp`, `closeJobHandle` -/
def closeOrder : List Resource :=
  [.sem, .mutexGetProgress, .mutexSetAtomic, .mutexMap, .mutexSort, .mutexReduce, .barrier,
    .barrierReduce, .progress, .job]

/-- Where the caller is. In `waitForJob`, `closing` says that `closeJobHandle` has called it. -/
inductive CallerPoint
  /-- In the loop of `startMapReduceJob`, at the thread `k`. -/
  | create (k : ℕ)
  /-- Between two calls. -/
  | idle
  /-- At `if (!wait_for_job_bool)`. -/
  | waitTest (closing : Bool)
  /-- In the loop of `waitForJob`, at `pthread_join` of the thread `k`. -/
  | join (closing : Bool) (k : ℕ)
  /-- At `wait_for_job_bool = true`. -/
  | waitSet (closing : Bool)
  /-- In `closeJobHandle`, with what is still to be destroyed. -/
  | destroy (resources : List Resource)
  /-- `closeJobHandle` has returned. -/
  | closed
  deriving DecidableEq

/-- A job and its caller. `created`, `joined`, `destroyed` and `reports` are histories. -/
structure Handle (T : ℕ) (P Out : Type*) where
  /-- The job. -/
  program : Program T P Out
  /-- Where the caller is. -/
  caller : CallerPoint := .create 0
  /-- The calls that it will make before `closeJobHandle`. -/
  calls : List Call
  /-- `wait_for_job_bool`. -/
  waitForJobBool : Bool := false
  /-- How often each thread has been created. -/
  created : Fin T → ℕ := fun _ => 0
  /-- How often each thread has been joined. -/
  joined : Fin T → ℕ := fun _ => 0
  /-- What has been destroyed. -/
  destroyed : List Resource := []
  /-- What `getJobState` has reported, and whether `waitForJob` had returned before. -/
  reports : List (Bool × JobState) := []

/-- Has returned from `main_map_reduce_framework`. -/
def Point.hasReturned : Point P → Bool
  | returned => true
  | _ => false

/-- The next statement of the caller.
Source: `MapReduceFramework.cpp`, `startMapReduceJob`, `waitForJob`, `getJobState`,
`closeJobHandle` -/
def callerStep (h : Handle T P Out) : Option (Handle T P Out) :=
  match h.caller with
  | .create k =>
      if hk : k < T then some { h with
        created := update h.created ⟨k, hk⟩ (h.created ⟨k, hk⟩ + 1)
        caller := .create (k + 1) }
      else some { h with caller := .idle }
  | .idle =>
      match h.calls with
      | [] => some { h with caller := .waitTest true }
      | .waitForJob :: calls => some { h with caller := .waitTest false, calls := calls }
      | .getJobState :: calls => some { h with
          calls := calls
          reports :=
            h.reports ++ [(h.waitForJobBool, getJobState h.program.shared.progress)] }
  | .waitTest closing =>
      some { h with caller := if h.waitForJobBool then .waitSet closing else .join closing 0 }
  | .join closing k =>
      if hk : k < T then
        -- `pthread_join` returns once the thread has
        if (h.program.shared.pc ⟨k, hk⟩).hasReturned then some { h with
          joined := update h.joined ⟨k, hk⟩ (h.joined ⟨k, hk⟩ + 1)
          caller := .join closing (k + 1) }
        else none
      else some { h with caller := .waitSet closing }
  | .waitSet closing => some { h with
      waitForJobBool := true
      caller := if closing then .destroy closeOrder else .idle }
  | .destroy [] => some { h with caller := .closed }
  | .destroy (resource :: resources) => some { h with
      destroyed := h.destroyed ++ [resource]
      caller := .destroy resources }
  | .closed => none

section machine

variable (client : Client Input K V Out) (input : List Input)

/-- The next statement of a worker that has been created, or of the caller. -/
def handleStep (label : Option (Fin T × ℕ)) (h : Handle T (K × V) Out) :
    Option (Handle T (K × V) Out) :=
  match label with
  | none => callerStep h
  | some label =>
      if 0 < h.created label.1 then
        (programStep client input label h.program).map fun p => { h with program := p }
      else none

/-- The caller is about to create the threads. Source: `MapReduceFramework.cpp`,
`startMapReduceJob` -/
def freshHandle (T : ℕ) (calls : List Call) (outputVec : List Out) : Handle T P Out where
  program := freshProgram input T outputVec
  calls := calls

/-- The life of a job: it is started, `calls` are made, and it is closed. -/
def jobLife (multiThreadLevel : ℕ) (calls : List Call) (outputVec : List Out) :
    Machine (Handle (numOfThreads multiThreadLevel input) (K × V) Out)
      (Option (Fin (numOfThreads multiThreadLevel input) × ℕ)) where
  init h := h = freshHandle input _ calls outputVec
  step := handleStep client input

end machine

/-- A worker that moves does not come back from a `pthread_cond_wait` during which no broadcast was
made. -/
def HandlePrompted (h : Handle T P Out) : Option (Fin T × ℕ) → Prop
  | none => True
  | some label => ProgramPrompted h.program label

instance (h : Handle T P Out) (label : Option (Fin T × ℕ)) : Decidable (HandlePrompted h label) :=
  match label with
  | none => .isTrue trivial
  | some label => inferInstanceAs (Decidable (ProgramPrompted h.program label))

/-! ## Where the caller is and what it has done -/

namespace CallerPoint

/-- How often the thread `i` has been created. -/
def created : CallerPoint → ℕ → ℕ
  | create k, i => if i < k then 1 else 0
  | _, _ => 1

/-- How often the thread `i` has been joined, given `wait_for_job_bool`. -/
def joined (waited : Bool) : CallerPoint → ℕ → ℕ
  | join _ k, i => if i < k then 1 else 0
  | waitSet _, _ => 1
  | _, _ => waited.toNat

/-- What `wait_for_job_bool` can be. -/
def waited : CallerPoint → Bool → Bool
  | create _, b | join _ _, b => !b
  | destroy _, b | closed, b => b
  | _, _ => true

/-- What is still to be destroyed. -/
def resources : CallerPoint → List Resource
  | destroy resources => resources
  | closed => []
  | _ => closeOrder

/-- The statements that the caller has left once it is between two calls, `calls` of them before
`closeJobHandle`. -/
def idleLeft (T calls : ℕ) : ℕ := (calls + 1) * (T + 4) + closeOrder.length + 1

/-- The statements that it has left after a `waitForJob`. -/
def afterWait (T calls : ℕ) (closing : Bool) : ℕ :=
  if closing then closeOrder.length + 1 else idleLeft T calls

/-- The statements that it has left. -/
def statementsLeft (T calls : ℕ) : CallerPoint → ℕ
  | create k => T - k + 1 + idleLeft T calls
  | idle => idleLeft T calls
  | waitTest closing => T + 3 + afterWait T calls closing
  | join closing k => T - k + 2 + afterWait T calls closing
  | waitSet closing => 1 + afterWait T calls closing
  | destroy resources => resources.length + 1
  | closed => 0

end CallerPoint

section invariant

variable {h h' : Handle T (K × V) Out} {t : JobContext T (K × V) Out}

/-- What is known of a state in the life of a job whose sections lead to `t`. -/
structure Managed (client : Client Input K V Out) (input : List Input) (out : List Out)
    (h : Handle T (K × V) Out) (t : JobContext T (K × V) Out) : Prop where
  program : h.program.RunsAs client input out t
  created : ∀ i, h.created i = h.caller.created i
  joined : ∀ i, h.joined i = h.caller.joined h.waitForJobBool i
  waited : h.caller.waited h.waitForJobBool = true
  destroyed : h.destroyed ++ h.caller.resources = closeOrder
  returned : ∀ i, 0 < h.joined i → h.program.shared.pc i = .returned
  noThreads : T = 0 → h.program.shared.outputVec = out

/-- The statements that the workers and the caller have left. -/
def handleMeasure (size n : ℕ) (h : Handle T P Out) (t : JobContext T P Out) : ℕ :=
  programMeasure size n h.program t + h.caller.statementsLeft T h.calls.length

/-- **What a step of the caller is.** -/
inductive CallerCases (h : Handle T P Out) : Handle T P Out → Prop
  | create {k : ℕ} (hat : h.caller = .create k) (hk : k < T) :
      CallerCases h { h with
        created := update h.created ⟨k, hk⟩ (h.created ⟨k, hk⟩ + 1)
        caller := .create (k + 1) }
  | created {k : ℕ} (hat : h.caller = .create k) (hk : ¬ k < T) :
      CallerCases h { h with caller := .idle }
  | close (hat : h.caller = .idle) (hcalls : h.calls = []) :
      CallerCases h { h with caller := .waitTest true }
  | wait {calls : List Call} (hat : h.caller = .idle) (hcalls : h.calls = .waitForJob :: calls) :
      CallerCases h { h with caller := .waitTest false, calls := calls }
  | report {calls : List Call} (hat : h.caller = .idle) (hcalls : h.calls = .getJobState :: calls) :
      CallerCases h { h with
        calls := calls
        reports := h.reports ++ [(h.waitForJobBool, getJobState h.program.shared.progress)] }
  | skip {closing : Bool} (hat : h.caller = .waitTest closing) (hbool : h.waitForJobBool = true) :
      CallerCases h { h with caller := .waitSet closing }
  | join {closing : Bool} (hat : h.caller = .waitTest closing) (hbool : h.waitForJobBool = false) :
      CallerCases h { h with caller := .join closing 0 }
  | joinNext {closing : Bool} {k : ℕ} (hat : h.caller = .join closing k) (hk : k < T)
      (hreturned : h.program.shared.pc ⟨k, hk⟩ = .returned) :
      CallerCases h { h with
        joined := update h.joined ⟨k, hk⟩ (h.joined ⟨k, hk⟩ + 1)
        caller := .join closing (k + 1) }
  | joined {closing : Bool} {k : ℕ} (hat : h.caller = .join closing k) (hk : ¬ k < T) :
      CallerCases h { h with caller := .waitSet closing }
  | waited {closing : Bool} (hat : h.caller = .waitSet closing) :
      CallerCases h { h with
        waitForJobBool := true
        caller := if closing then .destroy closeOrder else .idle }
  | destroy {resource : Resource} {resources : List Resource}
      (hat : h.caller = .destroy (resource :: resources)) :
      CallerCases h { h with
        destroyed := h.destroyed ++ [resource]
        caller := .destroy resources }
  | closed (hat : h.caller = .destroy []) : CallerCases h { h with caller := .closed }

theorem Point.hasReturned_iff {x : Point P} : x.hasReturned = true ↔ x = .returned := by
  cases x <;> simp [hasReturned]

theorem callerStep_cases {h h' : Handle T P Out} (hstep : callerStep h = some h') :
    CallerCases h h' := by
  unfold callerStep at hstep
  split at hstep
  case h_1 k hat =>
    split_ifs at hstep with hk <;> cases hstep
    · exact .create hat hk
    · exact .created hat hk
  case h_2 hat =>
    split at hstep <;> cases hstep
    case h_1 hcalls => exact .close hat hcalls
    case h_2 hcalls => exact .wait hat hcalls
    case h_3 hcalls => exact .report hat hcalls
  case h_3 closing hat =>
    cases hstep
    split_ifs with hbool
    · exact .skip hat hbool
    · exact .join hat (Bool.eq_false_of_not_eq_true hbool)
  case h_4 closing k hat =>
    split_ifs at hstep with hk hreturned <;> cases hstep
    · exact .joinNext hat hk (Point.hasReturned_iff.mp hreturned)
    · exact .joined hat hk
  case h_5 closing hat =>
    cases hstep
    exact .waited hat
  case h_6 hat =>
    cases hstep
    exact .closed hat
  case h_7 resource resources hat =>
    cases hstep
    exact .destroy hat
  case h_8 => cases hstep

namespace Managed

theorem init {calls : List Call} :
    Managed client input out (freshHandle input T calls out) (freshJob T out) where
  program := .init
  created _ := rfl
  joined _ := rfl
  waited := rfl
  destroyed := rfl
  returned _ h := absurd h (Nat.lt_irrefl 0)
  noThreads _ := rfl

/-- The caller moves, and nothing is created, joined or destroyed. -/
theorem move (m : Managed client input out h t) {x y : CallerPoint} {calls : List Call}
    {reports : List (Bool × JobState)} (hat : h.caller = x)
    (hcreated : ∀ i : Fin T, y.created i = x.created i)
    (hjoined : ∀ i : Fin T, y.joined h.waitForJobBool i = x.joined h.waitForJobBool i)
    (hwaited : y.waited h.waitForJobBool = true) (hresources : y.resources = x.resources) :
    Managed client input out { h with caller := y, calls := calls, reports := reports } t where
  program := m.program
  created i := by rw [hcreated, ← hat, m.created]
  joined i := by rw [hjoined, ← hat, m.joined]
  waited := hwaited
  destroyed := by rw [hresources, ← hat, m.destroyed]
  returned := m.returned
  noThreads := m.noThreads

/-- One more thread has been treated. -/
theorem count_update {f : Fin T → ℕ} {k : ℕ} (hf : ∀ i : Fin T, f i = if i.val < k then 1 else 0)
    (hk : k < T) (i : Fin T) :
    update f ⟨k, hk⟩ (f ⟨k, hk⟩ + 1) i = if i.val < k + 1 then 1 else 0 := by
  by_cases hi : i = ⟨k, hk⟩
  · rw [hi, update_self, hf]
    simp
  · have hne : i.val ≠ k := fun e => hi (Fin.ext e)
    rw [update_of_ne hi, hf]
    exact if_congr (by omega) rfl rfl

/-- All threads have been treated. -/
theorem count_all {k : ℕ} (hk : ¬ k < T) (i : Fin T) : (if i.val < k then 1 else 0) = 1 :=
  if_pos (by omega)

/-- **Step lemma, for the caller.** -/
theorem callerStep (m : Managed client input out h t) (hstep : callerStep h = some h') :
    Managed client input out h' t := by
  have hcreated := m.created
  have hjoined := m.joined
  have hwaited := m.waited
  have hdestroyed := m.destroyed
  cases callerStep_cases hstep with
  | create hat hk =>
      rw [hat] at hcreated hjoined hwaited hdestroyed
      exact ⟨m.program, count_update hcreated hk, hjoined, hwaited, hdestroyed, m.returned,
        m.noThreads⟩
  | created hat hk =>
      exact m.move hat (fun i => (count_all hk i).symm) (fun _ => rfl) rfl rfl
  | close hat | wait hat => exact m.move hat (fun _ => rfl) (fun _ => rfl) rfl rfl
  | report => exact ⟨m.program, hcreated, hjoined, hwaited, hdestroyed, m.returned, m.noThreads⟩
  | skip hat hbool => exact m.move hat (fun _ => rfl) (fun _ => by rw [hbool]; rfl) rfl rfl
  | join hat hbool =>
      exact m.move hat (fun _ => rfl) (fun _ => by rw [hbool]; rfl) (by rw [hbool]; rfl) rfl
  | @joinNext closing k hat hk hreturned =>
      rw [hat] at hcreated hjoined hwaited hdestroyed
      refine ⟨m.program, hcreated, count_update hjoined hk, hwaited, hdestroyed, fun i hi => ?_,
        m.noThreads⟩
      by_cases hik : i = ⟨k, hk⟩
      · rw [hik]
        exact hreturned
      · dsimp only at hi
        rw [update_of_ne hik] at hi
        exact m.returned i hi
  | joined hat hk =>
      exact m.move hat (fun _ => rfl) (fun i => (count_all hk i).symm) rfl rfl
  | @waited closing hat =>
      rw [hat] at hcreated hjoined hwaited hdestroyed
      cases closing with
      | false => exact ⟨m.program, hcreated, hjoined, rfl, hdestroyed, m.returned, m.noThreads⟩
      | true => exact ⟨m.program, hcreated, hjoined, rfl, hdestroyed, m.returned, m.noThreads⟩
  | destroy hat =>
      rw [hat] at hcreated hjoined hwaited hdestroyed
      refine ⟨m.program, hcreated, hjoined, hwaited, ?_, m.returned, m.noThreads⟩
      rw [← hdestroyed]
      exact List.append_assoc ..
  | closed hat =>
      rw [hat] at hcreated hjoined hwaited hdestroyed
      exact ⟨m.program, hcreated, hjoined, hwaited, hdestroyed, m.returned, m.noThreads⟩

end Managed

/-- Every statement of the caller brings its end nearer. -/
theorem callerStep_statementsLeft {h h' : Handle T P Out} (hstep : callerStep h = some h') :
    h'.caller.statementsLeft T h'.calls.length < h.caller.statementsLeft T h.calls.length := by
  have hafter : CallerPoint.afterWait T h.calls.length true = closeOrder.length + 1 := rfl
  cases callerStep_cases hstep with
  | @waited closing hat =>
      rw [hat]
      cases closing <;> simp only [CallerPoint.statementsLeft, CallerPoint.afterWait, if_true,
        Bool.false_eq_true, if_false] <;> omega
  | close hat hcalls | wait hat hcalls | report hat hcalls =>
      rw [hat, hcalls]
      simp only [CallerPoint.statementsLeft, CallerPoint.idleLeft, CallerPoint.afterWait,
        List.length_cons, List.length_nil, add_mul, if_true, Bool.false_eq_true, if_false]
      omega
  | create hat | created hat | skip hat | join hat | joinNext hat | joined hat | destroy hat
    | closed hat =>
      rw [hat]
      simp only [CallerPoint.statementsLeft, List.length_cons]
      omega

/-- A statement of a worker leaves the others where they are, and the worker had one to execute. -/
theorem programStep_pc {p p' : Program T (K × V) Out} {i : Fin T} {pick : ℕ}
    (hstep : programStep client input (i, pick) p = some p') :
    (∃ x, p'.shared.pc = update p.shared.pc i x) ∧ p.shared.pc i ≠ .returned := by
  constructor
  · rcases programStep_cases hstep with ⟨-, b, -, rfl⟩ | ⟨-, b, -, rfl⟩ | ⟨-, s, hs, rfl⟩
    · by_cases hunlock : p.barrier.pc i = .unlock
      · rw [if_pos hunlock]
        exact ⟨_, rfl⟩
      · rw [if_neg hunlock]
        exact ⟨_, (update_eq_self i _).symm⟩
    · by_cases hunlock : p.barrierReduce.pc i = .unlock
      · rw [if_pos hunlock]
        exact ⟨_, rfl⟩
      · rw [if_neg hunlock]
        exact ⟨_, (update_eq_self i _).symm⟩
    · obtain ⟨x, hx, -⟩ := step_pc hs
      exact ⟨x, hx⟩
  · intro hpc
    simp only [programStep, hpc, Statement.step, Option.map_none] at hstep
    cases hstep

/-- A statement of a worker that has been created. -/
theorem handleStep_some {label : Fin T × ℕ}
    (hstep : handleStep client input (some label) h = some h') :
    0 < h.created label.1 ∧ ∃ p, programStep client input label h.program = some p ∧
      h' = { h with program := p } := by
  simp only [handleStep] at hstep
  split_ifs at hstep with hcreated
  obtain ⟨p, hp, rfl⟩ := Option.map_eq_some_iff.mp hstep
  exact ⟨hcreated, p, hp, rfl⟩

variable [IsStrictWeakOrder (K × V) client.compareByFirstElement]

/-- **Step lemma.** A statement of a worker is one of the job; every one lowers the measure. -/
theorem Managed.step (hlt : input.length < 2 ^ 31) (hpairs : 0 < T → input.flatMap client.map ≠ [])
    (m : Managed client input out h t) {label : Option (Fin T × ℕ)} (hok : HandlePrompted h label)
    (hstep : handleStep client input label h = some h') :
    ∃ t', (t' = t ∨ ∃ label, jobStep client input label t = some t') ∧
      Managed client input out h' t' ∧
      handleMeasure input.length (input.flatMap client.map).length h' t' <
        handleMeasure input.length (input.flatMap client.map).length h t := by
  cases label with
  | none =>
      refine ⟨t, .inl rfl, m.callerStep hstep, ?_⟩
      have hprogram : h'.program = h.program := by
        cases callerStep_cases hstep <;> rfl
      rw [handleMeasure, handleMeasure, hprogram]
      exact Nat.add_lt_add_left (callerStep_statementsLeft hstep) _
  | some label =>
      obtain ⟨i, pick⟩ := label
      obtain ⟨-, p, hp, rfl⟩ := handleStep_some hstep
      obtain ⟨t', ht', hprogram, hdrop⟩ :=
        m.program.advance hlt (hpairs (Fin.pos i)) hok hp
      refine ⟨t', ht', ⟨hprogram, m.created, m.joined, m.waited, m.destroyed, ?_, ?_⟩,
        Nat.add_lt_add_right hdrop _⟩
      · intro j hj
        obtain ⟨⟨x, hx⟩, hi⟩ := programStep_pc hp
        have hji : j ≠ i := by
          rintro rfl
          exact hi (m.returned j hj)
        dsimp only
        rw [hx, update_of_ne hji]
        exact m.returned j hj
      · rintro rfl
        exact i.elim0

end invariant

/-! ## What is not in use any more -/

/-- Nothing that belongs to the job is in use, nor will be. -/
structure Unused (p : Program T P Out) : Prop where
  returned : ∀ i, p.shared.pc i = .returned
  mutexSetAtomic : p.shared.mutexSetAtomic = none
  mutexMap : p.shared.mutexMap = none
  mutexSort : p.shared.mutexSort = none
  mutexReduce : p.shared.mutexReduce = none
  barrier : ∀ i, p.barrier.pc i = .idle
  barrierReduce : ∀ i, p.barrierReduce.pc i = .idle

section managed

variable {h : Handle T (K × V) Out} {t : JobContext T (K × V) Out}

/-- A mutex that only workers hold that have not returned is free once all have. -/
theorem mutex_eq_none_of_returned {holds : Point P → Bool} {pc : Fin T → Point P}
    {mutex : Option (Fin T)} (howned : Owned holds pc mutex) (hall : ∀ i, pc i = .returned)
    (hholds : holds .returned = false) : mutex = none := by
  rw [Option.eq_none_iff_forall_ne_some]
  intro j hj
  have hheld := (howned j).mp hj
  rw [hall j, hholds] at hheld
  cases hheld

/-- When all workers have returned nothing is in use. -/
theorem Program.RunsAs.unused {p : Program T (K × V) Out} (hp : p.RunsAs client input out t)
    (hall : ∀ i, p.shared.pc i = .returned) : Unused p where
  returned := hall
  mutexSetAtomic := mutex_eq_none_of_returned hp.statements.refines.stage.owned hall rfl
  mutexMap := mutex_eq_none_of_returned hp.statements.refines.informed.mutexMap hall rfl
  mutexSort := mutex_eq_none_of_returned hp.statements.mutexSort hall rfl
  mutexReduce := mutex_eq_none_of_returned hp.statements.refines.informed.mutexReduce hall rfl
  barrier i := hp.linked.barrier.idle (by rw [hall i]; exact Nat.ne_of_gt (Nat.le_of_ble_eq_true rfl))
  barrierReduce i :=
    hp.linked.barrierReduce.idle (by rw [hall i]; exact Nat.ne_of_gt (Nat.le_of_ble_eq_true rfl))

namespace Managed

theorem created_le (m : Managed client input out h t) (i : Fin T) : h.created i ≤ 1 := by
  rw [m.created]
  cases h.caller with
  | create k =>
      simp only [CallerPoint.created]
      split_ifs <;> exact Nat.le_of_ble_eq_true rfl
  | _ => exact le_rfl

theorem joined_le (m : Managed client input out h t) (i : Fin T) : h.joined i ≤ h.created i := by
  have hwaited := m.waited
  rw [m.joined, m.created]
  cases hat : h.caller with
  | create k =>
      have hbool : h.waitForJobBool = false := by simpa [hat, CallerPoint.waited] using hwaited
      rw [hbool]
      exact Nat.zero_le _
  | join closing k =>
      simp only [CallerPoint.joined, CallerPoint.created]
      split_ifs <;> exact Nat.le_of_ble_eq_true rfl
  | waitSet => exact le_rfl
  | _ => exact Bool.toNat_le _

/-- Once `waitForJob` has returned all threads have been joined. -/
theorem joined_of_waited (m : Managed client input out h t) (hbool : h.waitForJobBool = true)
    (i : Fin T) : h.joined i = 1 := by
  have hwaited := m.waited
  rw [hbool] at hwaited
  rw [m.joined, hbool]
  cases hat : h.caller with
  | join closing k =>
      rw [hat] at hwaited
      cases hwaited
  | _ => rfl

/-- And have returned. -/
theorem returned_of_waited (m : Managed client input out h t) (hbool : h.waitForJobBool = true)
    (i : Fin T) : h.program.shared.pc i = .returned :=
  m.returned i (by rw [m.joined_of_waited hbool i]; exact Nat.one_pos)

/-- Nothing is destroyed before. -/
theorem waited_of_destroyed (m : Managed client input out h t) (hne : h.destroyed ≠ []) :
    h.waitForJobBool = true := by
  have hwaited := m.waited
  have hdestroyed := m.destroyed
  cases hat : h.caller with
  | destroy resources =>
      rw [hat] at hwaited
      exact hwaited
  | closed =>
      rw [hat] at hwaited
      exact hwaited
  | _ =>
      rw [hat] at hdestroyed
      exact absurd (List.append_left_eq_self.mp hdestroyed) hne

end Managed

/-- What is reported of a job that has ended. -/
def fullReport : JobState := ⟨.reduceStage, some handlePercentages⟩

/-- Once all workers have returned, the word says that everything has been done. -/
theorem Program.RunsAs.report {p : Program T (K × V) Out}
    (hp : p.RunsAs client input out t) (hlt : input.length < 2 ^ 31)
    (hplt : (input.flatMap client.map).length < 2 ^ 31)
    (hpairs : input.flatMap client.map ≠ []) {stage : Stage} {done : ℕ}
    (hc : Counting client input out stage done t) (i : Fin T)
    (hall : ∀ j, p.shared.pc j = .returned) : getJobState p.shared.progress = fullReport := by
  have habs := hp.statements.refines.abstracts
  have hprogress : t.progress = p.shared.progress := by
    have howes : ∑ j, (p.shared.pc j).owes = 0 := sum_eq_zero fun j _ => by rw [hall j]; rfl
    rw [habs.progress, howes]
    simp
  have hreturned : ∀ j, t.pc j = .returned := fun j => by rw [habs.pc, hall j]; rfl
  obtain ⟨rfl, hdone, hnum⟩ := hc.returned i hreturned
  obtain ⟨hstage, htoDo, hcount⟩ := hc.fields hlt hplt
  have hne : (input.flatMap client.map).length ≠ 0 := by
    rwa [ne_eq, List.length_eq_zero_iff]
  rw [getJobState, ← hprogress, hstage, htoDo, hcount, hdone, hnum, stageSize, if_neg hne,
    (percentage_eq_iff hne le_rfl).mpr rfl]
  rfl

/-- Where the caller cannot go on, it waits for a worker. -/
theorem callerStep_eq_none {h : Handle T P Out} (hnone : callerStep h = none)
    (hopen : h.caller ≠ .closed) :
    ∃ closing k, ∃ hk : k < T, h.caller = .join closing k ∧
      h.program.shared.pc ⟨k, hk⟩ ≠ .returned := by
  unfold callerStep at hnone
  split at hnone
  case h_1 => split_ifs at hnone
  case h_2 => split at hnone <;> cases hnone
  case h_4 closing k hat =>
    split_ifs at hnone with hk hreturned
    exact ⟨closing, k, hk, hat, fun e => hreturned (Point.hasReturned_iff.mpr e)⟩
  case h_8 hat => exact absurd hat hopen
  all_goals cases hnone

/-- **Nobody is left behind**: until the job has been closed, the caller or a worker can move. -/
theorem Managed.exists_step [IsStrictWeakOrder (K × V) client.compareByFirstElement]
    (m : Managed client input out h t) (hopen : h.caller ≠ .closed) :
    ∃ label h', HandlePrompted h label ∧ handleStep client input label h = some h' := by
  cases hcaller : Statement.callerStep h with
  | some h' => exact ⟨none, h', trivial, hcaller⟩
  | none =>
      obtain ⟨closing, k, hk, hat, hpc⟩ := callerStep_eq_none hcaller hopen
      obtain ⟨label, p, hok, hp⟩ := m.program.exists_step hpc
      have hcreated : 0 < h.created label.1 := by
        rw [m.created, hat]
        exact Nat.one_pos
      refine ⟨some label, { h with program := p }, hok, ?_⟩
      simp only [handleStep, if_pos hcreated, hp, Option.map_some]

end managed

/-! ## Whole lives -/

section runs

variable {level : ℕ} {calls : List Call}

/-- A job that has a worker has pairs. -/
theorem pairs_of_thread (hpairs : input ≠ [] → input.flatMap client.map ≠ [])
    (hT : 0 < numOfThreads level input) : input.flatMap client.map ≠ [] := by
  refine hpairs ?_
  rintro rfl
  simp [numOfThreads] at hT

variable [IsStrictWeakOrder K fun a b => client.lt a b = true]

/-- **Run rule.** The invariant holds whatever the caller calls and however the threads take
turns. -/
theorem managed_of_reachable (hlt : input.length < 2 ^ 31)
    (hpairs : input ≠ [] → input.flatMap client.map ≠ [])
    {h : Handle (numOfThreads level input) (K × V) Out}
    (hr : (jobLife client input level calls out).ReachableBy HandlePrompted h) :
    ∃ t, Managed client input out h t := by
  refine hr.invariant (P := fun h => ∃ t, Managed client input out h t) ?_ ?_
  · rintro _ rfl
    exact ⟨_, .init⟩
  · rintro label h h' - ⟨t, m⟩ hok hstep
    obtain ⟨t', -, m', -⟩ := m.step hlt (pairs_of_thread hpairs) hok hstep
    exact ⟨t', m'⟩

/-- What there is once `waitForJob` has returned, for the empty input too. -/
theorem Managed.output (hlevel : 1 ≤ level) (hlt : input.length < 2 ^ 31)
    (hreduce : ∀ g g' : List (K × V), g.Perm g' → client.reduce g = client.reduce g')
    {h : Handle (numOfThreads level input) (K × V) Out}
    {t : JobContext (numOfThreads level input) (K × V) Out} (m : Managed client input out h t)
    (hbool : h.waitForJobBool = true) :
    h.program.shared.outputVec = out ++ sequential client input := by
  rcases Nat.eq_zero_or_pos (numOfThreads level input) with hT | hT
  · have hinput : input = [] := by
      rw [numOfThreads_eq hlt] at hT
      exact List.length_eq_zero_iff.mp (by omega)
    rw [m.noThreads hT, hinput]
    simp [sequential, classes]
  · exact m.program.output hT hreduce (m.returned_of_waited hbool)

/-- The caller asks for the state, waits, and asks again. -/
def lifeCalls : List Call := [.getJobState, .waitForJob, .getJobState]

/-- A schedule of two workers and a caller that makes these calls and closes the job. -/
def lifeSchedule : List (Option (Fin 2 × ℕ)) :=
  List.replicate 6 none ++ programSchedule.map some ++ List.replicate 19 none

set_option maxRecDepth 4000 in
theorem lifeSchedule_runs : ∃ h : Handle 2 (ℕ × ℕ) ℕ,
    (jobLife parityClient [2, 3] 2 lifeCalls []).runBy HandlePrompted lifeSchedule
      (freshHandle [2, 3] 2 lifeCalls []) = some h ∧
    h.caller = .closed ∧ h.waitForJobBool = true ∧
    h.reports = [(false, ⟨.undefinedStage, none⟩), (true, fullReport)] ∧
    ∀ i, h.program.shared.pc i = .returned :=
  ⟨_, rfl, rfl, rfl, by decide +kernel, by decide +kernel⟩

/-- **The life of a job is safe**, whatever is called between its start and its close, however often
`waitForJob` is, and however the threads take turns. A thread is created once and joined at most
once, after it has returned. When `waitForJob` has returned, all threads have been joined, and the
output is the sequential map-reduce. What is destroyed is destroyed once, in the order of
`closeJobHandle`, and not before every worker has returned, every mutex is free and nobody is in a
call of a barrier; a job that has been closed has nothing left. -/
theorem handle_safe (hlevel : 1 ≤ level) (hlt : input.length < 2 ^ 31)
    (hpairs : input ≠ [] → input.flatMap client.map ≠ [])
    (hreduce : ∀ g g' : List (K × V), g.Perm g' → client.reduce g = client.reduce g')
    {h : Handle (numOfThreads level input) (K × V) Out}
    (hr : (jobLife client input level calls out).ReachableBy HandlePrompted h) :
    (∀ i, h.created i ≤ 1 ∧ h.joined i ≤ h.created i ∧
      (0 < h.joined i → h.program.shared.pc i = .returned)) ∧
    (h.waitForJobBool = true → (∀ i, h.joined i = 1) ∧
      h.program.shared.outputVec = out ++ sequential client input) ∧
    (h.destroyed ≠ [] → h.waitForJobBool = true ∧ Unused h.program) ∧
    (h.destroyed <+: closeOrder ∧ h.destroyed.Nodup) ∧
    (h.caller = .closed → h.destroyed = closeOrder) := by
  obtain ⟨t, m⟩ := managed_of_reachable hlt hpairs hr
  have hbegins : h.destroyed <+: closeOrder := ⟨_, m.destroyed⟩
  refine ⟨fun i => ⟨m.created_le i, m.joined_le i, m.returned i⟩, fun hbool => ?_, fun hne => ?_,
    ⟨hbegins, ?_⟩, fun hat => ?_⟩
  · exact ⟨m.joined_of_waited hbool, m.output hlevel hlt hreduce hbool⟩
  · have hbool := m.waited_of_destroyed hne
    exact ⟨hbool, m.program.unused (m.returned_of_waited hbool)⟩
  · exact List.Nodup.sublist hbegins.sublist (by decide)
  · have hdestroyed := m.destroyed
    rw [hat] at hdestroyed
    exact (List.append_nil _).symm.trans hdestroyed

/-- The job that has been closed. -/
theorem handle_safe_run : ∃ h : Handle 2 (ℕ × ℕ) ℕ,
    (jobLife parityClient [2, 3] 2 lifeCalls []).runBy HandlePrompted lifeSchedule
      (freshHandle [2, 3] 2 lifeCalls []) = some h ∧
    (∀ i, h.joined i = 1) ∧ h.program.shared.outputVec = sequential parityClient [2, 3] ∧
    Unused h.program ∧ h.destroyed = closeOrder := by
  obtain ⟨h, hrun, hclosed, hbool, -⟩ := lifeSchedule_runs
  obtain ⟨-, hwait, hdestroyed, -, hall⟩ := handle_safe (by decide) (by decide) (by decide)
    (fun g g' hg => by simp [parityClient, hg.length_eq])
    (Machine.ReachableBy.runBy (.init rfl) hrun)
  have hne : h.destroyed ≠ [] := by
    rw [hall hclosed]
    exact List.cons_ne_nil _ _
  exact ⟨h, hrun, (hwait hbool).1, (hwait hbool).2, (hdestroyed hne).2, hall hclosed⟩

/-- A bound on the statements in the life of a job, those of its workers included. -/
def lifeBound (T size n calls : ℕ) : ℕ :=
  statementBound T size n + (T + 1 + CallerPoint.idleLeft T calls)

theorem handleMeasure_fresh_le {size n : ℕ} :
    handleMeasure size n (freshHandle input T calls out : Handle T P Out) (freshJob T out) ≤
      lifeBound T size n calls.length := by
  refine Nat.add_le_add ?_ le_rfl
  rcases Nat.eq_zero_or_pos T with rfl | hT
  · have hzero : programMeasure size n (freshProgram input 0 out : Program 0 P Out)
        (freshJob 0 out) = 0 := by
      have hunclaimed : unclaimed size (freshJob 0 out : JobContext 0 P Out) = 0 :=
        if_pos fun i => i.elim0
      rw [programMeasure, statementMeasure, jobMeasure, hunclaimed,
        groupsLeft_of_reached fun i => i.elim0]
      rfl
    exact hzero.le.trans (Nat.zero_le _)
  · exact (programMeasure_fresh ⟨0, hT⟩).le

/-- **Every call returns**: no schedule of the caller and the workers is longer than `lifeBound`,
and one that cannot be continued has closed the job, with the sequential map-reduce in the output
vector. -/
theorem handle_terminates (hlevel : 1 ≤ level) (hlt : input.length < 2 ^ 31)
    (hpairs : input ≠ [] → input.flatMap client.map ≠ [])
    (hreduce : ∀ g g' : List (K × V), g.Perm g' → client.reduce g = client.reduce g')
    {labels : List (Option (Fin (numOfThreads level input) × ℕ))}
    {h : Handle (numOfThreads level input) (K × V) Out}
    (hrun : (jobLife client input level calls out).runBy HandlePrompted labels
      (freshHandle input _ calls out) = some h) :
    labels.length ≤ lifeBound (numOfThreads level input) input.length
      (input.flatMap client.map).length calls.length ∧
    ((∀ label, HandlePrompted h label →
        (jobLife client input level calls out).step label h = none) →
      h.caller = .closed ∧ h.program.shared.outputVec = out ++ sequential client input) := by
  obtain ⟨t, m, hle⟩ := Machine.runBy_measure (R := Managed client input out)
    (fun _ _ _ _ m hok hstep =>
      (m.step hlt (pairs_of_thread hpairs) hok hstep).imp fun _ => And.right) labels .init hrun
  refine ⟨?_, fun hstuck => ?_⟩
  · have hfresh : handleMeasure input.length (input.flatMap client.map).length
        (freshHandle input _ calls out : Handle (numOfThreads level input) (K × V) Out)
        (freshJob _ out) ≤ _ := handleMeasure_fresh_le
    omega
  · have hclosed : h.caller = .closed := by
      by_contra hopen
      obtain ⟨label, h', hok, hstep⟩ := m.exists_step hopen
      have hnone := hstuck label hok
      rw [show (jobLife client input level calls out).step label h = _ from hstep] at hnone
      cases hnone
    have hbool : h.waitForJobBool = true := by
      have hwaited := m.waited
      rw [hclosed] at hwaited
      exact hwaited
    exact ⟨hclosed, m.output hlevel hlt hreduce hbool⟩

/-- The schedule is not too long, and at its end nothing is left to do. -/
theorem handle_terminates_run : ∃ h : Handle 2 (ℕ × ℕ) ℕ,
    (jobLife parityClient [2, 3] 2 lifeCalls []).runBy HandlePrompted lifeSchedule
      (freshHandle [2, 3] 2 lifeCalls []) = some h ∧
    lifeSchedule.length ≤ lifeBound 2 2 2 3 ∧
    h.program.shared.outputVec = sequential parityClient [2, 3] := by
  obtain ⟨h, hrun, hclosed, -, -, hreturned⟩ := lifeSchedule_runs
  have hterm := handle_terminates (by decide) (by decide) (by decide)
    (fun g g' hg => by simp [parityClient, hg.length_eq]) hrun
  refine ⟨h, hrun, hterm.1, (hterm.2 fun label _ => ?_).2⟩
  cases label with
  | none =>
      change callerStep h = none
      rw [callerStep, hclosed]
  | some label =>
      obtain ⟨i, pick⟩ := label
      change handleStep parityClient [2, 3] (some (i, pick)) h = none
      simp [handleStep, programStep, Statement.step, hreturned i]

/-! ## Reports -/

/-- The reports so far, when the pairs fit into the fields of `progress`. -/
structure Reported (client : Client Input K V Out) (input : List Input) (out : List Out)
    (h : Handle T (K × V) Out) (t : JobContext T (K × V) Out) : Prop where
  managed : Managed client input out h t
  counting : ∃ stage done, Counting client input out stage done t
  reports : ∀ r ∈ h.reports, r.1 = true → r.2 = fullReport

/-- **Step lemma.** What is reported after `waitForJob` is that everything has been done. -/
theorem Reported.step (hlt : input.length < 2 ^ 31)
    (hplt : (input.flatMap client.map).length < 2 ^ 31) (hpairs : input.flatMap client.map ≠ [])
    {h h' : Handle T (K × V) Out} {t : JobContext T (K × V) Out} (i : Fin T)
    (r : Reported client input out h t) {label : Option (Fin T × ℕ)} (hok : HandlePrompted h label)
    (hstep : handleStep client input label h = some h') :
    ∃ t', Reported client input out h' t' := by
  obtain ⟨t', ht', m', -⟩ := r.managed.step hlt (fun _ => hpairs) hok hstep
  obtain ⟨stage, done, hc⟩ := r.counting
  have hc' : ∃ stage done, Counting client input out stage done t' := by
    rcases ht' with rfl | ⟨⟨j, pick⟩, hjob⟩
    · exact ⟨stage, done, hc⟩
    · obtain ⟨stage', done', hc', -⟩ := hc.step hlt hplt hjob
      exact ⟨stage', done', hc'⟩
  refine ⟨t', m', hc', ?_⟩
  cases label with
  | some label =>
      obtain ⟨-, p, -, rfl⟩ := handleStep_some hstep
      exact r.reports
  | none =>
      cases callerStep_cases hstep with
      | report hat hcalls =>
          intro report hmem hbool
          rcases List.mem_append.mp hmem with hmem | hmem
          · exact r.reports report hmem hbool
          · obtain rfl := List.mem_singleton.mp hmem
            exact r.managed.program.report hlt hplt hpairs hc i
              (r.managed.returned_of_waited hbool)
      | _ => exact r.reports

/-- **What is reported after `waitForJob`**: whoever asks for the state of a job once `waitForJob`
has returned is told `REDUCE_STAGE` and 100%. -/
theorem reports_after_wait (hlevel : 1 ≤ level) (hinput : input ≠ [])
    (hlt : input.length < 2 ^ 31) (hplt : (input.flatMap client.map).length < 2 ^ 31)
    (hpairs : input.flatMap client.map ≠ [])
    {h : Handle (numOfThreads level input) (K × V) Out}
    (hr : (jobLife client input level calls out).ReachableBy HandlePrompted h)
    {report : JobState} (hmem : (true, report) ∈ h.reports) :
    report.stage = .reduceStage ∧ report.percentage = some 100 := by
  have hT : 0 < numOfThreads level input :=
    numOfThreads_eq hlt ▸ lt_min hlevel (List.length_pos_iff.mpr hinput)
  obtain ⟨t, r⟩ : ∃ t, Reported client input out h t := by
    refine hr.invariant (P := fun h => ∃ t, Reported client input out h t) ?_ ?_
    · rintro _ rfl
      exact ⟨_, .init, ⟨_, _, .init⟩, fun _ hmem => absurd hmem List.not_mem_nil⟩
    · rintro label h h' - ⟨t, r⟩ hok hstep
      exact r.step hlt hplt hpairs ⟨0, hT⟩ hok hstep
  have hreport : report = fullReport := r.reports _ hmem rfl
  rw [hreport, fullReport]
  exact ⟨rfl, by norm_num [handlePercentages]⟩

/-- The second report. -/
theorem reports_after_wait_run : ∃ h : Handle 2 (ℕ × ℕ) ℕ,
    (jobLife parityClient [2, 3] 2 lifeCalls []).runBy HandlePrompted lifeSchedule
      (freshHandle [2, 3] 2 lifeCalls []) = some h ∧
    ∃ report, (true, report) ∈ h.reports ∧ report.percentage = some 100 := by
  obtain ⟨h, hrun, -, -, hreports, -⟩ := lifeSchedule_runs
  have hmem : (true, fullReport) ∈ h.reports := by
    rw [hreports]
    exact List.mem_cons_of_mem _ List.mem_cons_self
  exact ⟨h, hrun, fullReport, hmem, (reports_after_wait (by decide) (by decide) (by decide)
    (by decide) (by decide) (Machine.ReachableBy.runBy (.init rfl) hrun) hmem).2⟩

end runs

end CoreOS.MapReduce.Statement
