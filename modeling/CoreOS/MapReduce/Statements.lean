import CoreOS.MapReduce.Job

/-!
# A map-reduce job, statement by statement

The machine of `Job` takes a section of a mutex as one step. Here every access to shared data is a
step of its own, and so are taking and releasing each of the four mutexes, so that another worker,
or a call of `getJobState`, can come in between any two of them.

* `SetPoint` and `Point` are where a worker is, with its local variables; `Shared` holds the data of
  the job, with a `Log` of what has happened that the code does not keep.
* `step`: the next statement of a worker. `statements` runs `T` workers, `statementJob` as many as
  `startMapReduceJob` starts.
* `Point.phase` places a point among the two barriers.

Runs of statements on data that no other worker can reach are one step: filling the priority queue,
and taking its top together with storing it in the group. As in `Job`, `sem_post` is assumed to
succeed.
-/

namespace CoreOS.MapReduce.Statement

open CoreOS.Lib Function

/-! ## The data -/

/-- Where a worker is in `set_atomic`. -/
inductive SetPoint
  /-- At `Mutex_set_atomic`. -/
  | lock
  /-- At the reading of `did_set`. -/
  | read
  /-- At `progress->store`. -/
  | store
  /-- At `stage_job_to_do_set_.. = true`. -/
  | flag
  /-- At the release of `Mutex_set_atomic`. -/
  | unlock
  deriving DecidableEq

/-- A call of `set_atomic`, with what its caller has at hand. -/
inductive SetCall (P : Type*)
  /-- From `running_map_phase`. -/
  | map
  /-- From `shuffle_phase`, with the priority queue. -/
  | shuffle (allPairs : List P)
  /-- From `reduce_phase`. -/
  | reduce
  deriving DecidableEq

/-- The stage that a call sets. -/
def SetCall.stage {P : Type*} : SetCall P → Stage
  | map => .mapStage
  | shuffle _ => .shuffleStage
  | reduce => .reduceStage

/-- Where a worker is, and its local variables. `P` is the type of intermediate pairs. -/
inductive Point (P : Type*)
  /-- In `set_atomic`. -/
  | setAtomic (call : SetCall P) (value : ℕ) (point : SetPoint)
  /-- At `while (!done_map)`, with `intermediate_pair_vec`. -/
  | mapTest (vecs : List (List P))
  /-- At `Mutex_map`. -/
  | mapLock (vecs : List (List P))
  /-- At the comparison of `progress` with the size of the input. -/
  | mapCheck (vecs : List (List P))
  /-- At `done_map = true`. -/
  | mapDone (vecs : List (List P))
  /-- At the release of `Mutex_map` before `break`. -/
  | mapBreak (vecs : List (List P))
  /-- At `index = progress++ & MASK_JOB_DONE`. -/
  | mapClaim (vecs : List (List P))
  /-- At the release of `Mutex_map` after that. -/
  | mapUnlock (vecs : List (List P)) (index : ℕ)
  /-- In `client->map` for the claimed index. -/
  | mapCall (vecs : List (List P)) (index : ℕ)
  /-- At `intermediate_pair_vec.push_back`. -/
  | mapPush (vecs : List (List P)) (tempVec : List P)
  /-- `running_map_phase` has returned. -/
  | mapLeft (vecs : List (List P))
  /-- In the loop of `sort_phase`, with the vectors still to hand over. -/
  | sort (vecs : List (List P))
  /-- At `vector_of_vectors.push_back`, holding `Mutex_sort`. -/
  | sortPush (vec : List P) (vecs : List (List P))
  /-- At the release of `Mutex_sort`. -/
  | sortUnlock (vecs : List (List P))
  /-- At `barrier`. -/
  | barrier
  /-- At the loop of `shuffle_phase` that fills the priority queue. -/
  | shuffleCollect
  /-- At `vector_of_vectors.clear()` and the first `all_pairs.top()`. -/
  | shuffleTop (allPairs : List P)
  /-- At `while (!all_pairs.empty())`. -/
  | shuffleLoop (allPairs : List P) (lastPair : P) (savingAllPairs : List P)
  /-- At `progress++`, `this_pair` having been stored and popped. -/
  | shuffleCount (allPairs : List P) (lastPair thisPair : P) (savingAllPairs : List P)
  /-- At `vector_of_vectors.push_back` in `update_saving_all_pairs`. -/
  | shufflePush (allPairs : List P) (lastPair : P) (savingAllPairs : List P)
  /-- At `sem_post` in `update_saving_all_pairs`. -/
  | shufflePost (allPairs : List P) (lastPair : P)
  /-- At `barrier_reduce`. -/
  | barrierReduce
  /-- At `if (finished_shuffle_stage)`. -/
  | reduceFlag
  /-- At `while (!vector_of_vectors.empty())`. -/
  | reduceTest
  /-- At `sem_wait`. -/
  | semWait
  /-- At the second emptiness test. -/
  | reduceRetest
  /-- At `Mutex_reduce`. -/
  | reduceLock
  /-- At `front()` and `erase`. -/
  | reduceTake
  /-- In `client->reduce`. -/
  | reducing (elementReduce : List P)
  /-- At `progress += element_reduce.size()`. -/
  | reduceCount (elementReduce : List P)
  /-- At the release of `Mutex_reduce`. -/
  | reduceUnlock
  /-- At the final `sem_post`. -/
  | semPost
  /-- Returned from `main_map_reduce_framework`. -/
  | returned
  /-- After an index that `at` refuses. -/
  | outOfRange
  /-- After `top()` of an empty queue, which is undefined. -/
  | noTop
  /-- After `front()` of an empty vector, which is undefined. -/
  | noFront
  deriving DecidableEq

/-- What has happened in a job; the code does not keep it. -/
structure Log (T : ℕ) where
  /-- The stage that the last store to `progress` began. -/
  stage : Stage := .undefinedStage
  /-- The size that it gave. -/
  size : ℕ := 0
  /-- How much the code of each stage has added to `progress`. -/
  counted : Stage → ℕ := fun _ => 0
  /-- How many units of each stage have been processed: calls of `client->map` that have returned,
  pairs stored in a group, pairs of the groups whose `client->reduce` has returned. -/
  finished : Stage → ℕ := fun _ => 0
  /-- Who has drawn which index from `progress`, in order. -/
  claims : List (Fin T × ℕ) := []

/-- The shared data of a job. -/
structure Shared (T : ℕ) (P Out : Type*) where
  /-- `progress`. -/
  progress : BitVec 64 := 0
  /-- `done_map`. -/
  doneMap : Bool := false
  /-- `stage_job_to_do_set_map`. -/
  setMap : Bool := false
  /-- `stage_job_to_do_set_shuffle`. -/
  setShuffle : Bool := false
  /-- `stage_job_to_do_set_reduce`. -/
  setReduce : Bool := false
  /-- `finished_shuffle_stage`. -/
  finishedShuffle : Bool := false
  /-- `num_of_pairs`. -/
  numOfPairs : ℕ := 0
  /-- `vector_of_vectors`. -/
  vectorOfVectors : List (List P) := []
  /-- The value of `sem`. -/
  sem : ℕ := 0
  /-- The worker that holds `Mutex_set_atomic`. -/
  mutexSetAtomic : Option (Fin T) := none
  /-- The worker that holds `Mutex_map`. -/
  mutexMap : Option (Fin T) := none
  /-- The worker that holds `Mutex_sort`. -/
  mutexSort : Option (Fin T) := none
  /-- The worker that holds `Mutex_reduce`. -/
  mutexReduce : Option (Fin T) := none
  /-- `outputVec`. -/
  outputVec : List Out
  /-- Where each worker is. -/
  pc : Fin T → Point P
  /-- What has happened. -/
  log : Log T := {}

variable {Input K V Out P : Type*} {T : ℕ}

/-! ### What is written to the log -/

namespace Log

/-- `progress` is stored to, for a stage of the given size. -/
def start (stage : Stage) (size : ℕ) (l : Log T) : Log T := { l with stage := stage, size := size }

/-- `k` is added to `progress` by the code of a stage. -/
def count (stage : Stage) (k : ℕ) (l : Log T) : Log T :=
  { l with counted := update l.counted stage (l.counted stage + k) }

/-- `k` units of a stage are finished. -/
def finish (stage : Stage) (k : ℕ) (l : Log T) : Log T :=
  { l with finished := update l.finished stage (l.finished stage + k) }

/-- A worker draws an index. -/
def claim (i : Fin T) (index : ℕ) (l : Log T) : Log T :=
  { l.count .mapStage 1 with claims := l.claims ++ [(i, index)] }

/-- The indices that a worker has drawn. -/
def claimsOf (i : Fin T) (l : Log T) : List ℕ := (l.claims.filter (·.1 = i)).map Prod.snd

theorem counted_count {stage : Stage} {k : ℕ} {l : Log T} {τ : Stage} :
    (l.count stage k).counted τ = l.counted τ + if τ = stage then k else 0 := by
  by_cases h : τ = stage
  · subst h
    simp [count]
  · simp [count, h]

theorem finished_finish {stage : Stage} {k : ℕ} {l : Log T} {τ : Stage} :
    (l.finish stage k).finished τ = l.finished τ + if τ = stage then k else 0 := by
  by_cases h : τ = stage
  · subst h
    simp [finish]
  · simp [finish, h]

end Log

/-! ### Where a worker is -/

/-- How far a point is: before `barrier` (0), at it (1), in `shuffle_phase` (2), at
`barrier_reduce` (3) or after it (4). -/
def Point.phase : Point P → ℕ
  | setAtomic .map _ _ | mapTest _ | mapLock _ | mapCheck _ | mapDone _ | mapBreak _ | mapClaim _
  | mapUnlock _ _ | mapCall _ _ | mapPush _ _ | mapLeft _ | sort _ | sortPush _ _ | sortUnlock _
  | outOfRange => 0
  | barrier => 1
  | shuffleCollect | setAtomic (.shuffle _) _ _ | shuffleTop _ | shuffleLoop _ _ _
  | shuffleCount _ _ _ _ | shufflePush _ _ _ | shufflePost _ _ | noTop => 2
  | barrierReduce => 3
  | reduceFlag | setAtomic .reduce _ _ | reduceTest | semWait | reduceRetest | reduceLock
  | reduceTake | reducing _ | reduceCount _ | reduceUnlock | semPost | returned | noFront => 4

/-- Holding `Mutex_set_atomic`. -/
def Point.holdsSetAtomic : Point P → Bool
  | setAtomic _ _ .lock => false
  | setAtomic _ _ _ => true
  | _ => false

/-- Holding `Mutex_map`. -/
def Point.holdsMap : Point P → Bool
  | mapCheck _ | mapDone _ | mapBreak _ | mapClaim _ | mapUnlock _ _ => true
  | _ => false

/-- Where a call of `set_atomic` returns to. -/
def SetCall.next : SetCall P → Point P
  -- after `intermediate_pair_vec.clear()`
  | map => .mapTest []
  | shuffle allPairs => .shuffleTop allPairs
  | reduce => .reduceTest

namespace Shared

/-- The worker `i` moves on. -/
def goto (s : Shared T P Out) (i : Fin T) (x : Point P) : Shared T P Out :=
  { s with pc := update s.pc i x }

/-- The flag that says that a stage has been set; no call is for the undefined stage. -/
def isSet (s : Shared T P Out) : Stage → Bool
  | .mapStage => s.setMap
  | .shuffleStage => s.setShuffle
  | .reduceStage => s.setReduce
  | .undefinedStage => true

/-- Sets that flag. -/
def markSet (s : Shared T P Out) : Stage → Shared T P Out
  | .mapStage => { s with setMap := true }
  | .shuffleStage => { s with setShuffle := true }
  | .reduceStage => { s with setReduce := true }
  | .undefinedStage => s

theorem isSet_markSet {s : Shared T P Out} {stage τ : Stage} :
    (s.markSet stage).isSet τ = true ↔ s.isSet τ = true ∨ τ = stage := by
  cases stage <;> cases τ <;> simp [markSet, isSet]

@[simp] theorem markSet_pc (s : Shared T P Out) (stage : Stage) :
    (s.markSet stage).pc = s.pc := by
  cases stage <;> rfl

@[simp] theorem markSet_mutexSetAtomic (s : Shared T P Out) (stage : Stage) :
    (s.markSet stage).mutexSetAtomic = s.mutexSetAtomic := by
  cases stage <;> rfl

@[simp] theorem markSet_mutexMap (s : Shared T P Out) (stage : Stage) :
    (s.markSet stage).mutexMap = s.mutexMap := by
  cases stage <;> rfl

@[simp] theorem markSet_doneMap (s : Shared T P Out) (stage : Stage) :
    (s.markSet stage).doneMap = s.doneMap := by
  cases stage <;> rfl

@[simp] theorem markSet_progress (s : Shared T P Out) (stage : Stage) :
    (s.markSet stage).progress = s.progress := by
  cases stage <;> rfl

@[simp] theorem markSet_log (s : Shared T P Out) (stage : Stage) :
    (s.markSet stage).log = s.log := by
  cases stage <;> rfl

end Shared

/-! ## The statements -/

/-- The next statement of a worker in `set_atomic`.
Source: `MapReduceFramework.cpp`, `set_atomic` -/
def setStep (i : Fin T) (call : SetCall P) (value : ℕ) (s : Shared T P Out) :
    SetPoint → Option (Shared T P Out)
  | .lock =>
      if s.mutexSetAtomic = none then
        some ({ s with mutexSetAtomic := some i }.goto i (.setAtomic call value .read))
      else none
  | .read =>
      some (s.goto i (.setAtomic call value (if s.isSet call.stage then .unlock else .store)))
  | .store =>
      some ({ s with
        progress := packed call.stage value
        log := s.log.start call.stage value }.goto i (.setAtomic call value .flag))
  | .flag => some ((s.markSet call.stage).goto i (.setAtomic call value .unlock))
  | .unlock => some ({ s with mutexSetAtomic := none }.goto i call.next)

section machine

variable (client : Client Input K V Out) (input : List Input)

/-- The next statement of a worker in `running_map_phase`.
Source: `MapReduceFramework.cpp`, `running_map_phase` -/
def mapStep (i : Fin T) (s : Shared T (K × V) Out) : Option (Shared T (K × V) Out) :=
  match s.pc i with
  | .mapTest vecs => some (s.goto i (if s.doneMap then .mapLeft vecs else .mapLock vecs))
  | .mapLock vecs =>
      if s.mutexMap = none then some ({ s with mutexMap := some i }.goto i (.mapCheck vecs))
      else none
  | .mapCheck vecs =>
      some (s.goto i
        (if jobDone s.progress + 1 > input.length then .mapDone vecs else .mapClaim vecs))
  | .mapDone vecs => some ({ s with doneMap := true }.goto i (.mapBreak vecs))
  | .mapBreak vecs => some ({ s with mutexMap := none }.goto i (.mapLeft vecs))
  | .mapClaim vecs =>
      let index := jobDone s.progress
      some ({ s with
        progress := s.progress + 1
        log := s.log.claim i index }.goto i (.mapUnlock vecs index))
  | .mapUnlock vecs index => some ({ s with mutexMap := none }.goto i (.mapCall vecs index))
  | .mapCall vecs index =>
      match input[index]? with
      | none => some (s.goto i .outOfRange)
      | some pair =>
          some ({ s with log := s.log.finish .mapStage 1 }.goto i (.mapPush vecs (client.map pair)))
  | .mapPush vecs tempVec => some (s.goto i (.mapTest (vecs ++ [tempVec])))
  | .mapLeft vecs => some (s.goto i (.sort vecs))
  | _ => none

/-- The next statement of a worker in `sort_phase`.
Source: `MapReduceFramework.cpp`, `sort_phase` -/
def sortStep (i : Fin T) (s : Shared T P Out) : Option (Shared T P Out) :=
  match s.pc i with
  | .sort [] => some (s.goto i .barrier)
  | .sort (vec :: vecs) =>
      if s.mutexSort = none then some ({ s with mutexSort := some i }.goto i (.sortPush vec vecs))
      else none
  | .sortPush vec vecs =>
      some ({ s with vectorOfVectors := s.vectorOfVectors ++ [vec] }.goto i (.sortUnlock vecs))
  | .sortUnlock vecs => some ({ s with mutexSort := none }.goto i (.sort vecs))
  | _ => none

/-- The next statement of the main worker in `shuffle_phase`, with the pair at position `pick` on
top of the queue.
Source: `MapReduceFramework.cpp`, `shuffle_phase`, `update_saving_all_pairs` -/
def shuffleStep (i : Fin T) (pick : ℕ) (s : Shared T (K × V) Out) :
    Option (Shared T (K × V) Out) :=
  match s.pc i with
  | .shuffleCollect =>
      let numOfPairs := s.numOfPairs + (s.vectorOfVectors.map List.length).sum
      some ({ s with numOfPairs := numOfPairs }.goto i
        (.setAtomic (.shuffle s.vectorOfVectors.flatten) numOfPairs .lock))
  | .shuffleTop allPairs =>
      let s := { s with vectorOfVectors := [] }
      if allPairs.isEmpty then some (s.goto i .noTop)
      else (client.top allPairs pick).map fun lastPair =>
        s.goto i (.shuffleLoop allPairs lastPair [])
  | .shuffleLoop allPairs lastPair savingAllPairs =>
      if allPairs.isEmpty then some ({ s with finishedShuffle := true }.goto i .barrierReduce)
      else (client.top allPairs pick).map fun thisPair =>
        if ¬ client.compareByFirstElement lastPair thisPair ∧
            ¬ client.compareByFirstElement thisPair lastPair then
          let savingAllPairs := savingAllPairs ++ [thisPair]
          { s with log := s.log.finish .shuffleStage 1 }.goto i
            (.shuffleCount (allPairs.eraseIdx pick) lastPair thisPair savingAllPairs)
        else s.goto i (.shufflePush allPairs thisPair savingAllPairs)
  | .shuffleCount allPairs lastPair thisPair savingAllPairs =>
      some ({ s with
        progress := s.progress + 1
        log := s.log.count .shuffleStage 1 }.goto i
          (if allPairs.isEmpty then .shufflePush allPairs thisPair savingAllPairs
          else .shuffleLoop allPairs lastPair savingAllPairs))
  | .shufflePush allPairs lastPair savingAllPairs =>
      some ({ s with vectorOfVectors := s.vectorOfVectors ++ [savingAllPairs] }.goto i
        (.shufflePost allPairs lastPair))
  | .shufflePost allPairs lastPair =>
      some ({ s with sem := s.sem + 1 }.goto i (.shuffleLoop allPairs lastPair []))
  | _ => none

/-- The next statement of a worker in `reduce_phase`.
Source: `MapReduceFramework.cpp`, `reduce_phase` -/
def reduceStep (i : Fin T) (s : Shared T (K × V) Out) : Option (Shared T (K × V) Out) :=
  match s.pc i with
  | .reduceFlag =>
      some (s.goto i
        (if s.finishedShuffle then .setAtomic .reduce s.numOfPairs .lock else .returned))
  | .reduceTest => some (s.goto i (if s.vectorOfVectors.isEmpty then .semPost else .semWait))
  | .semWait =>
      if s.sem = 0 then none else some ({ s with sem := s.sem - 1 }.goto i .reduceRetest)
  | .reduceRetest => some (s.goto i (if s.vectorOfVectors.isEmpty then .semPost else .reduceLock))
  | .reduceLock =>
      if s.mutexReduce = none then some ({ s with mutexReduce := some i }.goto i .reduceTake)
      else none
  | .reduceTake =>
      match s.vectorOfVectors with
      | [] => some (s.goto i .noFront)
      | elementReduce :: rest =>
          some ({ s with vectorOfVectors := rest }.goto i (.reducing elementReduce))
  | .reducing elementReduce =>
      some ({ s with
        outputVec := s.outputVec ++ client.reduce elementReduce
        log := s.log.finish .reduceStage elementReduce.length }.goto i (.reduceCount elementReduce))
  | .reduceCount elementReduce =>
      some ({ s with
        progress := s.progress + BitVec.ofNat 64 elementReduce.length
        log := s.log.count .reduceStage elementReduce.length }.goto i .reduceUnlock)
  | .reduceUnlock => some ({ s with mutexReduce := none }.goto i .reduceTest)
  | .semPost => some ({ s with sem := s.sem + 1 }.goto i .returned)
  | _ => none

/-- The next statement of the worker `label.1`.
Source: `MapReduceFramework.cpp`, `main_map_reduce_framework` -/
def step (label : Fin T × ℕ) (s : Shared T (K × V) Out) : Option (Shared T (K × V) Out) :=
  let i := label.1
  match s.pc i with
  | .setAtomic call value point => setStep i call value s point
  | .mapTest _ | .mapLock _ | .mapCheck _ | .mapDone _ | .mapBreak _ | .mapClaim _ | .mapUnlock _ _
  | .mapCall _ _ | .mapPush _ _ | .mapLeft _ => mapStep client input i s
  | .sort _ | .sortPush _ _ | .sortUnlock _ => sortStep i s
  | .barrier =>
      if ∀ j, 1 ≤ (s.pc j).phase then
        -- `MAIN_T_ID` shuffles
        some (s.goto i (if i.val = 0 then .shuffleCollect else .barrierReduce))
      else none
  | .shuffleCollect | .shuffleTop _ | .shuffleLoop _ _ _ | .shuffleCount _ _ _ _
  | .shufflePush _ _ _ | .shufflePost _ _ => shuffleStep client i label.2 s
  | .barrierReduce => if ∀ j, 3 ≤ (s.pc j).phase then some (s.goto i .reduceFlag) else none
  | .reduceFlag | .reduceTest | .semWait | .reduceRetest | .reduceLock | .reduceTake | .reducing _
  | .reduceCount _ | .reduceUnlock | .semPost => reduceStep client i s
  | .returned | .outOfRange | .noTop | .noFront => none

variable {client input} in
/-- **What a step of a worker is**, with the part of the job the worker is in. -/
theorem step_cases {i : Fin T} {pick : ℕ} {s s' : Shared T (K × V) Out}
    (h : step client input (i, pick) s = some s') :
    (∃ call value point, s.pc i = .setAtomic call value point ∧
      setStep i call value s point = some s') ∨
    mapStep client input i s = some s' ∨
    sortStep i s = some s' ∨
    (s.pc i = .barrier ∧ (∀ j, 1 ≤ (s.pc j).phase) ∧
      s' = s.goto i (if i.val = 0 then .shuffleCollect else .barrierReduce)) ∨
    shuffleStep client i pick s = some s' ∨
    (s.pc i = .barrierReduce ∧ (∀ j, 3 ≤ (s.pc j).phase) ∧ s' = s.goto i .reduceFlag) ∨
    reduceStep client i s = some s' := by
  unfold step at h
  dsimp only at h
  cases hpc : s.pc i <;> rw [hpc] at h <;> dsimp only at h
  case setAtomic call value point => exact .inl ⟨call, value, point, rfl, h⟩
  case sort | sortPush | sortUnlock => exact .inr (.inr (.inl h))
  case barrier =>
    by_cases hall : ∀ j, 1 ≤ (s.pc j).phase
    · rw [if_pos hall] at h
      exact .inr (.inr (.inr (.inl ⟨rfl, hall, (Option.some.inj h).symm⟩)))
    · rw [if_neg hall] at h
      cases h
  case shuffleCollect | shuffleTop | shuffleLoop | shuffleCount | shufflePush | shufflePost =>
    exact .inr (.inr (.inr (.inr (.inl h))))
  case barrierReduce =>
    split_ifs at h with hall
    exact .inr (.inr (.inr (.inr (.inr (.inl ⟨rfl, hall, (Option.some.inj h).symm⟩)))))
  case returned | outOfRange | noTop | noFront => cases h
  case mapTest | mapLock | mapCheck | mapDone | mapBreak | mapClaim | mapUnlock | mapCall | mapPush
      | mapLeft =>
    exact .inr (.inl h)
  all_goals exact .inr (.inr (.inr (.inr (.inr (.inr h)))))

/-- A fresh job: every worker is about to call `set_atomic`, those that have not been started yet
as well. Source: `MapReduceFramework.cpp`, `JobContext::JobContext` -/
def freshShared (T : ℕ) (outputVec : List Out) : Shared T P Out where
  outputVec := outputVec
  pc _ := .setAtomic .map input.length .lock

/-- `T` workers, statement by statement. -/
def statements (T : ℕ) (outputVec : List Out) :
    Machine (Shared T (K × V) Out) (Fin T × ℕ) where
  init s := s = freshShared input T outputVec
  step := step client input

/-- A job started with `startMapReduceJob`, statement by statement.
Source: `MapReduceFramework.cpp`, `startMapReduceJob` -/
def statementJob (multiThreadLevel : ℕ) (outputVec : List Out) :
    Machine (Shared (numOfThreads multiThreadLevel input) (K × V) Out)
      (Fin (numOfThreads multiThreadLevel input) × ℕ) :=
  statements client input _ outputVec

end machine

end CoreOS.MapReduce.Statement
