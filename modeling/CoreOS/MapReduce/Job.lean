import CoreOS.Lib.Threads
import CoreOS.Lib.Grouping
import CoreOS.MapReduce.Progress

/-!
# A map-reduce job

`ex3/MapReduceFramework.cpp` as a machine of `T` workers, each running
`main_map_reduce_framework`.

* `Client`: what the framework asks of the client; `K × V` is an `IntermediatePair`, `Out` an
  `OutputPair`. `emit2` and `emit3` are how `map` and `reduce` return their lists.
* `JobPc` is where a worker is, with its local variables; `JobContext` holds the shared data.
* `jobStep`: one atomic step of a worker: a section of `Mutex_set_atomic`, `Mutex_map` or
  `Mutex_sort`, a test of an unlocked flag or of `vector_of_vectors.empty()`, a semaphore operation,
  a barrier crossing, a client call, a round of the shuffle loop. The section of `Mutex_reduce` is
  two steps: taking the mutex and the first group, and reducing it and letting go.
* The barriers are correct: a worker leaves once all have arrived (`Barrier` has the code).
* `sem_post` succeeds: it is assumed that there are no more groups than `SEM_VALUE_MAX`, after which
  `handling_semaphore` would end the process (`ShuffleRuns` has the shuffle without the assumption).
* `mapReduce` runs a whole job, `reducePhase` the reduce phase alone, from given groups.

A label names the worker that moves, and the position of the element that the priority queue has on
top; any minimal element may be there.
-/

namespace CoreOS.MapReduce

open CoreOS.Lib Function

/-! ## The data -/

/-- A client: its `map`, its `reduce` and `operator<` of its `K2`.
Source: `MapReduceFramework.cpp`, the uses of `MapReduceClient` -/
structure Client (Input K V Out : Type*) where
  /-- The pairs that `map` emits for one input pair. -/
  map : Input → List (K × V)
  /-- The pairs that `reduce` emits for one group. -/
  reduce : List (K × V) → List Out
  /-- `operator<`. -/
  lt : K → K → Bool

/-- Where a worker is, and its local variables. `P` is the type of intermediate pairs. -/
inductive JobPc (P : Type*)
  /-- At `set_atomic(MAP_STAGE, ..)`. -/
  | mapSet
  /-- At `while (!done_map)`, with `intermediate_pair_vec`. -/
  | mapTest (vecs : List (List P))
  /-- At the section of `Mutex_map`. -/
  | mapSection (vecs : List (List P))
  /-- At `client->map` for the claimed index. -/
  | mapCall (vecs : List (List P)) (index : ℕ)
  /-- In the loop of `sort_phase`, with the vectors still to hand over. -/
  | sort (vecs : List (List P))
  /-- At `barrier`. -/
  | barrier
  /-- At the loop of `shuffle_phase` that fills the priority queue. -/
  | shuffleCollect
  /-- At `set_atomic(SHUFFLE_STAGE, ..)`. -/
  | shuffleSet (allPairs : List P)
  /-- At `vector_of_vectors.clear()` and the first `all_pairs.top()`. -/
  | shuffleTop (allPairs : List P)
  /-- At `while (!all_pairs.empty())`. -/
  | shuffleLoop (allPairs : List P) (lastPair : P) (savingAllPairs : List P)
  /-- At `barrier_reduce`. -/
  | barrierReduce
  /-- At `if (finished_shuffle_stage)`. -/
  | reduceFlag
  /-- At `set_atomic(REDUCE_STAGE, ..)`. -/
  | reduceSet
  /-- At `while (!vector_of_vectors.empty())`. -/
  | reduceTest
  /-- At `sem_wait`. -/
  | semWait
  /-- At the second emptiness test. -/
  | reduceRetest
  /-- At `Mutex_reduce`. -/
  | reduceLock
  /-- At `client->reduce`, holding `Mutex_reduce`. -/
  | reducing (elementReduce : List P)
  /-- At the final `sem_post`. -/
  | semPost
  /-- Returned from `main_map_reduce_framework`. -/
  | returned
  /-- After something undefined: `top()` of an empty queue, `front()` of an empty vector, or an
  index that `at` refuses. -/
  | undefined
  deriving DecidableEq

/-- The shared data of a job. `reduced` and `waited` are histories that the code does not keep. -/
structure JobContext (T : ℕ) (P Out : Type*) where
  /-- `progress`. -/
  progress : BitVec 64 := 0
  /-- `done_map`. -/
  doneMap : Bool := false
  /-- `stage_job_to_do_set_map`. -/
  setMap : Bool := false
  /-- `stage_job_to_do_set_shuffle`. -/
  setShuffle : Bool := false
  /-- `stage_job_to_do_set_reduce`. -/
  setReduce : Bool := false
  /-- `finished_shuffle_stage`. -/
  finishedShuffle : Bool := false
  /-- `num_of_pairs`. -/
  numOfPairs : ℕ := 0
  /-- `vector_of_vectors`. -/
  vectorOfVectors : List (List P) := []
  /-- The value of `sem`. -/
  sem : ℕ := 0
  /-- The worker that holds `Mutex_reduce`. -/
  mutexReduce : Option (Fin T) := none
  /-- `outputVec`. -/
  outputVec : List Out
  /-- Where each worker is. -/
  pc : Fin T → JobPc P
  /-- The groups passed to `client->reduce` so far, in order. -/
  reduced : List (List P) := []
  /-- How many calls of `sem_wait` have returned. -/
  waited : ℕ := 0

/-- In `running_map_phase` or `sort_phase`. -/
def JobPc.inMap {P : Type*} : JobPc P → Bool
  | mapSet | mapTest _ | mapSection _ | mapCall _ _ | sort _ => true
  | _ => false

/-- In `shuffle_phase`. -/
def JobPc.inShuffle {P : Type*} : JobPc P → Bool
  | shuffleCollect | shuffleSet _ | shuffleTop _ | shuffleLoop _ _ _ => true
  | _ => false

/-- In `reduce_phase`. -/
def JobPc.inReduce {P : Type*} : JobPc P → Bool
  | reduceFlag | reduceSet | reduceTest | semWait | reduceRetest | reduceLock | reducing _
  | semPost => true
  | _ => false

variable {Input K V Out P : Type*} {T : ℕ}

namespace JobContext

/-- The worker `i` moves on. -/
def goto (s : JobContext T P Out) (i : Fin T) (x : JobPc P) : JobContext T P Out :=
  { s with pc := update s.pc i x }

end JobContext

@[simp] theorem goto_pc_self {s : JobContext T P Out} {i : Fin T} {x : JobPc P} :
    (s.goto i x).pc i = x :=
  update_self ..

/-! ## The functions -/

/-- Starts a stage, unless a worker has started it before.
Source: `MapReduceFramework.cpp`, `set_atomic` -/
def setAtomic (stage : Stage) (value : ℕ) (s : JobContext T P Out) : JobContext T P Out :=
  match stage with
  | .mapStage => if s.setMap then s else { s with progress := packed stage value, setMap := true }
  | .reduceStage =>
      if s.setReduce then s else { s with progress := packed stage value, setReduce := true }
  | .shuffleStage =>
      if s.setShuffle then s else { s with progress := packed stage value, setShuffle := true }
  | .undefinedStage => s

@[simp] theorem setAtomic_pc (stage : Stage) (value : ℕ) (s : JobContext T P Out) :
    (setAtomic stage value s).pc = s.pc := by
  unfold setAtomic
  cases stage <;> dsimp only <;> split_ifs <;> rfl

/-- Has arrived at `barrier`, or gone further. -/
def JobPc.reachedBarrier : JobPc P → Bool
  | mapSet | mapTest _ | mapSection _ | mapCall _ _ | sort _ | undefined => false
  | _ => true

/-- Has arrived at `barrier_reduce`, or gone further. -/
def JobPc.reachedBarrierReduce : JobPc P → Bool
  | barrierReduce | reduceFlag | reduceSet | reduceTest | semWait | reduceRetest | reduceLock
  | reducing _ | semPost | returned => true
  | _ => false

/-! ### The phases are disjoint -/

theorem JobPc.of_inMap {x : JobPc P} (h : x.inMap = true) :
    x.inShuffle = false ∧ x ≠ .barrierReduce ∧ x.inReduce = false := by
  cases x with
  | mapSet | mapTest | mapSection | mapCall | sort => exact ⟨rfl, nofun, rfl⟩
  | _ => cases h

theorem JobPc.of_inShuffle {x : JobPc P} (h : x.inShuffle = true) :
    x.inMap = false ∧ x.inReduce = false := by
  cases x with
  | shuffleCollect | shuffleSet | shuffleTop | shuffleLoop => exact ⟨rfl, rfl⟩
  | _ => cases h

theorem JobPc.of_reachedBarrierReduce {x : JobPc P} (h : x.reachedBarrierReduce = true) :
    x.inMap = false ∧ x ≠ .barrier ∧ x.inShuffle = false := by
  cases x with
  | barrierReduce | reduceFlag | reduceSet | reduceTest | semWait | reduceRetest | reduceLock
  | reducing | semPost | returned => exact ⟨rfl, nofun, rfl⟩
  | _ => cases h

/-! ### The steps -/

/-- The order of the priority queue on pairs.
Source: `MapReduceFramework.cpp`, `compare_by_first_element` -/
def Client.compareByFirstElement (client : Client Input K V Out) (a b : K × V) : Prop :=
  client.lt a.1 b.1 = true

instance (client : Client Input K V Out) : DecidableRel client.compareByFirstElement :=
  fun _ _ => inferInstanceAs (Decidable (_ = true))

/-- The element at position `pick`, if it may be on top of the queue: none is smaller. -/
def Client.top (client : Client Input K V Out) (allPairs : List (K × V)) (pick : ℕ) :
    Option (K × V) :=
  allPairs[pick]?.filter fun p => allPairs.all fun x => ¬ client.compareByFirstElement x p

/-- Stores a finished group and announces it, with a `sem_post` that succeeds.
`last_pair = this_pair` is done by the caller.
Source: `MapReduceFramework.cpp`, `update_saving_all_pairs` -/
def updateSavingAllPairs (savingAllPairs : List P) (s : JobContext T P Out) :
    JobContext T P Out :=
  { s with vectorOfVectors := s.vectorOfVectors ++ [savingAllPairs], sem := s.sem + 1 }

/-- One round of the shuffle loop, with `thisPair` at position `pick` on top of the queue.
Source: `MapReduceFramework.cpp`, `shuffle_phase`, the body of the second loop -/
def shuffleRound (client : Client Input K V Out) (i : Fin T) (pick : ℕ)
    (allPairs : List (K × V)) (lastPair thisPair : K × V) (savingAllPairs : List (K × V))
    (s : JobContext T (K × V) Out) : JobContext T (K × V) Out :=
  if ¬ client.compareByFirstElement lastPair thisPair ∧
      ¬ client.compareByFirstElement thisPair lastPair then
    let savingAllPairs := savingAllPairs ++ [thisPair]
    let allPairs := allPairs.eraseIdx pick
    let s := { s with progress := s.progress + 1 }
    if allPairs.isEmpty then
      (updateSavingAllPairs savingAllPairs s).goto i (.shuffleLoop allPairs thisPair [])
    else s.goto i (.shuffleLoop allPairs lastPair savingAllPairs)
  else (updateSavingAllPairs savingAllPairs s).goto i (.shuffleLoop allPairs thisPair [])

section machine

variable (client : Client Input K V Out) (input : List Input)

/-- A step of `running_map_phase` or `sort_phase`.
Source: `MapReduceFramework.cpp`, `running_map_phase`, `sort_phase` -/
def mapStep (i : Fin T) (s : JobContext T (K × V) Out) : Option (JobContext T (K × V) Out) :=
  match s.pc i with
  | .mapSet => some ((setAtomic .mapStage input.length s).goto i (.mapTest []))
  | .mapTest vecs => some (s.goto i (if s.doneMap then .sort vecs else .mapSection vecs))
  | .mapSection vecs =>
      if jobDone s.progress + 1 > input.length then
        some ({ s with doneMap := true }.goto i (.sort vecs))
      else
        some ({ s with progress := s.progress + 1 }.goto i (.mapCall vecs (jobDone s.progress)))
  | .mapCall vecs index =>
      match input[index]? with
      | none => some (s.goto i .undefined)
      | some pair => some (s.goto i (.mapTest (vecs ++ [client.map pair])))
  | .sort [] => some (s.goto i .barrier)
  | .sort (vec :: vecs) =>
      some ({ s with vectorOfVectors := s.vectorOfVectors ++ [vec] }.goto i (.sort vecs))
  | _ => none

/-- A step of `shuffle_phase`.
Source: `MapReduceFramework.cpp`, `shuffle_phase` -/
def shuffleStep (i : Fin T) (pick : ℕ) (s : JobContext T (K × V) Out) :
    Option (JobContext T (K × V) Out) :=
  match s.pc i with
  | .shuffleCollect =>
      some ({ s with
        numOfPairs := s.numOfPairs + (s.vectorOfVectors.map List.length).sum }.goto i
          (.shuffleSet s.vectorOfVectors.flatten))
  | .shuffleSet allPairs =>
      some ((setAtomic .shuffleStage s.numOfPairs s).goto i (.shuffleTop allPairs))
  | .shuffleTop allPairs =>
      let s := { s with vectorOfVectors := [] }
      if allPairs.isEmpty then some (s.goto i .undefined)
      else (client.top allPairs pick).map fun lastPair =>
        s.goto i (.shuffleLoop allPairs lastPair [])
  | .shuffleLoop allPairs lastPair savingAllPairs =>
      if allPairs.isEmpty then some ({ s with finishedShuffle := true }.goto i .barrierReduce)
      else (client.top allPairs pick).map fun thisPair =>
        shuffleRound client i pick allPairs lastPair thisPair savingAllPairs s
  | _ => none

/-- A step of `reduce_phase`.
Source: `MapReduceFramework.cpp`, `reduce_phase` -/
def reduceStep (i : Fin T) (s : JobContext T (K × V) Out) : Option (JobContext T (K × V) Out) :=
  match s.pc i with
  | .reduceFlag => some (s.goto i (if s.finishedShuffle then .reduceSet else .returned))
  | .reduceSet => some ((setAtomic .reduceStage s.numOfPairs s).goto i .reduceTest)
  | .reduceTest => some (s.goto i (if s.vectorOfVectors.isEmpty then .semPost else .semWait))
  | .semWait =>
      if s.sem = 0 then none
      else some ({ s with sem := s.sem - 1, waited := s.waited + 1 }.goto i .reduceRetest)
  | .reduceRetest => some (s.goto i (if s.vectorOfVectors.isEmpty then .semPost else .reduceLock))
  | .reduceLock =>
      if s.mutexReduce = none then
        match s.vectorOfVectors with
        | [] => some (s.goto i .undefined)
        | elementReduce :: rest =>
            some ({ s with mutexReduce := some i, vectorOfVectors := rest }.goto i
              (.reducing elementReduce))
      else none
  | .reducing elementReduce =>
      some ({ s with
        outputVec := s.outputVec ++ client.reduce elementReduce
        progress := s.progress + BitVec.ofNat 64 elementReduce.length
        mutexReduce := none
        reduced := s.reduced ++ [elementReduce] }.goto i .reduceTest)
  | .semPost => some ({ s with sem := s.sem + 1 }.goto i .returned)
  | _ => none

/-- A step of the worker `label.1`.
Source: `MapReduceFramework.cpp`, `main_map_reduce_framework` -/
def jobStep (label : Fin T × ℕ) (s : JobContext T (K × V) Out) :
    Option (JobContext T (K × V) Out) :=
  let i := label.1
  match s.pc i with
  | .mapSet | .mapTest _ | .mapSection _ | .mapCall _ _ | .sort _ => mapStep client input i s
  | .barrier =>
      if ∀ j, (s.pc j).reachedBarrier then
        -- `MAIN_T_ID` shuffles
        some (s.goto i (if i.val = 0 then .shuffleCollect else .barrierReduce))
      else none
  | .shuffleCollect | .shuffleSet _ | .shuffleTop _ | .shuffleLoop _ _ _ =>
      shuffleStep client i label.2 s
  | .barrierReduce =>
      if ∀ j, (s.pc j).reachedBarrierReduce then some (s.goto i .reduceFlag) else none
  | .returned | .undefined => none
  | _ => reduceStep client i s

variable {client input} in
/-- **What a step of a worker is**, with the part of the job the worker is in. -/
theorem jobStep_cases {i : Fin T} {pick : ℕ} {s s' : JobContext T (K × V) Out}
    (h : jobStep client input (i, pick) s = some s') :
    ((s.pc i).inMap = true ∧ mapStep client input i s = some s') ∨
    (s.pc i = .barrier ∧ (∀ j, (s.pc j).reachedBarrier = true) ∧
      s' = s.goto i (if i.val = 0 then .shuffleCollect else .barrierReduce)) ∨
    ((s.pc i).inShuffle = true ∧ shuffleStep client i pick s = some s') ∨
    (s.pc i = .barrierReduce ∧ (∀ j, (s.pc j).reachedBarrierReduce = true) ∧
      s' = s.goto i .reduceFlag) ∨
    ((s.pc i).inReduce = true ∧ reduceStep client i s = some s') := by
  unfold jobStep at h
  dsimp only at h
  cases hpc : s.pc i <;> rw [hpc] at h <;> dsimp only at h
  case barrier =>
    by_cases hall : ∀ j, (s.pc j).reachedBarrier = true
    · rw [if_pos hall] at h
      exact .inr (.inl ⟨rfl, hall, (Option.some.inj h).symm⟩)
    · rw [if_neg hall] at h
      cases h
  case barrierReduce =>
    by_cases hall : ∀ j, (s.pc j).reachedBarrierReduce = true
    · rw [if_pos hall] at h
      exact .inr (.inr (.inr (.inl ⟨rfl, hall, (Option.some.inj h).symm⟩)))
    · rw [if_neg hall] at h
      cases h
  case returned | undefined => cases h
  case mapSet | mapTest | mapSection | mapCall | sort => exact .inl ⟨rfl, h⟩
  case shuffleCollect | shuffleSet | shuffleTop | shuffleLoop =>
    exact .inr (.inr (.inl ⟨rfl, h⟩))
  all_goals exact .inr (.inr (.inr (.inr ⟨rfl, h⟩)))

section phases

variable {client input} {i : Fin T} {pick : ℕ} {s s' : JobContext T (K × V) Out}

/-- What a step of a worker is before it has left the first barrier. -/
theorem jobStep_mapping (hpoint : (s.pc i).inMap = true ∨ s.pc i = .barrier)
    (h : jobStep client input (i, pick) s = some s') :
    mapStep client input i s = some s' ∨
    (s.pc i = .barrier ∧ (∀ j, (s.pc j).reachedBarrier = true) ∧
      s' = s.goto i (if i.val = 0 then .shuffleCollect else .barrierReduce)) := by
  have hout : (s.pc i).inShuffle = false ∧ s.pc i ≠ .barrierReduce ∧ (s.pc i).inReduce = false := by
    rcases hpoint with hin | hpc
    · exact JobPc.of_inMap hin
    · rw [hpc]
      exact ⟨rfl, nofun, rfl⟩
  rcases jobStep_cases h with ⟨-, h⟩ | h | ⟨hin, -⟩ | ⟨hpc, -⟩ | ⟨hin, -⟩
  · exact .inl h
  · exact .inr h
  · exact absurd hin (Bool.eq_false_iff.mp hout.1)
  · exact absurd hpc hout.2.1
  · exact absurd hin (Bool.eq_false_iff.mp hout.2.2)

/-- What a step of a worker is from the first barrier to the second. -/
theorem jobStep_shuffling (hpoint : s.pc i = .barrier ∨ s.pc i = .barrierReduce ∨
      s.pc i = .undefined ∨ (s.pc i).inShuffle = true)
    (h : jobStep client input (i, pick) s = some s') :
    (s.pc i = .barrier ∧
      s' = s.goto i (if i.val = 0 then .shuffleCollect else .barrierReduce)) ∨
    shuffleStep client i pick s = some s' ∨
    (s.pc i = .barrierReduce ∧ (∀ j, (s.pc j).reachedBarrierReduce = true) ∧
      s' = s.goto i .reduceFlag) := by
  have hout : (s.pc i).inMap = false ∧ (s.pc i).inReduce = false := by
    rcases hpoint with hpc | hpc | hpc | hin
    · rw [hpc]
      exact ⟨rfl, rfl⟩
    · rw [hpc]
      exact ⟨rfl, rfl⟩
    · rw [hpc]
      exact ⟨rfl, rfl⟩
    · exact JobPc.of_inShuffle hin
  rcases jobStep_cases h with ⟨hin, -⟩ | ⟨hpc, -, hs'⟩ | ⟨-, h⟩ | h | ⟨hin, -⟩
  · exact absurd hin (Bool.eq_false_iff.mp hout.1)
  · exact .inl ⟨hpc, hs'⟩
  · exact .inr (.inl h)
  · exact .inr (.inr h)
  · exact absurd hin (Bool.eq_false_iff.mp hout.2)

/-- What a step of a worker is once it has arrived at the second barrier. -/
theorem jobStep_reducing (hpoint : (s.pc i).reachedBarrierReduce = true)
    (h : jobStep client input (i, pick) s = some s') :
    (s.pc i = .barrierReduce ∧ s' = s.goto i .reduceFlag) ∨ reduceStep client i s = some s' := by
  obtain ⟨hmap, hbarrier, hshuffle⟩ := JobPc.of_reachedBarrierReduce hpoint
  rcases jobStep_cases h with ⟨hin, -⟩ | ⟨hpc, -⟩ | ⟨hin, -⟩ | ⟨hpc, -, hs'⟩ | ⟨-, h⟩
  · exact absurd hin (Bool.eq_false_iff.mp hmap)
  · exact absurd hpc hbarrier
  · exact absurd hin (Bool.eq_false_iff.mp hshuffle)
  · exact .inl ⟨hpc, hs'⟩
  · exact .inr h

end phases

section converse

variable {client input} {i : Fin T} {pick : ℕ} {s : JobContext T (K × V) Out}

theorem jobStep_of_inMap (h : (s.pc i).inMap = true) :
    jobStep client input (i, pick) s = mapStep client input i s := by
  unfold jobStep
  dsimp only
  generalize s.pc i = x at h
  cases x with
  | mapSet | mapTest | mapSection | mapCall | sort => rfl
  | _ => cases h

theorem jobStep_of_inShuffle (h : (s.pc i).inShuffle = true) :
    jobStep client input (i, pick) s = shuffleStep client i pick s := by
  unfold jobStep
  dsimp only
  generalize s.pc i = x at h
  cases x with
  | shuffleCollect | shuffleSet | shuffleTop | shuffleLoop => rfl
  | _ => cases h

theorem jobStep_of_inReduce (h : (s.pc i).inReduce = true) :
    jobStep client input (i, pick) s = reduceStep client i s := by
  unfold jobStep
  dsimp only
  generalize s.pc i = x at h
  cases x with
  | reduceFlag | reduceSet | reduceTest | semWait | reduceRetest | reduceLock | reducing
  | semPost => rfl
  | _ => cases h

/-- A barrier lets everybody through once all have arrived. -/
theorem jobStep_barrier (h : s.pc i = .barrier) (hall : ∀ j, (s.pc j).reachedBarrier = true) :
    ∃ s', jobStep client input (i, pick) s = some s' := by
  simp only [jobStep, h]
  exact ⟨_, if_pos hall⟩

theorem jobStep_barrierReduce (h : s.pc i = .barrierReduce)
    (hall : ∀ j, (s.pc j).reachedBarrierReduce = true) :
    ∃ s', jobStep client input (i, pick) s = some s' := by
  simp only [jobStep, h]
  exact ⟨_, if_pos hall⟩

end converse

/-- `num_of_threads`, with the cast of the size to `int`; a loop up to a negative one does nothing.
Source: `MapReduceFramework.cpp`, `JobContext::JobContext` -/
def numOfThreads (multiThreadLevel : ℕ) (input : List Input) : ℕ :=
  (min (multiThreadLevel : ℤ) (BitVec.ofNat 32 input.length).toInt).toNat

omit input in
theorem numOfThreads_eq {multiThreadLevel : ℕ} {input : List Input} (h : input.length < 2 ^ 31) :
    numOfThreads multiThreadLevel input = min multiThreadLevel input.length := by
  rw [numOfThreads, BitVec.toInt_eq_toNat_of_lt (by rw [BitVec.toNat_ofNat]; omega),
    BitVec.toNat_ofNat, Nat.mod_eq_of_lt (by omega)]
  omega

/-- A fresh job. Source: `MapReduceFramework.cpp`, `JobContext::JobContext` -/
def freshJob (T : ℕ) (outputVec : List Out) : JobContext T P Out where
  outputVec := outputVec
  pc _ := .mapSet

/-- A job started with `startMapReduceJob`, whose output vector is `outputVec` at first.
Source: `MapReduceFramework.cpp`, `startMapReduceJob` -/
def mapReduce (multiThreadLevel : ℕ) (outputVec : List Out) :
    Machine (JobContext (numOfThreads multiThreadLevel input) (K × V) Out)
      (Fin (numOfThreads multiThreadLevel input) × ℕ) where
  init s := s = freshJob _ outputVec
  step := jobStep client input

/-- A job whose workers are about to enter `reduce_phase`, `groups` having been left by
`shuffle_phase` with one semaphore token each. -/
def shuffledJob (T : ℕ) (groups : List (List P)) (numOfPairs : ℕ) (progress : BitVec 64)
    (outputVec : List Out) : JobContext T P Out where
  progress := progress
  doneMap := true
  setMap := true
  setShuffle := true
  finishedShuffle := true
  numOfPairs := numOfPairs
  vectorOfVectors := groups
  sem := groups.length
  outputVec := outputVec
  pc _ := .reduceFlag

/-- The reduce phase of `T` workers on its own. -/
def reducePhase (T : ℕ) (groups : List (List (K × V))) (numOfPairs : ℕ) (progress : BitVec 64)
    (outputVec : List Out) : Machine (JobContext T (K × V) Out) (Fin T × ℕ) where
  init s := s = shuffledJob T groups numOfPairs progress outputVec
  step := jobStep client input

end machine

end CoreOS.MapReduce
