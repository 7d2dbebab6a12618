import CoreOS.MapReduce.Statements

/-!
# What a statement does

The steps of `running_map_phase`, `sort_phase`, `shuffle_phase` and `reduce_phase` one by one: where
the worker is, under which condition it goes on, and what it leaves. What holds of every step is
derived from these cases.

* `mapStep_cases`, `sortStep_cases`, `shuffleStep_cases`, `reduceStep_cases`: every step is one of
  them.
-/

namespace CoreOS.MapReduce.Statement

open CoreOS.Lib Function

variable {Input K V Out P : Type*} {T : ℕ} {client : Client Input K V Out} {input : List Input}
  {i : Fin T} {pick : ℕ}

/-- Only a free mutex can be taken. -/
theorem setStep_lock_iff {call : SetCall P} {value : ℕ} {s s' : Shared T P Out} :
    setStep i call value s .lock = some s' ↔ s.mutexSetAtomic = none ∧
      s' = { s with mutexSetAtomic := some i }.goto i (.setAtomic call value .read) := by
  simp only [setStep, Option.ite_none_right_eq_some, Option.some.injEq, eq_comm (a := s')]

/-- The statements of `running_map_phase`. -/
inductive MapCase (client : Client Input K V Out) (input : List Input) (i : Fin T)
    (s : Shared T (K × V) Out) : Shared T (K × V) Out → Prop
  | leave {vecs} (hpc : s.pc i = .mapTest vecs) (hdone : s.doneMap = true) :
      MapCase client input i s (s.goto i (.mapLeft vecs))
  | enter {vecs} (hpc : s.pc i = .mapTest vecs) (hdone : ¬ s.doneMap = true) :
      MapCase client input i s (s.goto i (.mapLock vecs))
  | lock {vecs} (hpc : s.pc i = .mapLock vecs) (hfree : s.mutexMap = none) :
      MapCase client input i s ({ s with mutexMap := some i }.goto i (.mapCheck vecs))
  | full {vecs} (hpc : s.pc i = .mapCheck vecs) (hall : jobDone s.progress + 1 > input.length) :
      MapCase client input i s (s.goto i (.mapDone vecs))
  | more {vecs} (hpc : s.pc i = .mapCheck vecs) (hmore : ¬ jobDone s.progress + 1 > input.length) :
      MapCase client input i s (s.goto i (.mapClaim vecs))
  | done {vecs} (hpc : s.pc i = .mapDone vecs) :
      MapCase client input i s ({ s with doneMap := true }.goto i (.mapBreak vecs))
  | exit {vecs} (hpc : s.pc i = .mapBreak vecs) :
      MapCase client input i s ({ s with mutexMap := none }.goto i (.mapLeft vecs))
  | claim {vecs} (hpc : s.pc i = .mapClaim vecs) :
      MapCase client input i s ({ s with
        progress := s.progress + 1
        log := s.log.claim i (jobDone s.progress) }.goto i (.mapUnlock vecs (jobDone s.progress)))
  | unlock {vecs index} (hpc : s.pc i = .mapUnlock vecs index) :
      MapCase client input i s ({ s with mutexMap := none }.goto i (.mapCall vecs index))
  | outOfRange {vecs index} (hpc : s.pc i = .mapCall vecs index) (hnone : input[index]? = none) :
      MapCase client input i s (s.goto i .outOfRange)
  | call {vecs index pair} (hpc : s.pc i = .mapCall vecs index)
      (hpair : input[index]? = some pair) :
      MapCase client input i s
        ({ s with log := s.log.finish .mapStage 1 }.goto i (.mapPush vecs (client.map pair)))
  | push {vecs tempVec} (hpc : s.pc i = .mapPush vecs tempVec) :
      MapCase client input i s (s.goto i (.mapTest (vecs ++ [tempVec])))
  | left {vecs} (hpc : s.pc i = .mapLeft vecs) : MapCase client input i s (s.goto i (.sort vecs))

theorem mapStep_cases {s s' : Shared T (K × V) Out} (h : mapStep client input i s = some s') :
    MapCase client input i s s' := by
  unfold mapStep at h
  split at h
  case h_1 hpc =>
    cases h
    split_ifs with hdone
    · exact .leave hpc hdone
    · exact .enter hpc hdone
  case h_2 hpc =>
    split_ifs at h with hfree
    cases h
    exact .lock hpc hfree
  case h_3 hpc =>
    cases h
    split_ifs with hall
    · exact .full hpc hall
    · exact .more hpc hall
  case h_4 hpc =>
    cases h
    exact .done hpc
  case h_5 hpc =>
    cases h
    exact .exit hpc
  case h_6 hpc =>
    cases h
    exact .claim hpc
  case h_7 hpc =>
    cases h
    exact .unlock hpc
  case h_8 hpc =>
    split at h
    case h_1 hnone =>
      cases h
      exact .outOfRange hpc hnone
    case h_2 hpair =>
      cases h
      exact .call hpc hpair
  case h_9 hpc =>
    cases h
    exact .push hpc
  case h_10 hpc =>
    cases h
    exact .left hpc
  case h_11 => cases h

/-- The statements of `sort_phase`. -/
inductive SortCase (i : Fin T) (s : Shared T P Out) : Shared T P Out → Prop
  | finish (hpc : s.pc i = .sort []) : SortCase i s (s.goto i .barrier)
  | lock {vec vecs} (hpc : s.pc i = .sort (vec :: vecs)) (hfree : s.mutexSort = none) :
      SortCase i s ({ s with mutexSort := some i }.goto i (.sortPush vec vecs))
  | push {vec vecs} (hpc : s.pc i = .sortPush vec vecs) :
      SortCase i s
        ({ s with vectorOfVectors := s.vectorOfVectors ++ [vec] }.goto i (.sortUnlock vecs))
  | unlock {vecs} (hpc : s.pc i = .sortUnlock vecs) :
      SortCase i s ({ s with mutexSort := none }.goto i (.sort vecs))

theorem sortStep_cases {s s' : Shared T P Out} (h : sortStep i s = some s') : SortCase i s s' := by
  unfold sortStep at h
  split at h
  case h_1 hpc =>
    cases h
    exact .finish hpc
  case h_2 hpc =>
    split_ifs at h with hfree
    cases h
    exact .lock hpc hfree
  case h_3 hpc =>
    cases h
    exact .push hpc
  case h_4 hpc =>
    cases h
    exact .unlock hpc
  case h_5 => cases h

/-- The statements of `shuffle_phase`, and of `update_saving_all_pairs`. -/
inductive ShuffleCase (client : Client Input K V Out) (i : Fin T) (pick : ℕ)
    (s : Shared T (K × V) Out) : Shared T (K × V) Out → Prop
  | collect (hpc : s.pc i = .shuffleCollect) :
      ShuffleCase client i pick s
        ({ s with numOfPairs := s.numOfPairs + (s.vectorOfVectors.map List.length).sum }.goto i
          (.setAtomic (.shuffle s.vectorOfVectors.flatten)
            (s.numOfPairs + (s.vectorOfVectors.map List.length).sum) .lock))
  | noTop {allPairs} (hpc : s.pc i = .shuffleTop allPairs) (hempty : allPairs.isEmpty = true) :
      ShuffleCase client i pick s ({ s with vectorOfVectors := [] }.goto i .noTop)
  | top {allPairs lastPair} (hpc : s.pc i = .shuffleTop allPairs)
      (hempty : ¬ allPairs.isEmpty = true) (htop : client.top allPairs pick = some lastPair) :
      ShuffleCase client i pick s
        ({ s with vectorOfVectors := [] }.goto i (.shuffleLoop allPairs lastPair []))
  | finish {allPairs lastPair savingAllPairs}
      (hpc : s.pc i = .shuffleLoop allPairs lastPair savingAllPairs)
      (hempty : allPairs.isEmpty = true) :
      ShuffleCase client i pick s ({ s with finishedShuffle := true }.goto i .barrierReduce)
  | take {allPairs lastPair thisPair savingAllPairs}
      (hpc : s.pc i = .shuffleLoop allPairs lastPair savingAllPairs)
      (hempty : ¬ allPairs.isEmpty = true) (htop : client.top allPairs pick = some thisPair)
      (hkeys : ¬ client.compareByFirstElement lastPair thisPair ∧
        ¬ client.compareByFirstElement thisPair lastPair) :
      ShuffleCase client i pick s
        ({ s with log := s.log.finish .shuffleStage 1 }.goto i (.shuffleCount
          (allPairs.eraseIdx pick) lastPair thisPair (savingAllPairs ++ [thisPair])))
  | cut {allPairs lastPair thisPair savingAllPairs}
      (hpc : s.pc i = .shuffleLoop allPairs lastPair savingAllPairs)
      (hempty : ¬ allPairs.isEmpty = true) (htop : client.top allPairs pick = some thisPair)
      (hkeys : ¬ (¬ client.compareByFirstElement lastPair thisPair ∧
        ¬ client.compareByFirstElement thisPair lastPair)) :
      ShuffleCase client i pick s (s.goto i (.shufflePush allPairs thisPair savingAllPairs))
  | countLast {allPairs lastPair thisPair savingAllPairs}
      (hpc : s.pc i = .shuffleCount allPairs lastPair thisPair savingAllPairs)
      (hlast : allPairs.isEmpty = true) :
      ShuffleCase client i pick s ({ s with
        progress := s.progress + 1
        log := s.log.count .shuffleStage 1 }.goto i (.shufflePush allPairs thisPair savingAllPairs))
  | count {allPairs lastPair thisPair savingAllPairs}
      (hpc : s.pc i = .shuffleCount allPairs lastPair thisPair savingAllPairs)
      (hlast : ¬ allPairs.isEmpty = true) :
      ShuffleCase client i pick s ({ s with
        progress := s.progress + 1
        log := s.log.count .shuffleStage 1 }.goto i (.shuffleLoop allPairs lastPair savingAllPairs))
  | push {allPairs lastPair savingAllPairs}
      (hpc : s.pc i = .shufflePush allPairs lastPair savingAllPairs) :
      ShuffleCase client i pick s
        ({ s with vectorOfVectors := s.vectorOfVectors ++ [savingAllPairs] }.goto i
          (.shufflePost allPairs lastPair))
  | post {allPairs lastPair} (hpc : s.pc i = .shufflePost allPairs lastPair) :
      ShuffleCase client i pick s
        ({ s with sem := s.sem + 1 }.goto i (.shuffleLoop allPairs lastPair []))

theorem shuffleStep_cases {s s' : Shared T (K × V) Out}
    (h : shuffleStep client i pick s = some s') : ShuffleCase client i pick s s' := by
  unfold shuffleStep at h
  split at h
  case h_1 hpc =>
    cases h
    exact .collect hpc
  case h_2 hpc =>
    split_ifs at h with hempty
    · cases h
      exact .noTop hpc hempty
    · obtain ⟨lastPair, htop, h⟩ := Option.map_eq_some_iff.mp h
      cases h
      exact .top hpc hempty htop
  case h_3 hpc =>
    split_ifs at h with hempty
    · cases h
      exact .finish hpc hempty
    · obtain ⟨thisPair, htop, h⟩ := Option.map_eq_some_iff.mp h
      split_ifs at h with hkeys
      · cases h
        exact .take hpc hempty htop hkeys
      · cases h
        exact .cut hpc hempty htop hkeys
  case h_4 hpc =>
    cases h
    split_ifs with hlast
    · exact .countLast hpc hlast
    · exact .count hpc hlast
  case h_5 hpc =>
    cases h
    exact .push hpc
  case h_6 hpc =>
    cases h
    exact .post hpc
  case h_7 => cases h

/-- The statements of `reduce_phase`. -/
inductive ReduceCase (client : Client Input K V Out) (i : Fin T) (s : Shared T (K × V) Out) :
    Shared T (K × V) Out → Prop
  | begin (hpc : s.pc i = .reduceFlag) (hfinished : s.finishedShuffle = true) :
      ReduceCase client i s (s.goto i (.setAtomic .reduce s.numOfPairs .lock))
  | skip (hpc : s.pc i = .reduceFlag) (hfinished : ¬ s.finishedShuffle = true) :
      ReduceCase client i s (s.goto i .returned)
  | testEmpty (hpc : s.pc i = .reduceTest) (hempty : s.vectorOfVectors.isEmpty = true) :
      ReduceCase client i s (s.goto i .semPost)
  | test (hpc : s.pc i = .reduceTest) (hempty : ¬ s.vectorOfVectors.isEmpty = true) :
      ReduceCase client i s (s.goto i .semWait)
  | wait (hpc : s.pc i = .semWait) (hsem : ¬ s.sem = 0) :
      ReduceCase client i s ({ s with sem := s.sem - 1 }.goto i .reduceRetest)
  | retestEmpty (hpc : s.pc i = .reduceRetest) (hempty : s.vectorOfVectors.isEmpty = true) :
      ReduceCase client i s (s.goto i .semPost)
  | retest (hpc : s.pc i = .reduceRetest) (hempty : ¬ s.vectorOfVectors.isEmpty = true) :
      ReduceCase client i s (s.goto i .reduceLock)
  | lock (hpc : s.pc i = .reduceLock) (hfree : s.mutexReduce = none) :
      ReduceCase client i s ({ s with mutexReduce := some i }.goto i .reduceTake)
  | noFront (hpc : s.pc i = .reduceTake) (hnil : s.vectorOfVectors = []) :
      ReduceCase client i s (s.goto i .noFront)
  | take {elementReduce rest} (hpc : s.pc i = .reduceTake)
      (hcons : s.vectorOfVectors = elementReduce :: rest) :
      ReduceCase client i s ({ s with vectorOfVectors := rest }.goto i (.reducing elementReduce))
  | reduce {elementReduce} (hpc : s.pc i = .reducing elementReduce) :
      ReduceCase client i s ({ s with
        outputVec := s.outputVec ++ client.reduce elementReduce
        log := s.log.finish .reduceStage elementReduce.length }.goto i (.reduceCount elementReduce))
  | count {elementReduce} (hpc : s.pc i = .reduceCount elementReduce) :
      ReduceCase client i s ({ s with
        progress := s.progress + BitVec.ofNat 64 elementReduce.length
        log := s.log.count .reduceStage elementReduce.length }.goto i .reduceUnlock)
  | unlock (hpc : s.pc i = .reduceUnlock) :
      ReduceCase client i s ({ s with mutexReduce := none }.goto i .reduceTest)
  | post (hpc : s.pc i = .semPost) :
      ReduceCase client i s ({ s with sem := s.sem + 1 }.goto i .returned)

theorem reduceStep_cases {s s' : Shared T (K × V) Out} (h : reduceStep client i s = some s') :
    ReduceCase client i s s' := by
  unfold reduceStep at h
  split at h
  case h_1 hpc =>
    cases h
    split_ifs with hfinished
    · exact .begin hpc hfinished
    · exact .skip hpc hfinished
  case h_2 hpc =>
    cases h
    split_ifs with hempty
    · exact .testEmpty hpc hempty
    · exact .test hpc hempty
  case h_3 hpc =>
    split_ifs at h with hsem
    cases h
    exact .wait hpc hsem
  case h_4 hpc =>
    cases h
    split_ifs with hempty
    · exact .retestEmpty hpc hempty
    · exact .retest hpc hempty
  case h_5 hpc =>
    split_ifs at h with hfree
    cases h
    exact .lock hpc hfree
  case h_6 hpc =>
    split at h
    case h_1 hnil =>
      cases h
      exact .noFront hpc hnil
    case h_2 hcons =>
      cases h
      exact .take hpc hcons
  case h_7 hpc =>
    cases h
    exact .reduce hpc
  case h_8 hpc =>
    cases h
    exact .count hpc
  case h_9 hpc =>
    cases h
    exact .unlock hpc
  case h_10 hpc =>
    cases h
    exact .post hpc
  case h_11 => cases h

end CoreOS.MapReduce.Statement
