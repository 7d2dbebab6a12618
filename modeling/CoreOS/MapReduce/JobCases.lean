import CoreOS.MapReduce.Job

/-!
# What a step of a job does

The steps of the three phases one by one: where the worker is, under which condition it goes on, and
what it leaves.

* `mapStep_moves`, `shuffleStep_moves`, `reduceStep_moves`: every step is one of them.
-/

namespace CoreOS.MapReduce

open CoreOS.Lib Function

variable {Input K V Out : Type*} {T : ℕ} {client : Client Input K V Out} {input : List Input}
  {i : Fin T} {pick : ℕ} {s s' : JobContext T (K × V) Out}

/-- The steps of `running_map_phase` and `sort_phase`. -/
inductive MapMove (client : Client Input K V Out) (input : List Input) (i : Fin T)
    (s : JobContext T (K × V) Out) : JobContext T (K × V) Out → Prop
  | set (hpc : s.pc i = .mapSet) :
      MapMove client input i s ((setAtomic .mapStage input.length s).goto i (.mapTest []))
  | leave {vecs} (hpc : s.pc i = .mapTest vecs) (hdone : s.doneMap = true) :
      MapMove client input i s (s.goto i (.sort vecs))
  | enter {vecs} (hpc : s.pc i = .mapTest vecs) (hdone : ¬ s.doneMap = true) :
      MapMove client input i s (s.goto i (.mapSection vecs))
  | finish {vecs} (hpc : s.pc i = .mapSection vecs)
      (hall : jobDone s.progress + 1 > input.length) :
      MapMove client input i s ({ s with doneMap := true }.goto i (.sort vecs))
  | claim {vecs} (hpc : s.pc i = .mapSection vecs)
      (hmore : ¬ jobDone s.progress + 1 > input.length) :
      MapMove client input i s
        ({ s with progress := s.progress + 1 }.goto i (.mapCall vecs (jobDone s.progress)))
  | outOfRange {vecs index} (hpc : s.pc i = .mapCall vecs index) (hnone : input[index]? = none) :
      MapMove client input i s (s.goto i .undefined)
  | call {vecs index pair} (hpc : s.pc i = .mapCall vecs index)
      (hpair : input[index]? = some pair) :
      MapMove client input i s (s.goto i (.mapTest (vecs ++ [client.map pair])))
  | arrive (hpc : s.pc i = .sort []) : MapMove client input i s (s.goto i .barrier)
  | handOver {vec vecs} (hpc : s.pc i = .sort (vec :: vecs)) :
      MapMove client input i s
        ({ s with vectorOfVectors := s.vectorOfVectors ++ [vec] }.goto i (.sort vecs))

theorem mapStep_moves (h : mapStep client input i s = some s') : MapMove client input i s s' := by
  unfold mapStep at h
  split at h
  case h_1 hpc =>
    cases h
    exact .set hpc
  case h_2 hpc =>
    cases h
    split_ifs with hdone
    · exact .leave hpc hdone
    · exact .enter hpc hdone
  case h_3 hpc =>
    split_ifs at h with hall
    · cases h
      exact .finish hpc hall
    · cases h
      exact .claim hpc hall
  case h_4 hpc =>
    split at h
    case h_1 hnone =>
      cases h
      exact .outOfRange hpc hnone
    case h_2 hpair =>
      cases h
      exact .call hpc hpair
  case h_5 hpc =>
    cases h
    exact .arrive hpc
  case h_6 hpc =>
    cases h
    exact .handOver hpc
  case h_7 => cases h

/-- The steps of `shuffle_phase`. -/
inductive ShuffleMove (client : Client Input K V Out) (i : Fin T) (pick : ℕ)
    (s : JobContext T (K × V) Out) : JobContext T (K × V) Out → Prop
  | collect (hpc : s.pc i = .shuffleCollect) :
      ShuffleMove client i pick s
        ({ s with numOfPairs := s.numOfPairs + (s.vectorOfVectors.map List.length).sum }.goto i
          (.shuffleSet s.vectorOfVectors.flatten))
  | set {allPairs} (hpc : s.pc i = .shuffleSet allPairs) :
      ShuffleMove client i pick s
        ((setAtomic .shuffleStage s.numOfPairs s).goto i (.shuffleTop allPairs))
  | noTop (hpc : s.pc i = .shuffleTop []) :
      ShuffleMove client i pick s ({ s with vectorOfVectors := [] }.goto i .undefined)
  | start {allPairs lastPair} (hpc : s.pc i = .shuffleTop allPairs) (hne : allPairs ≠ [])
      (htop : client.top allPairs pick = some lastPair) :
      ShuffleMove client i pick s
        ({ s with vectorOfVectors := [] }.goto i (.shuffleLoop allPairs lastPair []))
  | finish {lastPair savingAllPairs} (hpc : s.pc i = .shuffleLoop [] lastPair savingAllPairs) :
      ShuffleMove client i pick s ({ s with finishedShuffle := true }.goto i .barrierReduce)
  | round {allPairs lastPair thisPair savingAllPairs}
      (hpc : s.pc i = .shuffleLoop allPairs lastPair savingAllPairs)
      (htop : client.top allPairs pick = some thisPair) :
      ShuffleMove client i pick s
        (shuffleRound client i pick allPairs lastPair thisPair savingAllPairs s)

theorem shuffleStep_moves (h : shuffleStep client i pick s = some s') :
    ShuffleMove client i pick s s' := by
  unfold shuffleStep at h
  split at h
  case h_1 hpc =>
    cases h
    exact .collect hpc
  case h_2 hpc =>
    cases h
    exact .set hpc
  case h_3 allPairs hpc =>
    by_cases hnil : allPairs = []
    · subst hnil
      cases h
      exact .noTop hpc
    · dsimp only at h
      rw [if_neg (by simpa using hnil)] at h
      obtain ⟨lastPair, htop, rfl⟩ := Option.map_eq_some_iff.mp h
      exact .start hpc hnil htop
  case h_4 allPairs lastPair savingAllPairs hpc =>
    by_cases hnil : allPairs = []
    · subst hnil
      cases h
      exact .finish hpc
    · rw [if_neg (by simpa using hnil)] at h
      obtain ⟨thisPair, htop, rfl⟩ := Option.map_eq_some_iff.mp h
      exact .round hpc htop
  case h_5 => cases h

/-- The steps of `reduce_phase`. -/
inductive ReduceMove (client : Client Input K V Out) (i : Fin T) (s : JobContext T (K × V) Out) :
    JobContext T (K × V) Out → Prop
  | begin (hpc : s.pc i = .reduceFlag) (hfinished : s.finishedShuffle = true) :
      ReduceMove client i s (s.goto i .reduceSet)
  | skip (hpc : s.pc i = .reduceFlag) (hfinished : ¬ s.finishedShuffle = true) :
      ReduceMove client i s (s.goto i .returned)
  | set (hpc : s.pc i = .reduceSet) :
      ReduceMove client i s ((setAtomic .reduceStage s.numOfPairs s).goto i .reduceTest)
  | testEmpty (hpc : s.pc i = .reduceTest) (hnil : s.vectorOfVectors = []) :
      ReduceMove client i s (s.goto i .semPost)
  | test (hpc : s.pc i = .reduceTest) (hne : s.vectorOfVectors ≠ []) :
      ReduceMove client i s (s.goto i .semWait)
  | wait (hpc : s.pc i = .semWait) (hsem : ¬ s.sem = 0) :
      ReduceMove client i s
        ({ s with sem := s.sem - 1, waited := s.waited + 1 }.goto i .reduceRetest)
  | retestEmpty (hpc : s.pc i = .reduceRetest) (hnil : s.vectorOfVectors = []) :
      ReduceMove client i s (s.goto i .semPost)
  | retest (hpc : s.pc i = .reduceRetest) (hne : s.vectorOfVectors ≠ []) :
      ReduceMove client i s (s.goto i .reduceLock)
  | noFront (hpc : s.pc i = .reduceLock) (hfree : s.mutexReduce = none)
      (hnil : s.vectorOfVectors = []) :
      ReduceMove client i s (s.goto i .undefined)
  | lock {elementReduce rest} (hpc : s.pc i = .reduceLock) (hfree : s.mutexReduce = none)
      (hcons : s.vectorOfVectors = elementReduce :: rest) :
      ReduceMove client i s
        ({ s with mutexReduce := some i, vectorOfVectors := rest }.goto i (.reducing elementReduce))
  | reduce {elementReduce} (hpc : s.pc i = .reducing elementReduce) :
      ReduceMove client i s ({ s with
        outputVec := s.outputVec ++ client.reduce elementReduce
        progress := s.progress + BitVec.ofNat 64 elementReduce.length
        mutexReduce := none
        reduced := s.reduced ++ [elementReduce] }.goto i .reduceTest)
  | post (hpc : s.pc i = .semPost) :
      ReduceMove client i s ({ s with sem := s.sem + 1 }.goto i .returned)

theorem reduceStep_moves (h : reduceStep client i s = some s') : ReduceMove client i s s' := by
  unfold reduceStep at h
  split at h
  case h_1 hpc =>
    cases h
    split_ifs with hfinished
    · exact .begin hpc hfinished
    · exact .skip hpc hfinished
  case h_2 hpc =>
    cases h
    exact .set hpc
  case h_3 hpc =>
    cases h
    split_ifs with hempty
    · exact .testEmpty hpc (List.isEmpty_iff.mp hempty)
    · exact .test hpc fun hnil => hempty (List.isEmpty_iff.mpr hnil)
  case h_4 hpc =>
    split_ifs at h with hsem
    cases h
    exact .wait hpc hsem
  case h_5 hpc =>
    cases h
    split_ifs with hempty
    · exact .retestEmpty hpc (List.isEmpty_iff.mp hempty)
    · exact .retest hpc fun hnil => hempty (List.isEmpty_iff.mpr hnil)
  case h_6 hpc =>
    split_ifs at h with hfree
    split at h
    case h_1 hnil =>
      cases h
      exact .noFront hpc hfree hnil
    case h_2 hcons =>
      cases h
      exact .lock hpc hfree hcons
  case h_7 hpc =>
    cases h
    exact .reduce hpc
  case h_8 hpc =>
    cases h
    exact .post hpc
  case h_9 => cases h

end CoreOS.MapReduce
