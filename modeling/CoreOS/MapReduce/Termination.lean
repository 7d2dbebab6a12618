import CoreOS.MapReduce.ShuffleRuns

/-!
# A job ends

A measure of a whole job that every step of every worker lowers, so that no schedule goes on for
ever, whoever is favoured by it.

* `JobPc.stepsLeft`: what a worker has left to do without claiming another index or taking another
  group.
* `unclaimed` and `groupsLeft`: the indices and the groups that are still to be had; there are at
  most as many groups as pairs.
* `jobMeasure`: the three together; `Running.measure_lt` is the step lemma, `jobMeasure_fresh` the
  bound on a whole schedule.
-/

namespace CoreOS.MapReduce

open CoreOS.Lib Function

variable {Input K V Out P : Type*} {T : ℕ} {client : Client Input K V Out} {input : List Input}
  {out : List Out} {pairs : List (K × V)} {s s' : JobContext T (K × V) Out} {i : Fin T} {pick : ℕ}

/-! ## The measure -/

/-- A bound on the steps of a worker that claims no further index and takes no further group, in a
job with `n` pairs. -/
def JobPc.stepsLeft (n : ℕ) : JobPc P → ℕ
  | mapSet => 2 * n + 17
  | mapTest vecs => vecs.length + 2 * n + 16
  | mapSection vecs => vecs.length + 2 * n + 15
  -- the vector that `map` gives has to be handed over as well
  | mapCall vecs _ => vecs.length + 2 * n + 18
  | sort vecs => vecs.length + 2 * n + 14
  | barrier => 2 * n + 13
  | shuffleCollect => roundsLeft n (shuffleCollect : JobPc P) + 8
  | shuffleSet allPairs => roundsLeft n (shuffleSet allPairs) + 8
  | shuffleTop allPairs => roundsLeft n (shuffleTop allPairs) + 8
  | shuffleLoop allPairs lastPair savingAllPairs =>
      roundsLeft n (shuffleLoop allPairs lastPair savingAllPairs) + 8
  | barrierReduce => 8
  | reduceFlag => 7
  | reduceSet | reducing _ => 6
  | reduceTest => 5
  | semWait => 4
  | reduceRetest => 3
  | reduceLock => 2
  | semPost => 1
  | returned | undefined => 0

/-- The indices that nobody has claimed: none is left when everybody has arrived at the barrier. -/
def unclaimed (size : ℕ) (s : JobContext T P Out) : ℕ :=
  if ∀ i, (s.pc i).reachedBarrier then 0 else if s.setMap then size - jobDone s.progress else size

/-- The groups that nobody has taken, at most `n` until all are there. -/
def groupsLeft (n : ℕ) (s : JobContext T P Out) : ℕ :=
  if ∀ i, (s.pc i).reachedBarrierReduce then s.vectorOfVectors.length else n

/-- A bound on the steps that a job with `size` inputs and `n` pairs has left. -/
def jobMeasure (size n : ℕ) (s : JobContext T P Out) : ℕ :=
  ∑ i, (s.pc i).stepsLeft n + 4 * unclaimed size s + 5 * groupsLeft n s

/-- A worker moves, and what it has left to do pays for what it makes available. -/
theorem jobMeasure_lt {size n : ℕ} {s s' : JobContext T P Out} {x : JobPc P}
    (hpc : s'.pc = update s.pc i x)
    (hlt : x.stepsLeft n + 4 * unclaimed size s' + 5 * groupsLeft n s' <
      (s.pc i).stepsLeft n + 4 * unclaimed size s + 5 * groupsLeft n s) :
    jobMeasure size n s' < jobMeasure size n s := by
  have hsum := sum_update (JobPc.stepsLeft n) s.pc i x
  rw [jobMeasure, jobMeasure, hpc]
  omega

theorem goto_pc {s : JobContext T P Out} {x : JobPc P} : (s.goto i x).pc = update s.pc i x := rfl

theorem goto_vectorOfVectors {s : JobContext T P Out} {x : JobPc P} :
    (s.goto i x).vectorOfVectors = s.vectorOfVectors := rfl

theorem setAtomic_vectorOfVectors (stage : Stage) (value : ℕ) (s : JobContext T P Out) :
    (setAtomic stage value s).vectorOfVectors = s.vectorOfVectors := by
  unfold setAtomic
  cases stage <;> dsimp only <;> split_ifs <;> rfl

theorem groupsLeft_of_not_reached {n : ℕ} {s : JobContext T P Out}
    (hi : (s.pc i).reachedBarrierReduce = false) : groupsLeft n s = n := by
  refine if_neg fun hall => ?_
  rw [hall i] at hi
  cases hi

theorem groupsLeft_of_reached {n : ℕ} {s : JobContext T P Out}
    (hall : ∀ i, (s.pc i).reachedBarrierReduce = true) : groupsLeft n s = s.vectorOfVectors.length :=
  if_pos hall

theorem unclaimed_of_reached {size : ℕ} (hall : ∀ i, (s.pc i).reachedBarrier = true) :
    unclaimed size s = 0 :=
  if_pos hall

/-! ## The map phase -/

theorem JobPc.not_reached_of_inMap {x : JobPc P} (h : x.inMap = true) :
    x.reachedBarrierReduce = false := by
  cases x with
  | mapSet | mapTest | mapSection | mapCall | sort => rfl
  | _ => cases h

section mapping

variable {d : ℕ} (h : Mapping client input out d s)
include h

/-- Before everybody has arrived at the first barrier there are as many groups to come as pairs. -/
theorem Mapping.groupsLeft_eq {n : ℕ} (i : Fin T) : groupsLeft n s = n := by
  refine groupsLeft_of_not_reached (i := i) ?_
  rcases h.points i with hin | hpc
  · exact JobPc.not_reached_of_inMap hin
  · rw [hpc]
    rfl

/-- What has not been claimed. -/
theorem Mapping.unclaimed_eq (hlt : input.length < 2 ^ 31) (i : Fin T) :
    unclaimed input.length s = input.length - d := by
  have hle := h.le
  have hp := h.progress
  unfold unclaimed
  split_ifs at hp ⊢ with hall hset hset
  · have hpc := h.all_at_barrier hall i
    rw [h.done (h.left i (by rw [hpc]; rfl)), Nat.sub_self]
  · have hpc := h.all_at_barrier hall i
    rw [h.done (h.left i (by rw [hpc]; rfl)), Nat.sub_self]
  · rw [hp, jobDone_word (by omega)]
  · rw [hp.1, Nat.sub_zero]

/-- A worker of the map phase moves on, making nothing available. -/
theorem Mapping.measure_lt_of_eq {n : ℕ} {x : JobPc (K × V)} (hlt : input.length < 2 ^ 31)
    (h' : Mapping client input out d s') (hpc : s'.pc = update s.pc i x)
    (hx : x.stepsLeft n < (s.pc i).stepsLeft n) :
    jobMeasure input.length n s' < jobMeasure input.length n s := by
  refine jobMeasure_lt hpc ?_
  rw [h.unclaimed_eq hlt i, h'.unclaimed_eq hlt i, h.groupsLeft_eq i, h'.groupsLeft_eq i]
  omega

/-- Every step of the map phase lowers the measure. -/
theorem Mapping.measure_lt {n : ℕ} (hlt : input.length < 2 ^ 31)
    (hstep : mapStep client input i s = some s') :
    jobMeasure input.length n s' < jobMeasure input.length n s := by
  cases mapStep_moves hstep with
  | set hpc =>
      refine h.measure_lt_of_eq (i := i) (x := .mapTest []) hlt (h.set hlt hpc) ?_ ?_
      · rw [goto_pc, setAtomic_pc]
      · rw [hpc]
        simp only [JobPc.stepsLeft, List.length_nil]
        omega
  | leave hpc hdone =>
      refine h.measure_lt_of_eq (i := i) hlt (h.leave hpc hdone) rfl ?_
      rw [hpc]
      simp only [JobPc.stepsLeft]
      omega
  | enter hpc =>
      refine h.measure_lt_of_eq (i := i) hlt (h.enter hpc) rfl ?_
      rw [hpc]
      exact Nat.lt_succ_self _
  | finish hpc hall =>
      have hle := h.le
      rw [h.jobDone_eq hlt (i := i) (by simp [hpc])] at hall
      refine h.measure_lt_of_eq (i := i) hlt (h.finish hpc (by omega)) rfl ?_
      rw [hpc]
      exact Nat.lt_succ_self _
  | claim hpc hmore =>
      have hd := h.jobDone_eq hlt (i := i) (by simp [hpc])
      rw [hd] at hmore ⊢
      have h' := h.claim hpc (by omega)
      -- the step pays for the call and the vector with one of the indices
      refine jobMeasure_lt (i := i) rfl ?_
      rw [h.unclaimed_eq hlt i, h'.unclaimed_eq hlt i, h.groupsLeft_eq i, h'.groupsLeft_eq i, hpc]
      simp only [JobPc.stepsLeft]
      omega
  | outOfRange hpc hnone =>
      exact absurd (List.getElem?_eq_none_iff.mp hnone) (not_le.mpr (h.claimed i _ _ hpc))
  | call hpc hpair =>
      refine h.measure_lt_of_eq (i := i) hlt (h.call hpc hpair) rfl ?_
      rw [hpc]
      simp only [JobPc.stepsLeft, List.length_append, List.length_singleton]
      omega
  | arrive hpc =>
      refine h.measure_lt_of_eq (i := i) hlt (h.arrive hpc) rfl ?_
      rw [hpc]
      simp only [JobPc.stepsLeft, List.length_nil]
      omega
  | handOver hpc =>
      refine h.measure_lt_of_eq (i := i) hlt (h.handOver hpc) rfl ?_
      rw [hpc]
      simp only [JobPc.stepsLeft, List.length_cons]
      omega

end mapping

/-! ## The shuffle phase -/

/-- A step of the main worker moves the main worker. -/
theorem shuffleStep_pc (hstep : shuffleStep client i pick s = some s') :
    s'.pc = update s.pc i (s'.pc i) := by
  cases shuffleStep_moves hstep with
  | set => rw [goto_pc_self, goto_pc, setAtomic_pc]
  | round =>
      unfold shuffleRound
      dsimp only
      split_ifs <;> rw [goto_pc_self] <;> rfl
  | _ => rw [goto_pc_self]; rfl

section shuffling

variable (h : Shuffling client pairs out s)
include h

/-- Everything has been claimed. -/
theorem Shuffling.unclaimed_eq {size : ℕ} : unclaimed size s = 0 := by
  refine unclaimed_of_reached fun j => ?_
  have hpoint := h.points j
  cases hpc : s.pc j <;> simp_all [JobPc.reachedBarrier, JobPc.inShuffle]

/-- There are no more groups than pairs, and before they are there as many are to come. -/
theorem Shuffling.groupsLeft_le (i : Fin T) : groupsLeft pairs.length s ≤ pairs.length := by
  unfold groupsLeft
  split_ifs with hall
  · have hpc := h.mainAlone.all_at_barrierReduce (fun _ hat => hat.eq_barrierReduce) hall
    have hmain := h.main ⟨0, Fin.pos i⟩ rfl
    rw [hpc] at hmain
    exact hmain.1.length_le
  · exact le_rfl

/-- A worker that has not arrived at the second barrier moves on. -/
theorem Shuffling.measure_lt_of_lt {size : ℕ} {x : JobPc (K × V)}
    (h' : Shuffling client pairs out s') (hi : (s.pc i).reachedBarrierReduce = false)
    (hpc : s'.pc = update s.pc i x)
    (hx : x.stepsLeft pairs.length < (s.pc i).stepsLeft pairs.length) :
    jobMeasure size pairs.length s' < jobMeasure size pairs.length s := by
  have hle := h'.groupsLeft_le i
  refine jobMeasure_lt hpc ?_
  rw [h.unclaimed_eq, h'.unclaimed_eq, groupsLeft_of_not_reached hi]
  omega

/-- A worker leaves the first barrier. -/
theorem Shuffling.leave_measure_lt {size : ℕ} (hpc : s.pc i = .barrier) :
    jobMeasure size pairs.length
      (s.goto i (if i.val = 0 then .shuffleCollect else .barrierReduce)) <
        jobMeasure size pairs.length s := by
  refine h.measure_lt_of_lt (i := i) (h.leave hpc) (by rw [hpc]; rfl) rfl ?_
  rw [hpc]
  split_ifs <;> simp only [JobPc.stepsLeft, roundsLeft] <;> omega

variable [IsStrictWeakOrder (K × V) client.compareByFirstElement]

/-- A step of the main worker brings the second barrier nearer. -/
theorem Shuffling.stepsLeft_lt (hstep : shuffleStep client i pick s = some s') :
    (s'.pc i).stepsLeft pairs.length < (s.pc i).stepsLeft pairs.length := by
  cases shuffleStep_moves hstep with
  | collect hpc | set hpc =>
      rw [hpc, goto_pc_self]
      simp only [JobPc.stepsLeft, roundsLeft]
      omega
  | noTop hpc =>
      rw [hpc, goto_pc_self]
      simp only [JobPc.stepsLeft]
      omega
  | start hpc =>
      have hmain := h.main i (h.main_of_ne (by simp [hpc]) (by simp [hpc]))
      rw [hpc] at hmain
      rw [hpc, goto_pc_self]
      simp only [JobPc.stepsLeft, roundsLeft, hmain.1.length_eq, if_pos]
      omega
  | finish hpc =>
      rw [hpc, goto_pc_self]
      simp only [JobPc.stepsLeft, roundsLeft]
      omega
  | @round allPairs last p saving hpc htop =>
      have hlen : allPairs.length = (allPairs.eraseIdx pick).length + 1 := by
        rw [(top_eq_some htop).1.length_eq, List.length_cons]
      by_cases hequiv : ¬ client.compareByFirstElement last p ∧
          ¬ client.compareByFirstElement p last
      · rw [hpc]
        simp only [shuffleRound, if_pos hequiv]
        split_ifs <;> rw [goto_pc_self] <;> simp only [JobPc.stepsLeft, roundsLeft, hlen] <;>
          split_ifs <;> omega
      · -- a group that is cut has elements
        have hround := (h.round hpc htop).main i (h.main_of_ne (by simp [hpc]) (by simp [hpc]))
        simp only [shuffleRound, if_neg hequiv, goto_pc_self] at hround ⊢
        have hne : saving ≠ [] :=
          hround.1.groups.nonempty saving (by simp [updateSavingAllPairs, JobContext.goto])
        rw [hpc]
        simp only [JobPc.stepsLeft, roundsLeft, if_pos, if_neg hne]
        omega

/-- Every step of the shuffle phase lowers the measure. -/
theorem Shuffling.measure_lt {size : ℕ} (hpairs : pairs ≠ [])
    (hstep : shuffleStep client i pick s = some s') :
    jobMeasure size pairs.length s' < jobMeasure size pairs.length s := by
  refine h.measure_lt_of_lt (i := i) (h.step hpairs hstep) ?_ (shuffleStep_pc hstep)
    (h.stepsLeft_lt hstep)
  cases shuffleStep_moves hstep with
  | _ hpc => rw [hpc]; rfl

end shuffling

/-! ## The reduce phase -/

section reducing

variable {groups : List (List (K × V))}

theorem Reducing.unclaimed_eq {size : ℕ} (h : Reducing client groups out s) :
    unclaimed size s = 0 := by
  refine unclaimed_of_reached fun j => ?_
  have hpoint := h.points j
  cases hpc : s.pc j <;> simp_all [JobPc.reachedBarrier, JobPc.reachedBarrierReduce]

/-- A worker of the reduce phase moves, and pays for a group that it takes. -/
theorem Reducing.measure_lt_of_lt {size n : ℕ} {x : JobPc (K × V)} (h : Reducing client groups out s)
    (h' : Reducing client groups out s') (hpc : s'.pc = update s.pc i x)
    (hx : x.stepsLeft n + 5 * s'.vectorOfVectors.length <
      (s.pc i).stepsLeft n + 5 * s.vectorOfVectors.length) :
    jobMeasure size n s' < jobMeasure size n s := by
  refine jobMeasure_lt hpc ?_
  rw [h.unclaimed_eq, h'.unclaimed_eq, groupsLeft_of_reached h.points,
    groupsLeft_of_reached h'.points]
  omega

/-- Every step from the second barrier on lowers the measure. -/
theorem Reducing.measure_lt {size n : ℕ} (h : Reducing client groups out s)
    (hstep : MapReduce.jobStep client input (i, pick) s = some s') :
    jobMeasure size n s' < jobMeasure size n s := by
  have h' := h.jobStep hstep
  rcases jobStep_reducing (h.points i) hstep with ⟨hpc, rfl⟩ | hstep
  · refine h.measure_lt_of_lt (i := i) h' rfl ?_
    rw [hpc]
    exact Nat.add_lt_add_right (Nat.lt_succ_self 7) _
  cases reduceStep_moves hstep with
  | set hpc =>
      refine h.measure_lt_of_lt (i := i) (x := .reduceTest) h' ?_ ?_
      · rw [goto_pc, setAtomic_pc]
      · rw [hpc, goto_vectorOfVectors, setAtomic_vectorOfVectors]
        simp only [JobPc.stepsLeft]
        omega
  | lock hpc hfree hcons =>
      refine h.measure_lt_of_lt (i := i) h' rfl ?_
      rw [hpc, hcons]
      simp only [JobPc.stepsLeft, JobContext.goto, List.length_cons]
      omega
  | _ hpc =>
      refine h.measure_lt_of_lt (i := i) h' rfl ?_
      rw [hpc]
      simp only [JobPc.stepsLeft, JobContext.goto]
      omega

end reducing

/-! ## Whole jobs -/

/-- **Step lemma.** Every step of every worker lowers the measure. -/
theorem Running.measure_lt [IsStrictWeakOrder (K × V) client.compareByFirstElement]
    (hlt : input.length < 2 ^ 31) (hpairs : input.flatMap client.map ≠ []) {label : Fin T × ℕ}
    (h : Running client input out s) (hstep : jobStep client input label s = some s') :
    jobMeasure input.length (input.flatMap client.map).length s' <
      jobMeasure input.length (input.flatMap client.map).length s := by
  obtain ⟨i, pick⟩ := label
  cases h with
  | mapping d h =>
      rcases jobStep_mapping (h.points i) hstep with hstep | ⟨hpc, hall, rfl⟩
      · exact h.measure_lt hlt hstep
      · exact (h.shuffling i (h.all_at_barrier hall)).leave_measure_lt hpc
  | shuffling h =>
      rcases jobStep_shuffling ((h.points i).imp_right (Or.imp_right .inr)) hstep with
        ⟨hpc, rfl⟩ | hstep' | ⟨-, hall, -⟩
      · exact h.leave_measure_lt hpc
      · exact h.measure_lt hpairs hstep'
      · obtain ⟨groups, -, hr⟩ := h.reducing (Fin.pos i) hall
        exact hr.measure_lt hstep
  | reducing groups hgroups h => exact h.measure_lt hstep

/-- The steps that a fresh job of `T` workers with `size` inputs and `n` pairs has left. -/
def jobBound (T size n : ℕ) : ℕ := T * (2 * n + 17) + 4 * size + 5 * n

theorem jobMeasure_fresh {size n : ℕ} (i : Fin T) :
    jobMeasure size n (freshJob T out : JobContext T P Out) = jobBound T size n := by
  have hunclaimed : unclaimed size (freshJob T out : JobContext T P Out) = size := by
    rw [unclaimed, if_neg fun hall => Bool.false_ne_true (hall i)]
    rfl
  rw [jobMeasure, hunclaimed, groupsLeft_of_not_reached (i := i) rfl]
  simp [freshJob, JobPc.stepsLeft, jobBound]

end CoreOS.MapReduce
