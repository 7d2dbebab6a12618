import CoreOS.MapReduce.Counting

/-!
# What a job counts

`getJobState` may be called at any moment of a job.

* `countedJob` is a job with a history of what its fetch-and-adds have added, stage by stage; every
  run has one (`countedJob_reachable`).
* `progress_word`: any two loads of the progress word are in order, what is done never exceeds what
  there is to do, every element is counted in the stage that counts it, and in the end all pairs
  have been reduced.
-/

namespace CoreOS.MapReduce

open CoreOS.Lib Function

variable {Input K V Out : Type*} {client : Client Input K V Out} {input : List Input}
  {out : List Out} {level : ℕ}

/-! ## The fields of the word -/

theorem stageSize_lt (hlt : input.length < 2 ^ 31)
    (hplt : (input.flatMap client.map).length < 2 ^ 31) (stage : Stage) :
    stageSize client input stage < 2 ^ 31 := by
  cases stage with
  | undefinedStage => exact Nat.two_pow_pos 31
  | mapStage => exact hlt
  | shuffleStage | reduceStage => exact hplt

/-- The stage and how much of it is done, in lexicographic order. -/
def reading (progress : BitVec 64) : ℕ ×ₗ ℕ := toLex ((jobStage progress).val, jobDone progress)

section fields

variable {T done : ℕ} {stage : Stage} {s : JobContext T (K × V) Out}
  (h : Counting client input out stage done s) (hlt : input.length < 2 ^ 31)
  (hplt : (input.flatMap client.map).length < 2 ^ 31)
include h hlt hplt

/-- What `getJobState` reads. -/
theorem Counting.fields : jobStage s.progress = stage ∧
    jobToDo s.progress = stageSize client input stage ∧ jobDone s.progress = done := by
  have hsize := stageSize_lt hlt hplt stage
  have hle := h.le
  rw [h.progress]
  exact ⟨jobStage_word hsize (by omega), jobToDo_word hsize (by omega), jobDone_word (by omega)⟩

/-- The reading is the count. -/
theorem Counting.reading_eq : reading s.progress = toLex (stage.val, done) := by
  obtain ⟨hstage, -, hdone⟩ := h.fields hlt hplt
  rw [reading, hstage, hdone]

end fields

/-! ## Along a run -/

section runs

variable {s s' : JobContext (numOfThreads level input) (K × V) Out}
  (hlt : input.length < 2 ^ 31) (hplt : (input.flatMap client.map).length < 2 ^ 31)
include hlt hplt

/-- **The count never goes back**, over any number of steps. -/
theorem Counting.run {stage : Stage} {done : ℕ} {labels : List (Fin (numOfThreads level input) × ℕ)}
    (h : Counting client input out stage done s)
    (hrun : (mapReduce client input level out).run labels s = some s') : ∃ stage' done',
      Counting client input out stage' done' s' ∧
        toLex (stage.val, done) ≤ toLex (stage'.val, done') := by
  refine (mapReduce client input level out).run_invariant (P := fun t => ∃ stage' done',
    Counting client input out stage' done' t ∧ toLex (stage.val, done) ≤ toLex (stage'.val, done'))
    ?_ labels ⟨stage, done, h, le_rfl⟩ hrun
  rintro ⟨i, pick⟩ t t' ⟨stage₁, done₁, ht, hle⟩ hstep
  obtain ⟨stage₂, done₂, ht', hadvance⟩ := ht.step hlt hplt hstep
  exact ⟨stage₂, done₂, ht', hle.trans hadvance.le⟩

end runs

/-! ## What has been added -/

/-- A job with a history: what the fetch-and-adds in the code of each stage have added so far. -/
def countedJob (client : Client Input K V Out) (input : List Input) (level : ℕ) (out : List Out) :
    Machine (JobContext (numOfThreads level input) (K × V) Out × (Stage → ℕ))
      (Fin (numOfThreads level input) × ℕ) :=
  (mapReduce client input level out).observe 0 fun label s s' added =>
    added + fetchAdd (s.pc label.1) (s'.pc label.1)

/-- Every run of a job has its history. -/
theorem countedJob_reachable {s : JobContext (numOfThreads level input) (K × V) Out}
    (h : (mapReduce client input level out).Reachable s) :
    ∃ added, (countedJob client input level out).Reachable (s, added) :=
  Machine.ReachableBy.observe h

/-- The additions of the stages before have been all of theirs, and there are none of a later
stage. -/
structure Added (size : Stage → ℕ) (stage : Stage) (added : Stage → ℕ) : Prop where
  past : ∀ stage', stage'.val < stage.val → added stage' = size stage'
  future : ∀ stage', stage.val < stage'.val → added stage' = 0

/-- What is added in one step is added to the current stage. -/
theorem Added.advance {size added k : Stage → ℕ} {stage stage' : Stage} {done' : ℕ}
    (h : Added size stage added) (hadvance : Advance size stage (added stage) k stage' done') :
    (added + k) stage' = done' ∧ Added size stage' (added + k) := by
  rcases hadvance with ⟨k⟩ | ⟨hnext, hfull⟩
  · refine ⟨by simp, ?_, ?_⟩
    · intro stage₁ hlt
      have hne : stage₁ ≠ stage := by
        rintro rfl
        exact lt_irrefl _ hlt
      rw [Pi.add_apply, Pi.single_eq_of_ne hne, h.past _ hlt, Nat.add_zero]
    · intro stage₁ hlt
      have hne : stage₁ ≠ stage := by
        rintro rfl
        exact lt_irrefl _ hlt
      rw [Pi.add_apply, Pi.single_eq_of_ne hne, h.future _ hlt, Nat.add_zero]
  · rw [add_zero]
    refine ⟨h.future _ (by omega), ?_, fun _ hlt => h.future _ (by omega)⟩
    intro stage₁ hlt
    rcases Nat.lt_or_ge stage₁.val stage.val with hbefore | hge
    · exact h.past _ hbefore
    · obtain rfl : stage₁ = stage := Stage.val_injective (by omega)
      exact hfull

/-- **No increment is lost or counted elsewhere**: the count of every stage is what the code of that
stage has added. -/
theorem counted_of_reachable (hlt : input.length < 2 ^ 31)
    (hplt : (input.flatMap client.map).length < 2 ^ 31)
    {p : JobContext (numOfThreads level input) (K × V) Out × (Stage → ℕ)}
    (h : (countedJob client input level out).Reachable p) : ∃ stage,
      Counting client input out stage (p.2 stage) p.1 ∧
        Added (stageSize client input) stage p.2 := by
  refine h.invariant (P := fun p => ∃ stage, Counting client input out stage (p.2 stage) p.1 ∧
    Added (stageSize client input) stage p.2) ?_ ?_
  · rintro ⟨s, added⟩ ⟨rfl, rfl⟩
    exact ⟨.undefinedStage, .init, fun stage' hlt => absurd hlt (Nat.not_lt_zero _), fun _ _ => rfl⟩
  · rintro ⟨i, pick⟩ p p' ⟨stage, hs, hadded⟩ hstep
    obtain ⟨hstep, hnote⟩ := Machine.observe_step.mp hstep
    obtain ⟨stage', done', hs', hadvance⟩ := hs.step hlt hplt hstep
    obtain ⟨rfl, hadded'⟩ := hadded.advance hadvance
    exact ⟨stage', hnote ▸ hs', hnote ▸ hadded'⟩

/-- When everybody has returned all pairs have been reduced. -/
theorem Counting.returned {T done : ℕ} {stage : Stage} {s : JobContext T (K × V) Out}
    (h : Counting client input out stage done s) (i : Fin T) (hall : ∀ j, s.pc j = .returned) :
    stage = .reduceStage ∧ done = s.numOfPairs ∧
      s.numOfPairs = (input.flatMap client.map).length := by
  obtain ⟨groups, hgroups, -, hnum, hr, hstage, hdone⟩ := h.reducing_of_returned (hall i)
  rw [hr.reduced_eq i hall, hgroups] at hdone
  exact ⟨hstage, hdone.trans hnum.symm, hnum⟩

/-- **The progress word is monotone and complete**, whatever the number of threads and the schedule,
and with or without pairs. For every moment of a job: a later load is not behind; no more is done
than there is to do, which is fixed for each stage; what is done is what the code of the stage has
added, the earlier stages have added all of theirs and the later ones nothing; and once everybody
has returned all pairs have been reduced. -/
theorem progress_word (hlevel : 1 ≤ level) (hinput : input ≠ []) (hlt : input.length < 2 ^ 31)
    (hplt : (input.flatMap client.map).length < 2 ^ 31)
    {p : JobContext (numOfThreads level input) (K × V) Out × (Stage → ℕ)}
    (h : (countedJob client input level out).Reachable p) :
    (∀ labels s', (mapReduce client input level out).run labels p.1 = some s' →
      reading p.1.progress ≤ reading s'.progress) ∧
    (jobDone p.1.progress ≤ jobToDo p.1.progress ∧
      jobToDo p.1.progress = stageSize client input (jobStage p.1.progress)) ∧
    (jobDone p.1.progress = p.2 (jobStage p.1.progress) ∧
      ∀ stage,
        (stage.val < (jobStage p.1.progress).val → p.2 stage = stageSize client input stage) ∧
        ((jobStage p.1.progress).val < stage.val → p.2 stage = 0)) ∧
    ((∀ i, p.1.pc i = .returned) → jobStage p.1.progress = .reduceStage ∧
      jobDone p.1.progress = p.1.numOfPairs ∧ jobToDo p.1.progress = p.1.numOfPairs) := by
  obtain ⟨stage, hs, hadded⟩ := counted_of_reachable hlt hplt h
  obtain ⟨hstage, htoDo, hdone⟩ := hs.fields hlt hplt
  refine ⟨?_, ?_, ?_, ?_⟩
  · intro labels s' hrun
    obtain ⟨stage', done', hs', hle⟩ := hs.run hlt hplt hrun
    rwa [hs.reading_eq hlt hplt, hs'.reading_eq hlt hplt]
  · rw [hstage, htoDo, hdone]
    exact ⟨hs.le, rfl⟩
  · rw [hstage, hdone]
    exact ⟨rfl, fun stage' => ⟨hadded.past stage', hadded.future stage'⟩⟩
  · intro hall
    have hT : 0 < numOfThreads level input :=
      numOfThreads_eq hlt ▸ lt_min hlevel (List.length_pos_iff.mpr hinput)
    obtain ⟨rfl, hreduced, hnum⟩ := hs.returned ⟨0, hT⟩ hall
    rw [hstage, hdone, htoDo]
    exact ⟨rfl, hreduced, hnum.symm⟩

/-- Two workers, half-way through the map phase and at the end. -/
theorem progress_word_run : ∃ (p p' : JobContext 2 (ℕ × ℕ) ℕ × (Stage → ℕ)),
    (countedJob parityClient [3, 2, 5] 2 []).run (paritySchedule.take 7) (freshJob 2 [], 0) =
      some p ∧
    (countedJob parityClient [3, 2, 5] 2 []).run paritySchedule (freshJob 2 [], 0) = some p' ∧
    jobDone p.1.progress = p.2 .mapStage ∧ jobStage p'.1.progress = .reduceStage ∧
    jobDone p'.1.progress = p'.1.numOfPairs := by
  obtain ⟨p, hp⟩ : ∃ p : JobContext 2 (ℕ × ℕ) ℕ × (Stage → ℕ),
      (countedJob parityClient [3, 2, 5] 2 []).run (paritySchedule.take 7) (freshJob 2 [], 0) =
        some p := ⟨_, rfl⟩
  obtain ⟨p', hp'⟩ : ∃ p : JobContext 2 (ℕ × ℕ) ℕ × (Stage → ℕ),
      (countedJob parityClient [3, 2, 5] 2 []).run paritySchedule (freshJob 2 [], 0) = some p :=
    ⟨_, rfl⟩
  have hmap : jobStage p.1.progress = .mapStage := by
    rw [show p = _ from (Option.some.inj hp).symm]
    decide
  have hreturned : ∀ i, p'.1.pc i = .returned := by
    rw [show p' = _ from (Option.some.inj hp').symm]
    decide
  have hr : (countedJob parityClient [3, 2, 5] 2 []).Reachable (freshJob 2 [], 0) :=
    .init ⟨rfl, rfl⟩
  have hword := (progress_word (by decide) (by decide) (by decide) (by decide)
    (hr.run hp)).2.2.1.1
  have hend := (progress_word (by decide) (by decide) (by decide) (by decide)
    (hr.run hp')).2.2.2 hreturned
  rw [hmap] at hword
  exact ⟨p, p', hp, hp', hword, hend.1, hend.2.1⟩

end CoreOS.MapReduce
