import CoreOS.MapReduce.Sections

/-!
# Statements refine sections

The machine that takes a section of a mutex as one step is an abstraction of the machine that takes
every statement as one.

* `Abstracts`: the sections that have been taken so far lead to this state; `Abstracts.step`.
* `statements_refine`: **every run of statements is a run of sections**, up to the first undefined
  thing.
* `statements_compute`: so the job computes the sequential map-reduce in any order of its
  statements.
-/

namespace CoreOS.MapReduce.Statement

open CoreOS.Lib Function Finset

variable {Input K V Out P : Type*} {T : ℕ} {client : Client Input K V Out} {input : List Input}
  {out : List Out}

/-! ## The abstraction -/

/-- The flag of a stage. -/
def isBegun (t : JobContext T P Out) : Stage → Bool
  | .mapStage => t.setMap
  | .shuffleStage => t.setShuffle
  | .reduceStage => t.setReduce
  | .undefinedStage => true

/-- The sections that have been taken in `s` lead to `t`. -/
structure Abstracts (s : Shared T P Out) (t : JobContext T P Out) : Prop where
  pc : ∀ j, t.pc j = (s.pc j).job
  progress : t.progress = s.progress + BitVec.ofNat 64 (∑ j, (s.pc j).owes)
  doneMap : t.doneMap = s.doneMap
  begun : ∀ τ, isBegun t τ = decide (τ.val ≤ s.log.stage.val)
  finishedShuffle : t.finishedShuffle = s.finishedShuffle
  numOfPairs : t.numOfPairs = s.numOfPairs
  vectorOfVectors : ∀ j : Fin T, j.val = 0 →
    t.vectorOfVectors = s.vectorOfVectors ++ (s.pc j).groups
  sem : t.sem = s.sem + ∑ j, (s.pc j).posts
  mutexReduce : Owned Point.reduces s.pc t.mutexReduce
  outputVec : t.outputVec = s.outputVec

/-- What a worker at a point still has to do for the section it has taken. -/
def Point.due (x : Point P) : ℕ × ℕ × List (List P) × Bool :=
  (x.owes, x.posts, x.groups, x.reduces)

/-- What is shared, apart from mutexes and flags. -/
def Shared.data (s : Shared T P Out) :
    BitVec 64 × Bool × Stage × Bool × ℕ × List (List P) × ℕ × List Out :=
  (s.progress, s.doneMap, s.log.stage, s.finishedShuffle, s.numOfPairs, s.vectorOfVectors, s.sem,
    s.outputVec)

namespace Abstracts

variable {i : Fin T} {s s' : Shared T P Out} {t t' : JobContext T P Out} {x y : Point P}

/-- One worker moves, in both machines. -/
theorem of_update (h : Abstracts s t) (hat : s.pc i = x) (hpc : s'.pc = update s.pc i y)
    (hpc' : t'.pc = update t.pc i y.job)
    (hprogress : t'.progress + s.progress + BitVec.ofNat 64 x.owes =
      t.progress + s'.progress + BitVec.ofNat 64 y.owes)
    (hdone : t'.doneMap = s'.doneMap)
    (hbegun : ∀ τ, isBegun t' τ = decide (τ.val ≤ s'.log.stage.val))
    (hfinished : t'.finishedShuffle = s'.finishedShuffle)
    (hnum : t'.numOfPairs = s'.numOfPairs)
    (hvectors : ∀ j : Fin T, j.val = 0 →
      t'.vectorOfVectors = s'.vectorOfVectors ++ (update s.pc i y j).groups)
    (hsem : t'.sem + s.sem + x.posts = t.sem + s'.sem + y.posts)
    (hmutex : Owned Point.reduces (update s.pc i y) t'.mutexReduce)
    (hout : t'.outputVec = s'.outputVec) : Abstracts s' t' where
  pc j := by
    rw [hpc, hpc']
    by_cases hj : j = i
    · rw [hj, update_self, update_self]
    · rw [update_of_ne hj, update_of_ne hj]
      exact h.pc j
  progress := by
    have hsum := sum_update Point.owes s.pc i y
    rw [hat] at hsum
    have hcast := congrArg (BitVec.ofNat 64) hsum
    rw [BitVec.ofNat_add, BitVec.ofNat_add] at hcast
    have hold := h.progress
    rw [hpc]
    linear_combination hprogress - hcast + hold
  doneMap := hdone
  begun := hbegun
  finishedShuffle := hfinished
  numOfPairs := hnum
  vectorOfVectors j hj := by
    rw [hpc]
    exact hvectors j hj
  sem := by
    have hsum := sum_update Point.posts s.pc i y
    have hold := h.sem
    rw [hat] at hsum
    rw [hpc]
    omega
  mutexReduce := by
    rw [hpc]
    exact hmutex
  outputVec := hout

/-- What is to be stored stays if no worker has more to store. -/
theorem vectors_update (h : Abstracts s t) (hat : s.pc i = x) (hgroups : y.groups = x.groups)
    (j : Fin T) (hj : j.val = 0) :
    t.vectorOfVectors = s.vectorOfVectors ++ (update s.pc i y j).groups := by
  refine (h.vectorOfVectors j hj).trans ?_
  by_cases hji : j = i
  · rw [hji, update_self, hgroups, hat]
  · rw [update_of_ne hji]

/-- One worker moves and the rest stays, in both machines. -/
theorem goto (h : Abstracts s t) (hat : s.pc i = x) (hpc : s'.pc = update s.pc i y)
    (hdata : s'.data = s.data) (hdue : y.due = x.due) : Abstracts s' (t.goto i y.job) := by
  simp only [Shared.data, Prod.mk.injEq] at hdata
  obtain ⟨hprogress, hdone, hσ, hfinished, hnum, hvectors, hsem, hout⟩ := hdata
  simp only [Point.due, Prod.mk.injEq] at hdue
  obtain ⟨howes, hposts, hgroups, hreduces⟩ := hdue
  refine h.of_update hat hpc rfl ?_ (h.doneMap.trans hdone.symm) (fun τ => ?_)
    (h.finishedShuffle.trans hfinished.symm) (h.numOfPairs.trans hnum.symm) (fun j hj => ?_) ?_ ?_
    (h.outputVec.trans hout.symm)
  · rw [hprogress, howes]
    rfl
  · rw [hσ, ← h.begun]
    cases τ <;> rfl
  · rw [hvectors]
    exact h.vectors_update hat hgroups j hj
  · rw [hsem, hposts]
    rfl
  · exact h.mutexReduce.keep (by rw [hreduces, hat])

end Abstracts

/-! ## Each statement -/

/-- The machine of sections answers a statement: with no step or with one. -/
def Answers (client : Client Input K V Out) (input : List Input) (s' : Shared T (K × V) Out)
    (t : JobContext T (K × V) Out) : Prop :=
  ∃ t', (t' = t ∨ ∃ label, jobStep client input label t = some t') ∧ Abstracts s' t'

section steps

variable {i : Fin T} {pick : ℕ} {s s' : Shared T (K × V) Out} {t t' : JobContext T (K × V) Out}
  {x y : Point (K × V)}

/-- A statement inside a section. -/
theorem Abstracts.stutter (h : Abstracts s t) (hat : s.pc i = x) (hpc : s'.pc = update s.pc i y)
    (hdata : s'.data = s.data) (hdue : y.due = x.due) (hjob : y.job = x.job) :
    Answers client input s' t := by
  have hgoto : t.goto i y.job = t := by
    rw [hjob, ← hat, ← h.pc, JobContext.goto, update_eq_self]
  exact ⟨t, .inl rfl, hgoto ▸ h.goto hat hpc hdata hdue⟩

/-- A section that only takes the worker further. -/
theorem Abstracts.moves (h : Abstracts s t) (pick : ℕ) (hat : s.pc i = x)
    (hpc : s'.pc = update s.pc i y)
    (hdata : s'.data = s.data) (hdue : y.due = x.due)
    (hstep : jobStep client input (i, pick) t = some (t.goto i y.job)) :
    Answers client input s' t :=
  ⟨_, .inr ⟨_, hstep⟩, h.goto hat hpc hdata hdue⟩

/-! ### In `set_atomic` -/

/-- What a store leaves. -/
structure Stored (call : SetCall P) (value : ℕ) (t t' : JobContext T P Out) : Prop where
  pc : t'.pc = t.pc
  progress : t'.progress = packed call.stage value
  doneMap : t'.doneMap = t.doneMap
  begun : ∀ τ, isBegun t' τ = (isBegun t τ || decide (τ = call.stage))
  finishedShuffle : t'.finishedShuffle = t.finishedShuffle
  numOfPairs : t'.numOfPairs = t.numOfPairs
  vectorOfVectors : t'.vectorOfVectors = t.vectorOfVectors
  sem : t'.sem = t.sem
  mutexReduce : t'.mutexReduce = t.mutexReduce
  outputVec : t'.outputVec = t.outputVec

theorem setAtomic_of_begun {call : SetCall (K × V)} {value : ℕ}
    (h : isBegun t call.stage = true) : setAtomic call.stage value t = t := by
  cases call <;> exact if_pos h

theorem stored_of_not_begun {call : SetCall (K × V)} {value : ℕ}
    (h : isBegun t call.stage = false) : Stored call value t (setAtomic call.stage value t) := by
  have hnot : ¬ isBegun t call.stage = true := ne_true_of_eq_false h
  cases call
  all_goals
    simp only [SetCall.stage, isBegun] at hnot
    rw [SetCall.stage, setAtomic, if_neg hnot]
    exact ⟨rfl, rfl, rfl, fun τ => by cases τ <;> simp [isBegun, SetCall.stage], rfl, rfl, rfl,
      rfl, rfl, rfl⟩

/-- The section of `Mutex_set_atomic`. -/
theorem jobStep_setAtomic (client : Client Input K V Out) (pick : ℕ)
    {call : SetCall (K × V)} {value : ℕ}
    (hpc : t.pc i = (Point.setAtomic call value .lock).job)
    (hvalue : (Point.setAtomic call value .lock).Knows input.length t.numOfPairs
      (jobDone t.progress)) :
    jobStep client input (i, pick) t =
      some ((setAtomic call.stage value t).goto i call.next.job) := by
  cases call with
  | map | reduce | shuffle =>
      cases hvalue
      simp only [Point.job] at hpc
      simp only [jobStep, hpc, MapReduce.mapStep, MapReduce.shuffleStep, MapReduce.reduceStep]
      rfl

/-- Nobody has to add anything when a stage begins. -/
theorem owes_of_store (hstage : InStage s) {call : SetCall (K × V)} {value : ℕ}
    (hpc : s.pc i = .setAtomic call value .store) (j : Fin T) : (s.pc j).owes = 0 := by
  have hσ := hstage.during i
  rw [hpc] at hσ
  have hj := hstage.during j
  rw [hσ.2] at hj
  cases call with
  | map => exact Point.owes_eq_zero hj (.inl nofun) nofun
  | shuffle => exact Point.owes_eq_zero hj (.inl nofun) nofun
  | reduce =>
      have hphase := hstage.phased.barrierReduce i j (by rw [hpc]; exact le_rfl)
      exact Point.owes_eq_zero hj (.inr (by omega)) nofun

theorem Abstracts.setStep (h : Abstracts s t) (hstage : InStage s) (hinformed : Informed input s)
    {call : SetCall (K × V)} {value : ℕ} {point : SetPoint}
    (hpc : s.pc i = .setAtomic call value point)
    (hstep : setStep i call value s point = some s') : Answers client input s' t := by
  have hknows := hinformed.knows i
  rw [hpc, ← h.numOfPairs, SetCall.knows_setAtomic point .lock] at hknows
  have hvalue : (Point.setAtomic call value .lock).Knows input.length t.numOfPairs
      (jobDone t.progress) := hknows.of_done rfl
  have hti := h.pc i
  rw [hpc] at hti
  cases point with
  | lock =>
      obtain ⟨-, rfl⟩ := setStep_lock_iff.mp hstep
      exact h.stutter hpc rfl rfl rfl
        (by cases call <;> rfl)
  | read =>
      cases hstep
      by_cases hset : s.isSet call.stage = true
      · -- the stage has begun
        have hbegun : isBegun t call.stage = true := by
          rw [h.begun]
          exact decide_eq_true (hstage.begun _ hset)
        have hjob : t.pc i = (Point.setAtomic call value .lock).job := by
          rw [hti]
          cases call <;> rfl
        have hstep := jobStep_setAtomic client 0 hjob hvalue
        rw [setAtomic_of_begun hbegun] at hstep
        have hnext : call.next.job = (Point.setAtomic call value .unlock).job := by
          cases call <;> rfl
        rw [if_pos hset]
        exact h.moves 0 hpc rfl rfl rfl
          (hnext ▸ hstep)
      · rw [if_neg hset]
        exact h.stutter hpc rfl rfl rfl
          (by cases call <;> rfl)
  | store =>
      cases hstep
      have hσ := hstage.during i
      rw [hpc] at hσ
      have hval := call.val_stage
      have hbegun : isBegun t call.stage = false := by
        rw [h.begun, hσ.2]
        exact decide_eq_false (by omega)
      have hjob : t.pc i = (Point.setAtomic call value .lock).job := by
        rw [hti]
        cases call <;> rfl
      have hstored : Stored call value t _ := stored_of_not_begun hbegun
      have hprogress : t.progress = s.progress := by
        rw [h.progress, Finset.sum_eq_zero fun j _ => owes_of_store hstage hpc j]
        simp
      refine ⟨_, .inr ⟨(i, 0), jobStep_setAtomic client 0 hjob hvalue⟩, ?_⟩
      refine h.of_update hpc rfl ?_ ?_ (hstored.doneMap.trans h.doneMap) (fun τ => ?_)
        (hstored.finishedShuffle.trans h.finishedShuffle)
        (hstored.numOfPairs.trans h.numOfPairs) (fun j hj => ?_) ?_ ?_
        (hstored.outputVec.trans h.outputVec)
      · rw [JobContext.goto, hstored.pc]
        cases call <;> rfl
      · change (setAtomic call.stage value t).progress + s.progress + _ =
          t.progress + packed call.stage value + _
        rw [hstored.progress, hprogress, add_comm (packed _ _)]
        rfl
      · refine (hstored.begun τ).trans ?_
        rw [h.begun, hσ.2]
        change _ = decide (τ.val ≤ call.stage.val)
        by_cases hτ : τ = call.stage
        · simp [hτ]
        · have hne : τ.val ≠ call.stage.val := fun he => hτ (Stage.val_injective he)
          have hiff : τ.val ≤ call.before.val ↔ τ.val ≤ call.stage.val := by omega
          simp [hτ, hiff]
      · exact hstored.vectorOfVectors.trans
          (h.vectors_update (y := .setAtomic call value .flag) hpc rfl j hj)
      · change (setAtomic call.stage value t).sem + s.sem + _ = t.sem + s.sem + _
        rw [hstored.sem]
        rfl
      · change Owned _ _ (setAtomic call.stage value t).mutexReduce
        rw [hstored.mutexReduce]
        exact h.mutexReduce.keep (by rw [hpc]; rfl)
  | flag =>
      cases hstep
      have hdata : (s.markSet call.stage).data = s.data := by
        cases call <;> rfl
      exact h.stutter hpc (congrArg (update · i _) (s.markSet_pc _)) hdata rfl
        (by cases call <;> rfl)
  | unlock =>
      cases hstep
      cases call <;> exact h.stutter hpc rfl rfl rfl rfl

/-! ### In the map phase -/

/-- While some worker is before the first barrier, or past the second, nobody shuffles. -/
theorem phase_ne_two (hstage : InStage s) (hphase : (s.pc i).phase = 0 ∨ (s.pc i).phase = 4)
    (j : Fin T) : (s.pc j).phase ≠ 2 := by
  intro hj
  rcases hphase with hi | hi
  · have := hstage.phased.barrier j i (by omega)
    omega
  · have := hstage.phased.barrierReduce i j (by omega)
    omega

/-- Then nobody gets a group to store. -/
theorem groups_update (hstage : InStage s) (hphase : (s.pc i).phase = 0 ∨ (s.pc i).phase = 4)
    {y : Point (K × V)} (hy : y.groups = []) (j : Fin T) : (update s.pc i y j).groups = [] := by
  by_cases hji : j = i
  · rw [hji, update_self, hy]
  · rw [update_of_ne hji]
    exact (Point.of_phase_ne_two (phase_ne_two hstage hphase j)).2

/-- And nothing is to be stored or posted. -/
theorem Abstracts.settled (h : Abstracts s t) (hstage : InStage s)
    (hphase : (s.pc i).phase = 0 ∨ (s.pc i).phase = 4) :
    t.vectorOfVectors = s.vectorOfVectors ∧ t.sem = s.sem := by
  constructor
  · have hmain := h.vectorOfVectors ⟨0, i.pos⟩ rfl
    rwa [(Point.of_phase_ne_two (phase_ne_two hstage hphase _)).2, List.append_nil] at hmain
  · rw [h.sem, Finset.sum_eq_zero fun j _ =>
      (Point.of_phase_ne_two (phase_ne_two hstage hphase j)).1, add_zero]

/-- In the map stage nobody has anything to add. -/
theorem Abstracts.progress_eq (h : Abstracts s t) (hstage : InStage s)
    (hσ : s.log.stage = .mapStage) : t.progress = s.progress := by
  have hzero : ∀ j, (s.pc j).owes = 0 := fun j =>
    Point.owes_eq_zero (hstage.during j) (.inl (by rw [hσ]; nofun)) (by rw [hσ]; nofun)
  rw [h.progress, Finset.sum_eq_zero fun j _ => hzero j]
  simp

theorem Abstracts.mapStep (h : Abstracts s t) (hstage : InStage s) (hinformed : Informed input s)
    (hstep : mapStep client input i s = some s') : Answers client input s' t := by
  have hti := h.pc i
  have hknows := hinformed.knows i
  have hσ := hstage.during i
  cases mapStep_cases hstep with
  | leave hpc hdone =>
      rw [hpc] at hti
      refine h.moves 0 hpc rfl rfl rfl ?_
      simp only [jobStep, hti, Point.job, MapReduce.mapStep, h.doneMap, hdone, if_true]
  | enter hpc hdone =>
      rw [hpc] at hti
      refine h.moves 0 hpc rfl rfl rfl ?_
      simp only [jobStep, hti, Point.job, MapReduce.mapStep, h.doneMap, hdone, Bool.false_eq_true,
        if_false]
  | @done vecs hpc =>
      -- the section that finds all indices drawn
      rw [hpc] at hti hknows hσ
      have hall : jobDone t.progress + 1 > input.length := by
        rw [h.progress_eq hstage hσ]
        exact hknows
      have hjob : jobStep client input (i, 0) t =
          some ({ t with doneMap := true }.goto i (.sort vecs)) := by
        simp only [jobStep, hti, Point.job, MapReduce.mapStep, if_pos hall]
      refine ⟨_, .inr ⟨_, hjob⟩, ?_⟩
      exact h.of_update (y := .mapBreak vecs) hpc rfl rfl rfl rfl h.begun h.finishedShuffle
        h.numOfPairs (h.vectors_update hpc rfl) rfl (h.mutexReduce.keep (by rw [hpc]; rfl))
        h.outputVec
  | @claim vecs hpc =>
      -- the section that draws an index
      rw [hpc] at hti hknows hσ
      have heq := h.progress_eq hstage hσ
      have hnot : ¬ jobDone t.progress + 1 > input.length := by
        rw [heq]
        exact not_lt.mpr hknows
      have hjob : jobStep client input (i, 0) t =
          some ({ t with progress := t.progress + 1 }.goto i
            (.mapCall vecs (jobDone t.progress))) := by
        simp only [jobStep, hti, Point.job, MapReduce.mapStep, if_neg hnot]
      refine ⟨_, .inr ⟨_, hjob⟩, ?_⟩
      refine h.of_update (y := .mapUnlock vecs (jobDone s.progress)) hpc rfl ?_ ?_ h.doneMap
        h.begun h.finishedShuffle h.numOfPairs (h.vectors_update hpc rfl) rfl
        (h.mutexReduce.keep (by rw [hpc]; rfl)) h.outputVec
      · rw [heq]
        rfl
      · change t.progress + 1 + s.progress + _ = t.progress + (s.progress + 1) + _
        rw [add_assoc t.progress, add_comm 1]
        rfl
  | outOfRange hpc hnone =>
      rw [hpc] at hti
      refine h.moves 0 hpc rfl rfl rfl ?_
      simp only [jobStep, hti, Point.job, MapReduce.mapStep, hnone]
  | call hpc hpair =>
      rw [hpc] at hti
      refine h.moves 0 hpc rfl rfl rfl ?_
      simp only [jobStep, hti, Point.job, MapReduce.mapStep, hpair]
  | _ hpc => exact h.stutter hpc rfl rfl rfl rfl

theorem Abstracts.sortStep (h : Abstracts s t) (hstage : InStage s)
    (hstep : sortStep i s = some s') : Answers client input s' t := by
  have hti := h.pc i
  cases sortStep_cases hstep with
  | finish hpc =>
      rw [hpc] at hti
      refine h.moves 0 hpc rfl rfl rfl ?_
      simp only [jobStep, hti, Point.job, MapReduce.mapStep]
  | @push vec vecs hpc =>
      -- the section of `Mutex_sort`
      rw [hpc] at hti
      have hphase : (s.pc i).phase = 0 ∨ (s.pc i).phase = 4 := .inl (by rw [hpc]; rfl)
      have hjob : jobStep client input (i, 0) t =
          some ({ t with vectorOfVectors := t.vectorOfVectors ++ [vec] }.goto i (.sort vecs)) := by
        simp only [jobStep, hti, Point.job, MapReduce.mapStep]
      refine ⟨_, .inr ⟨_, hjob⟩, ?_⟩
      refine h.of_update (y := .sortUnlock vecs) hpc rfl rfl rfl h.doneMap h.begun
        h.finishedShuffle h.numOfPairs (fun j hj => ?_) rfl
        (h.mutexReduce.keep (by rw [hpc]; rfl)) h.outputVec
      change t.vectorOfVectors ++ [vec] = s.vectorOfVectors ++ [vec] ++ _
      rw [groups_update hstage hphase rfl, List.append_nil, (h.settled hstage hphase).1]
  | lock hpc | unlock hpc => exact h.stutter hpc rfl rfl rfl rfl

/-! ### In the shuffle phase -/

/-- A statement of the main worker inside a round, which adds what has been owed. -/
theorem Abstracts.pays (h : Abstracts s t) (hat : s.pc i = x) (hpc : s'.pc = update s.pc i y)
    (hmain : i.val = 0) (hjob : y.job = x.job)
    (hprogress : s.progress + BitVec.ofNat 64 x.owes = s'.progress + BitVec.ofNat 64 y.owes)
    (hvectors : s'.vectorOfVectors ++ y.groups = s.vectorOfVectors ++ x.groups)
    (hsem : s'.sem + y.posts = s.sem + x.posts) (hreduces : y.reduces = x.reduces)
    (hdata : { s' with
      progress := s.progress
      vectorOfVectors := s.vectorOfVectors
      sem := s.sem }.data = s.data) : Answers client input s' t := by
  simp only [Shared.data, Prod.mk.injEq] at hdata
  obtain ⟨-, hdone, hσ, hfinished, hnum, -, -, hout⟩ := hdata
  refine ⟨t, .inl rfl, ?_⟩
  refine h.of_update hat hpc ?_ ?_ (h.doneMap.trans hdone.symm) (fun τ => ?_)
    (h.finishedShuffle.trans hfinished.symm) (h.numOfPairs.trans hnum.symm) (fun j hj => ?_) ?_ ?_
    (h.outputVec.trans hout.symm)
  · rw [hjob, ← hat, ← h.pc, update_eq_self]
  · rw [add_assoc, hprogress, add_assoc]
  · rw [hσ]
    exact h.begun τ
  · have hji : j = i := Fin.ext (hj.trans hmain.symm)
    have hold := h.vectorOfVectors i hmain
    rw [hat] at hold
    rw [hji, update_self, hvectors, hold]
  · omega
  · exact h.mutexReduce.keep (by rw [hreduces, hat])

theorem Abstracts.shuffleStep (h : Abstracts s t) (hstage : InStage s)
    (hstep : shuffleStep client i pick s = some s') : Answers client input s' t := by
  have hti := h.pc i
  have hσ := hstage.during i
  have hvec := h.vectorOfVectors i
  have hme : i.val = 0 → ∀ j : Fin T, j.val = 0 → j = i :=
    fun hi j hj => Fin.ext (hj.trans hi.symm)
  have hround : ∀ {allPairs lastPair thisPair savingAllPairs},
      s.pc i = .shuffleLoop allPairs lastPair savingAllPairs → ¬ allPairs.isEmpty = true →
      client.top allPairs pick = some thisPair → jobStep client input (i, pick) t =
        some (shuffleRound client i pick allPairs lastPair thisPair savingAllPairs t) := by
    intro allPairs lastPair thisPair savingAllPairs hpc hempty htop
    rw [hpc] at hti
    simp only [jobStep, hti, Point.job, MapReduce.shuffleStep, if_neg hempty, htop, Option.map_some]
  have heq : (s.pc i).groups = [] → i.val = 0 → t.vectorOfVectors = s.vectorOfVectors := by
    intro hgroups hi
    rw [hvec hi, hgroups, List.append_nil]
  cases shuffleStep_cases hstep with
  | collect hpc =>
      have heq := heq (by rw [hpc]; rfl)
      rw [hpc] at hti hσ
      have hjob : jobStep client input (i, pick) t =
          some ({ t with
            numOfPairs := t.numOfPairs + (t.vectorOfVectors.map List.length).sum }.goto i
              (.shuffleSet t.vectorOfVectors.flatten)) := by
        simp only [jobStep, hti, Point.job, MapReduce.shuffleStep]
      refine ⟨_, .inr ⟨_, hjob⟩, ?_⟩
      refine h.of_update (y := .setAtomic (.shuffle s.vectorOfVectors.flatten) _ .lock) hpc rfl ?_
        rfl h.doneMap h.begun h.finishedShuffle ?_ (h.vectors_update hpc rfl) rfl
        (h.mutexReduce.keep (by rw [hpc]; rfl)) h.outputVec
      · rw [heq hσ.1]
        rfl
      · change t.numOfPairs + _ = s.numOfPairs + _
        rw [heq hσ.1, h.numOfPairs]
  | noTop hpc hempty =>
      rw [hpc] at hti hσ
      have hjob : jobStep client input (i, pick) t =
          some ({ t with vectorOfVectors := [] }.goto i .undefined) := by
        simp only [jobStep, hti, Point.job, MapReduce.shuffleStep, if_pos hempty]
      refine ⟨_, .inr ⟨_, hjob⟩, ?_⟩
      refine h.of_update (y := .noTop) hpc rfl rfl rfl h.doneMap h.begun h.finishedShuffle
        h.numOfPairs (fun j hj => ?_) rfl (h.mutexReduce.keep (by rw [hpc]; rfl)) h.outputVec
      rw [hme hσ.1 j hj, update_self]
      rfl
  | @top allPairs lastPair hpc hempty htop =>
      rw [hpc] at hti hσ
      have hjob : jobStep client input (i, pick) t =
          some ({ t with vectorOfVectors := [] }.goto i (.shuffleLoop allPairs lastPair [])) := by
        simp only [jobStep, hti, Point.job, MapReduce.shuffleStep, if_neg hempty, htop,
          Option.map_some]
      refine ⟨_, .inr ⟨_, hjob⟩, ?_⟩
      refine h.of_update (y := .shuffleLoop allPairs lastPair []) hpc rfl rfl rfl h.doneMap h.begun
        h.finishedShuffle h.numOfPairs (fun j hj => ?_) rfl
        (h.mutexReduce.keep (by rw [hpc]; rfl)) h.outputVec
      rw [hme hσ.1 j hj, update_self]
      rfl
  | finish hpc hempty =>
      rw [hpc] at hti
      have hjob : jobStep client input (i, pick) t =
          some ({ t with finishedShuffle := true }.goto i .barrierReduce) := by
        simp only [jobStep, hti, Point.job, MapReduce.shuffleStep, if_pos hempty]
      refine ⟨_, .inr ⟨_, hjob⟩, ?_⟩
      exact h.of_update (y := .barrierReduce) hpc rfl rfl rfl h.doneMap h.begun rfl h.numOfPairs
        (h.vectors_update hpc rfl) rfl (h.mutexReduce.keep (by rw [hpc]; rfl)) h.outputVec
  | @take allPairs lastPair thisPair savingAllPairs hpc hempty htop hkeys =>
      -- the pair is of the group
      have heq := heq (by rw [hpc]; rfl)
      refine ⟨_, .inr ⟨_, hround hpc hempty htop⟩, ?_⟩
      rw [hpc] at hσ
      unfold shuffleRound
      rw [if_pos hkeys]
      dsimp only
      by_cases hlast : (allPairs.eraseIdx pick).isEmpty = true
      · rw [if_pos hlast]
        refine h.of_update (y := .shuffleCount _ _ _ _) hpc rfl ?_ ?_ h.doneMap h.begun
          h.finishedShuffle h.numOfPairs (fun j hj => ?_) ?_
          (h.mutexReduce.keep (by rw [hpc]; rfl)) h.outputVec
        · rw [Point.job, if_pos hlast]
          rfl
        · change t.progress + 1 + s.progress + 0 = t.progress + s.progress + 1
          ring
        · rw [hme hσ.1 j hj, update_self, Point.groups, if_pos hlast]
          change t.vectorOfVectors ++ _ = s.vectorOfVectors ++ _
          rw [heq hσ.1]
        · change t.sem + 1 + s.sem + 0 = t.sem + s.sem + (if _ then 1 else 0)
          rw [if_pos hlast]
          omega
      · rw [if_neg hlast]
        refine h.of_update (y := .shuffleCount _ _ _ _) hpc rfl ?_ ?_ h.doneMap h.begun
          h.finishedShuffle h.numOfPairs (fun j hj => ?_) ?_
          (h.mutexReduce.keep (by rw [hpc]; rfl)) h.outputVec
        · rw [Point.job, if_neg hlast]
          rfl
        · change t.progress + 1 + s.progress + 0 = t.progress + s.progress + 1
          ring
        · rw [hme hσ.1 j hj, update_self, Point.groups, if_neg hlast]
          change t.vectorOfVectors = s.vectorOfVectors ++ _
          rw [heq hσ.1, List.append_nil]
        · change t.sem + s.sem + 0 = t.sem + s.sem + (if _ then 1 else 0)
          rw [if_neg hlast]
  | @cut allPairs lastPair thisPair savingAllPairs hpc hempty htop hkeys =>
      -- the group is finished
      have heq := heq (by rw [hpc]; rfl)
      refine ⟨_, .inr ⟨_, hround hpc hempty htop⟩, ?_⟩
      rw [hpc] at hσ
      unfold shuffleRound
      rw [if_neg hkeys]
      refine h.of_update (y := .shufflePush allPairs thisPair savingAllPairs) hpc rfl rfl rfl
        h.doneMap h.begun h.finishedShuffle h.numOfPairs (fun j hj => ?_) ?_
        (h.mutexReduce.keep (by rw [hpc]; rfl)) h.outputVec
      · rw [hme hσ.1 j hj, update_self]
        change t.vectorOfVectors ++ _ = s.vectorOfVectors ++ _
        rw [heq hσ.1]
        rfl
      · change t.sem + 1 + s.sem + 0 = t.sem + s.sem + 1
        omega
  | countLast hpc hlast =>
      rw [hpc] at hσ
      refine h.pays hpc rfl hσ.1 (if_pos hlast).symm (add_zero (s.progress + 1)).symm ?_ ?_ rfl rfl
      · rw [Point.groups, if_pos hlast]
        rfl
      · rw [Point.posts, if_pos hlast]
        rfl
  | count hpc hlast =>
      rw [hpc] at hσ
      refine h.pays hpc rfl hσ.1 (if_neg hlast).symm (add_zero (s.progress + 1)).symm ?_ ?_ rfl rfl
      · rw [Point.groups, if_neg hlast]
        rfl
      · rw [Point.posts, if_neg hlast]
        rfl
  | push hpc =>
      rw [hpc] at hσ
      exact h.pays hpc rfl hσ.1 rfl rfl (List.append_nil _) rfl rfl rfl
  | post hpc =>
      rw [hpc] at hσ
      exact h.pays hpc rfl hσ.1 rfl rfl rfl rfl rfl rfl

/-! ### In the reduce phase -/

theorem Abstracts.reduceStep (h : Abstracts s t) (hstage : InStage s) (hinformed : Informed input s)
    (hstep : reduceStep client i s = some s') : Answers client input s' t := by
  have hti := h.pc i
  have hphase : ∀ {x : Point (K × V)}, s.pc i = x → x.phase = 4 →
      (s.pc i).phase = 0 ∨ (s.pc i).phase = 4 := by
    intro x hpc hx
    exact .inr (hpc ▸ hx)
  -- the others do not hold `Mutex_reduce`
  have hreduces : ∀ j, (s.pc j).reduces = true → (s.pc j).holdsReduce = true := by
    intro j hj
    generalize s.pc j = x at hj
    cases x with
    | reducing => rfl
    | _ => cases hj
  -- at the section, the mutex of the job is free as well
  have hfree : s.pc i = .reduceTake → t.mutexReduce = none := by
    intro hpc
    rw [Option.eq_none_iff_forall_ne_some]
    intro j hj
    have hred := (h.mutexReduce j).mp hj
    have hji := hinformed.mutexReduce.unique (hreduces j hred) (by rw [hpc]; rfl : _ = true)
    rw [hji, hpc] at hred
    cases hred
  cases reduceStep_cases hstep with
  | begin hpc hfinished =>
      rw [hpc] at hti
      refine h.moves 0 hpc rfl rfl rfl ?_
      simp only [jobStep, hti, Point.job, MapReduce.reduceStep, h.finishedShuffle, hfinished,
        if_true]
  | skip hpc hfinished =>
      rw [hpc] at hti
      refine h.moves 0 hpc rfl rfl rfl ?_
      simp only [jobStep, hti, Point.job, MapReduce.reduceStep, h.finishedShuffle, hfinished,
        Bool.false_eq_true, if_false]
  | testEmpty hpc hempty | retestEmpty hpc hempty =>
      have heq := (h.settled hstage (hphase hpc rfl)).1
      rw [hpc] at hti
      refine h.moves 0 hpc rfl rfl rfl ?_
      simp only [jobStep, hti, Point.job, MapReduce.reduceStep, heq, hempty, if_true]
  | test hpc hempty | retest hpc hempty =>
      have heq := (h.settled hstage (hphase hpc rfl)).1
      rw [hpc] at hti
      refine h.moves 0 hpc rfl rfl rfl ?_
      simp only [jobStep, hti, Point.job, MapReduce.reduceStep, heq, hempty, Bool.false_eq_true,
        if_false]
  | wait hpc hsem =>
      have heq := (h.settled hstage (hphase hpc rfl)).2
      rw [hpc] at hti
      have hjob : jobStep client input (i, 0) t =
          some ({ t with sem := t.sem - 1, waited := t.waited + 1 }.goto i .reduceRetest) := by
        simp only [jobStep, hti, Point.job, MapReduce.reduceStep, heq, if_neg hsem]
      refine ⟨_, .inr ⟨_, hjob⟩, ?_⟩
      refine h.of_update (y := .reduceRetest) hpc rfl rfl rfl h.doneMap h.begun h.finishedShuffle
        h.numOfPairs (h.vectors_update hpc rfl) ?_ (h.mutexReduce.keep (by rw [hpc]; rfl))
        h.outputVec
      change t.sem - 1 + s.sem + 0 = t.sem + (s.sem - 1) + 0
      omega
  | noFront hpc hnil =>
      have heq := (h.settled hstage (hphase hpc rfl)).1
      have hfree := hfree hpc
      rw [hpc] at hti
      rw [hnil] at heq
      refine h.moves 0 hpc rfl rfl rfl ?_
      simp only [jobStep, hti, Point.job, MapReduce.reduceStep, hfree, heq, if_true]
  | @take elementReduce rest hpc hcons =>
      -- the section takes the mutex and the group
      have heq := (h.settled hstage (hphase hpc rfl)).1
      have hfree := hfree hpc
      rw [hpc] at hti
      rw [hcons] at heq
      have hjob : jobStep client input (i, 0) t =
          some ({ t with mutexReduce := some i, vectorOfVectors := rest }.goto i
            (.reducing elementReduce)) := by
        simp only [jobStep, hti, Point.job, MapReduce.reduceStep, hfree, heq, if_true]
      refine ⟨_, .inr ⟨_, hjob⟩, ?_⟩
      have howned := h.mutexReduce
      rw [hfree] at howned
      refine h.of_update (y := .reducing elementReduce) hpc rfl rfl rfl h.doneMap h.begun
        h.finishedShuffle h.numOfPairs (fun j hj => ?_) rfl (howned.acquire rfl) h.outputVec
      rw [groups_update hstage (hphase hpc rfl) rfl, List.append_nil]
      rfl
  | @reduce elementReduce hpc =>
      -- what is left of the section only adds to `progress`
      rw [hpc] at hti
      have hjob : jobStep client input (i, 0) t =
          some ({ t with
            outputVec := t.outputVec ++ client.reduce elementReduce
            progress := t.progress + BitVec.ofNat 64 elementReduce.length
            mutexReduce := none
            reduced := t.reduced ++ [elementReduce] }.goto i .reduceTest) := by
        simp only [jobStep, hti, Point.job, MapReduce.reduceStep]
      refine ⟨_, .inr ⟨_, hjob⟩, ?_⟩
      refine h.of_update (y := .reduceCount elementReduce) hpc rfl rfl ?_ h.doneMap h.begun
        h.finishedShuffle h.numOfPairs (h.vectors_update hpc rfl) rfl
        (h.mutexReduce.release (by rw [hpc]; rfl) rfl) ?_
      · change t.progress + BitVec.ofNat 64 elementReduce.length + s.progress + 0 =
          t.progress + s.progress + BitVec.ofNat 64 elementReduce.length
        ring
      · change t.outputVec ++ _ = s.outputVec ++ _
        rw [h.outputVec]
  | @count elementReduce hpc =>
      refine ⟨t, .inl rfl, ?_⟩
      refine h.of_update (y := .reduceUnlock) hpc rfl ?_ ?_ h.doneMap h.begun h.finishedShuffle
        h.numOfPairs (h.vectors_update hpc rfl) rfl (h.mutexReduce.keep (by rw [hpc]; rfl))
        h.outputVec
      · rw [hpc] at hti
        exact (update_eq_self i t.pc).symm.trans (congrArg (update t.pc i) hti)
      · change t.progress + s.progress + BitVec.ofNat 64 elementReduce.length =
          t.progress + (s.progress + BitVec.ofNat 64 elementReduce.length) + 0
        ring
  | post hpc =>
      rw [hpc] at hti
      have hjob : jobStep client input (i, 0) t =
          some ({ t with sem := t.sem + 1 }.goto i .returned) := by
        simp only [jobStep, hti, Point.job, MapReduce.reduceStep]
      refine ⟨_, .inr ⟨_, hjob⟩, ?_⟩
      refine h.of_update (y := .returned) hpc rfl rfl rfl h.doneMap h.begun h.finishedShuffle
        h.numOfPairs (h.vectors_update hpc rfl) ?_ (h.mutexReduce.keep (by rw [hpc]; rfl))
        h.outputVec
      change t.sem + 1 + s.sem + 0 = t.sem + (s.sem + 1) + 0
      omega
  | lock hpc | unlock hpc => exact h.stutter hpc rfl rfl rfl rfl

/-! ## Runs -/

/-- **Step rule.** Every statement is answered, as long as nothing undefined has happened. -/
theorem Abstracts.step (h : Abstracts s t) (hstage : InStage s) (hinformed : Informed input s)
    (hok : ∀ j, (s.pc j).broken = false) (hstep : step client input (i, pick) s = some s') :
    Answers client input s' t := by
  have hti := h.pc i
  rcases step_cases hstep with ⟨call, value, point, hpc, hs⟩ | hs | hs | ⟨hpc, hall, rfl⟩ | hs |
    ⟨hpc, hall, rfl⟩ | hs
  · exact h.setStep hstage hinformed hpc hs
  · exact h.mapStep hstage hinformed hs
  · exact h.sortStep hstage hs
  · have hall' : ∀ j, (t.pc j).reachedBarrier = true := by
      intro j
      rw [h.pc]
      exact Point.reachedBarrier_job (hall j) (hok j)
    rw [hpc] at hti
    by_cases hmain : i.val = 0
    · rw [if_pos hmain]
      refine h.moves 0 hpc rfl rfl rfl ?_
      simp only [jobStep, hti, Point.job, if_pos hall', if_pos hmain]
    · rw [if_neg hmain]
      refine h.moves 0 hpc rfl rfl rfl ?_
      simp only [jobStep, hti, Point.job, if_pos hall', if_neg hmain]
  · exact h.shuffleStep hstage hs
  · have hall' : ∀ j, (t.pc j).reachedBarrierReduce = true := by
      intro j
      rw [h.pc]
      exact Point.reachedBarrierReduce_job (hall j) (hok j)
    rw [hpc] at hti
    refine h.moves 0 hpc rfl rfl rfl ?_
    simp only [jobStep, hti, Point.job, if_pos hall']
  · exact h.reduceStep hstage hinformed hs

end steps

/-- The invariants of the statements, and what the sections lead to. -/
structure Refines (input : List Input) (s : Shared T P Out) (t : JobContext T P Out) : Prop where
  stage : InStage s
  informed : Informed input s
  abstracts : Abstracts s t

theorem informed_fresh : Informed input (freshShared input T out : Shared T P Out) where
  mutexMap _ := ⟨nofun, nofun⟩
  mutexReduce _ := ⟨nofun, nofun⟩
  knows _ := rfl

theorem abstracts_fresh :
    Abstracts (freshShared input T out : Shared T P Out) (freshJob T out) where
  pc _ := rfl
  progress := by simp [freshShared, freshJob, Point.owes]
  doneMap := rfl
  begun τ := by cases τ <;> rfl
  finishedShuffle := rfl
  numOfPairs := rfl
  vectorOfVectors _ _ := rfl
  sem := by simp [freshShared, freshJob, Point.posts]
  mutexReduce _ := ⟨nofun, nofun⟩
  outputVec := rfl

section jobs

variable {level : ℕ} {s : Shared (numOfThreads level input) (K × V) Out}

/-- **Every run of statements is a run of sections**, up to the first undefined thing. -/
theorem statements_refine : Machine.Simulation (statementJob client input level out)
    (fun s _ => ∀ j, (s.pc j).broken = false) (mapReduce client input level out)
    (Refines input) where
  init := by
    rintro _ rfl
    exact ⟨_, rfl, inStage_fresh, informed_fresh, abstracts_fresh⟩
  step := by
    rintro ⟨i, pick⟩ s s' t h hok hstep
    have hstage := h.stage.step hstep
    have hinformed := h.informed.step h.stage hstep
    obtain ⟨t', rfl | ⟨label, hlabel⟩, ht'⟩ := h.abstracts.step h.stage h.informed hok hstep
    · exact ⟨[], _, rfl, hstage, hinformed, ht'⟩
    · exact ⟨[label], t', (Machine.run_singleton _).mpr hlabel, hstage, hinformed, ht'⟩

variable [IsStrictWeakOrder K fun a b => client.lt a b = true]

/-- When there are pairs nothing undefined happens, so all runs are runs of sections. -/
theorem reachable_refines (hlt : input.length < 2 ^ 31) (hpairs : input.flatMap client.map ≠ [])
    (h : (statementJob client input level out).Reachable s) :
    (∀ j, (s.pc j).broken = false) ∧
      ∃ t, (mapReduce client input level out).Reachable t ∧ Refines input s t := by
  have hunbroken : ∀ {s}, (∃ t, (mapReduce client input level out).Reachable t ∧
      Refines input s t) → ∀ j, (s.pc j).broken = false := by
    rintro s ⟨t, ht, hr⟩ j
    have hdefined := (running_of_reachable hlt hpairs ht).defined j
    rw [hr.abstracts.pc] at hdefined
    generalize s.pc j = x at hdefined
    cases x with
    | outOfRange | noTop | noFront => exact absurd rfl hdefined
    | _ => rfl
  have hby : (statementJob client input level out).ReachableBy
      (fun s _ => ∀ j, (s.pc j).broken = false) s := by
    induction h with
    | init h => exact .init h
    | step _ _ hstep ih => exact ih.step (hunbroken (statements_refine.reachable ih)) hstep
  have hsim := statements_refine.reachable hby
  exact ⟨hunbroken hsim, hsim⟩

/-- **A job computes the sequential map-reduce** whatever the order of its statements: nothing
undefined happens, and once all workers have returned, the output vector has been extended by the
outputs of the sequential map-reduce. -/
theorem statements_compute (hlevel : 1 ≤ level) (hinput : input ≠ [])
    (hlt : input.length < 2 ^ 31) (hpairs : input.flatMap client.map ≠ [])
    (hreduce : ∀ g g' : List (K × V), g.Perm g' → client.reduce g = client.reduce g')
    (h : (statementJob client input level out).Reachable s) :
    (∀ j, (s.pc j).broken = false) ∧
      ((∀ j, s.pc j = .returned) → s.outputVec = out ++ sequential client input) := by
  obtain ⟨hunbroken, t, ht, hr⟩ := reachable_refines hlt hpairs h
  refine ⟨hunbroken, fun hall => ?_⟩
  have hT : 0 < numOfThreads level input :=
    numOfThreads_eq hlt ▸ lt_min hlevel (List.length_pos_iff.mpr hinput)
  rw [← hr.abstracts.outputVec]
  refine output_of_returned (running_of_reachable hlt hpairs ht) hT hreduce fun j => ?_
  rw [hr.abstracts.pc, hall j]
  rfl

end jobs

end CoreOS.MapReduce.Statement
