import CoreOS.MapReduce.OwnBarriers

/-!
# Data races

Which accesses to shared data can come together in a job. `progress` is atomic, and the mutexes and
the semaphore are not data; the other shared fields are plain variables.

* `Var`, `Point.reads`, `Point.writes`: the plain variables, and what the next statement of a worker
  does with them. `step_blur` and `step_same`: that is all it does with them.
* `Guarded`: the mutexes and the barriers keep the workers apart.
* `races_iff`: two data races are left, that on `done_map` and that of the emptiness tests of
  `reduce_phase`. `program_races_iff`: **so it is in a job with its own barriers**, as long as no
  `pthread_cond_wait` comes back without a broadcast.
-/

namespace CoreOS.MapReduce.Statement

open CoreOS.Lib Function

variable {Input K V Out P : Type*} {T : ℕ} {client : Client Input K V Out} {input : List Input}
  {out : List Out} {i j : Fin T} {pick : ℕ} {x y : Point P} {v : Var}

/-! ## Accesses -/

/-- The plain variables of a job that are written after its threads have been created. -/
inductive Var
  | doneMap
  | setMap
  | setShuffle
  | setReduce
  | finishedShuffle
  | numOfPairs
  | vectorOfVectors
  | outputVec
  deriving DecidableEq

/-- The flag that a call of `set_atomic` tests and sets. -/
def SetCall.flag : SetCall P → Var
  | map => .setMap
  | shuffle _ => .setShuffle
  | reduce => .setReduce

/-- The next statement reads the variable. -/
def Point.reads : Point P → Var → Bool
  | mapTest _, .doneMap => true
  | setAtomic call _ .read, v => v = call.flag
  | shuffleCollect, .vectorOfVectors | shuffleCollect, .numOfPairs => true
  | shuffleTop _, .vectorOfVectors | sortPush _ _, .vectorOfVectors => true
  | shufflePush _ _ _, .vectorOfVectors => true
  | reduceFlag, .finishedShuffle | reduceFlag, .numOfPairs => true
  | reduceTest, .vectorOfVectors | reduceRetest, .vectorOfVectors => true
  | reduceTake, .vectorOfVectors => true
  | reducing _, .outputVec => true
  | _, _ => false

/-- The next statement writes the variable. -/
def Point.writes : Point P → Var → Bool
  | mapDone _, .doneMap => true
  | setAtomic call _ .flag, v => v = call.flag
  | shuffleCollect, .numOfPairs => true
  | shuffleTop _, .vectorOfVectors | sortPush _ _, .vectorOfVectors => true
  | shuffleLoop allPairs _ _, .finishedShuffle => allPairs.isEmpty
  | shufflePush _ _ _, .vectorOfVectors => true
  | reduceTake, .vectorOfVectors => true
  | reducing _, .outputVec => true
  | _, _ => false

/-- The next statement reads or writes the variable. -/
def Point.accesses (x : Point P) (v : Var) : Bool := x.reads v || x.writes v

/-- The state in which the variables that are not accessed at `x` have the values they have in
`u`. -/
def Shared.blur (s : Shared T P Out) (x : Point P) (u : Shared T P Out) : Shared T P Out := { s with
  doneMap := if x.accesses .doneMap then s.doneMap else u.doneMap
  setMap := if x.accesses .setMap then s.setMap else u.setMap
  setShuffle := if x.accesses .setShuffle then s.setShuffle else u.setShuffle
  setReduce := if x.accesses .setReduce then s.setReduce else u.setReduce
  finishedShuffle := if x.accesses .finishedShuffle then s.finishedShuffle else u.finishedShuffle
  numOfPairs := if x.accesses .numOfPairs then s.numOfPairs else u.numOfPairs
  vectorOfVectors := if x.accesses .vectorOfVectors then s.vectorOfVectors else u.vectorOfVectors
  outputVec := if x.accesses .outputVec then s.outputVec else u.outputVec }

/-- The variable has the value it had. -/
def Shared.Same (s s' : Shared T P Out) : Var → Prop
  | .doneMap => s'.doneMap = s.doneMap
  | .setMap => s'.setMap = s.setMap
  | .setShuffle => s'.setShuffle = s.setShuffle
  | .setReduce => s'.setReduce = s.setReduce
  | .finishedShuffle => s'.finishedShuffle = s.finishedShuffle
  | .numOfPairs => s'.numOfPairs = s.numOfPairs
  | .vectorOfVectors => s'.vectorOfVectors = s.vectorOfVectors
  | .outputVec => s'.outputVec = s.outputVec

section accesses

variable {s s' : Shared T (K × V) Out}

theorem setStep_blur {s s' : Shared T P Out} {call : SetCall P} {value : ℕ} {point : SetPoint}
    (hstep : setStep i call value s point = some s') (u : Shared T P Out) :
    setStep i call value (s.blur (.setAtomic call value point) u) point =
      some (s'.blur (.setAtomic call value point) u) := by
  cases point with
  | lock =>
      obtain ⟨hfree, rfl⟩ := setStep_lock_iff.mp hstep
      exact setStep_lock_iff.mpr ⟨hfree, rfl⟩
  | read =>
      cases hstep
      cases call <;> rfl
  | store | unlock =>
      cases hstep
      rfl
  | flag =>
      cases hstep
      cases call <;> rfl

/-- **A statement depends on what it accesses only**: whatever the other variables are, it is the
same step. -/
theorem step_blur (hstep : step client input (i, pick) s = some s') (u : Shared T (K × V) Out) :
    step client input (i, pick) (s.blur (s.pc i) u) = some (s'.blur (s.pc i) u) := by
  rcases step_cases hstep with ⟨call, value, point, hpc, hs⟩ | hs | hs | ⟨hpc, hall, rfl⟩ | hs |
    ⟨hpc, hall, rfl⟩ | hs
  · have hblur := setStep_blur hs u
    rw [hpc]
    unfold step
    dsimp only
    rw [show (s.blur (.setAtomic call value point) u).pc i = _ from hpc]
    exact hblur
  · clear hstep
    cases mapStep_cases hs <;> clear hs <;>
      simp [step, mapStep, Shared.blur, Shared.goto, Point.accesses, Point.reads, Point.writes, *]
  · clear hstep
    cases sortStep_cases hs <;> clear hs <;>
      simp [step, sortStep, Shared.blur, Shared.goto, Point.accesses, Point.reads, Point.writes, *]
  · simp [step, Shared.blur, Shared.goto, hpc, hall]
  · clear hstep
    cases shuffleStep_cases hs <;> clear hs <;>
      simp [step, shuffleStep, Shared.blur, Shared.goto, Point.accesses, Point.reads, Point.writes,
        *]
  · simp [step, Shared.blur, Shared.goto, hpc, hall]
  · clear hstep
    cases reduceStep_cases hs <;> clear hs <;>
      simp [step, reduceStep, Shared.blur, Shared.goto, Point.accesses, Point.reads, Point.writes,
        *]

theorem setStep_same {s s' : Shared T P Out} {call : SetCall P} {value : ℕ} {point : SetPoint}
    (hstep : setStep i call value s point = some s')
    (hv : (Point.setAtomic call value point).writes v = false) : s.Same s' v := by
  cases point with
  | lock =>
      obtain ⟨-, rfl⟩ := setStep_lock_iff.mp hstep
      cases v <;> rfl
  | read | store | unlock =>
      cases hstep
      cases v <;> rfl
  | flag =>
      cases hstep
      cases call <;> cases v <;> first | rfl | cases hv

/-- **A statement changes what it writes only.** -/
theorem step_same (hstep : step client input (i, pick) s = some s')
    (hv : (s.pc i).writes v = false) : s.Same s' v := by
  rcases step_cases hstep with ⟨call, value, point, hpc, hs⟩ | hs | hs | ⟨hpc, hall, rfl⟩ | hs |
    ⟨hpc, hall, rfl⟩ | hs
  · rw [hpc] at hv
    exact setStep_same hs hv
  · cases mapStep_cases hs with
    | _ hpc =>
        rw [hpc] at hv
        cases v <;> first | rfl | cases hv
  · cases sortStep_cases hs with
    | _ hpc =>
        rw [hpc] at hv
        cases v <;> first | rfl | cases hv
  · cases v <;> rfl
  · cases shuffleStep_cases hs with
    | finish hpc hempty =>
        rw [hpc] at hv
        cases v with
        | finishedShuffle =>
            rw [show (Point.shuffleLoop _ _ _ : Point (K × V)).writes .finishedShuffle = _ from
              hempty] at hv
            cases hv
        | _ => rfl
    | _ hpc =>
        rw [hpc] at hv
        cases v <;> first | rfl | cases hv
  · cases v <;> rfl
  · cases reduceStep_cases hs with
    | _ hpc =>
        rw [hpc] at hv
        cases v <;> first | rfl | cases hv

end accesses

/-! ## What keeps the workers apart -/

namespace Point

/-- The flags are accessed under `Mutex_set_atomic`. -/
theorem holdsSetAtomic_of_accesses {call : SetCall P} (h : x.accesses call.flag = true) :
    x.holdsSetAtomic = true := by
  cases x with
  | setAtomic call' value point =>
      cases point with
      | lock | store | unlock => cases call <;> cases call' <;> cases h
      | read | flag => rfl
  | _ => cases call <;> cases h

/-- The output is written under `Mutex_reduce`. -/
theorem holdsReduce_of_accesses (h : x.accesses .outputVec = true) : x.holdsReduce = true := by
  cases x with
  | setAtomic call value point => cases point <;> cases call <;> cases h
  | reducing => rfl
  | _ => cases h

/-- `done_map` is written under `Mutex_map`, and tested without. -/
theorem accesses_doneMap (h : x.accesses .doneMap = true) :
    (∃ vecs, x = mapTest vecs) ∨ ∃ vecs, x = mapDone vecs := by
  cases x with
  | setAtomic call value point => cases point <;> cases call <;> cases h
  | mapTest vecs => exact .inl ⟨vecs, rfl⟩
  | mapDone vecs => exact .inr ⟨vecs, rfl⟩
  | _ => cases h

/-- What the shuffle leaves behind is read after `barrier_reduce`. -/
theorem accesses_of_shuffle (hv : v = .finishedShuffle ∨ v = .numOfPairs)
    (h : x.accesses v = true) : x.phase = 2 ∨ x = reduceFlag := by
  rcases hv with rfl | rfl
  all_goals
    cases x with
    | setAtomic call value point => cases point <;> cases call <;> cases h
    | shuffleCollect | shuffleLoop => exact .inl rfl
    | reduceFlag => exact .inr rfl
    | _ => cases h

/-- The vectors are handed over under `Mutex_sort`, shuffled, and taken under `Mutex_reduce`, and
the emptiness tests of `reduce_phase` are made without. -/
theorem accesses_vectorOfVectors (h : x.accesses .vectorOfVectors = true) :
    (x.phase = 0 ∧ x.holdsSort = true) ∨ x.phase = 2 ∨ x = reduceTake ∨
      x = reduceTest ∨ x = reduceRetest := by
  cases x with
  | setAtomic call value point => cases point <;> cases call <;> cases h
  | sortPush => exact .inl ⟨rfl, rfl⟩
  | shuffleCollect | shuffleTop | shufflePush => exact .inr (.inl rfl)
  | reduceTake => exact .inr (.inr (.inl rfl))
  | reduceTest => exact .inr (.inr (.inr (.inl rfl)))
  | reduceRetest => exact .inr (.inr (.inr (.inr rfl)))
  | _ => cases h

end Point

/-- What is known of every state of every job. -/
structure Guarded (input : List Input) (s : Shared T P Out) : Prop where
  stage : InStage s
  informed : Informed input s
  mutexSort : Owned Point.holdsSort s.pc s.mutexSort

theorem guarded_of_reachable {s : Shared T (K × V) Out}
    (h : (statements client input T out).Reachable s) : Guarded input s := by
  refine h.invariant (P := Guarded input) ?_ ?_
  · rintro _ rfl
    exact ⟨inStage_fresh, informed_fresh, fun _ => ⟨nofun, nofun⟩⟩
  · rintro ⟨i, pick⟩ s s' hs hstep
    exact ⟨hs.stage.step hstep, hs.informed.step hs.stage hstep, mutexSort_step hs.mutexSort hstep⟩

namespace Guarded

variable {s : Shared T P Out} (h : Guarded input s)
include h

/-- Two workers in `shuffle_phase` are one. -/
theorem alone (hi : (s.pc i).phase = 2) (hj : (s.pc j).phase = 2) : i = j :=
  Fin.ext ((Point.main_of_during (h.stage.during i) hi).trans
    (Point.main_of_during (h.stage.during j) hj).symm)

/-- Between two barriers everybody is between the same two. -/
theorem phase_eq (hi : (s.pc i).phase = 0 ∨ (s.pc i).phase = 2 ∨ (s.pc i).phase = 4)
    (hj : (s.pc j).phase = 0 ∨ (s.pc j).phase = 2 ∨ (s.pc j).phase = 4) :
    (s.pc i).phase = (s.pc j).phase := by
  have hbarrier := h.stage.phased.barrier
  have hreduce := h.stage.phased.barrierReduce
  have h₁ := hbarrier i j
  have h₂ := hbarrier j i
  have h₃ := hreduce i j
  have h₄ := hreduce j i
  omega

end Guarded

/-! ## The races -/

/-- The next statement of `i` writes a variable that the next statement of `j` accesses. -/
def Shared.Races (s : Shared T P Out) (i j : Fin T) (v : Var) : Prop :=
  (s.pc i).writes v = true ∧ (s.pc j).accesses v = true

theorem Point.accesses_of_writes (h : x.writes v = true) : x.accesses v = true := by
  rw [accesses, h, Bool.or_true]

section races

variable {s : Shared T P Out} (h : Guarded input s) (hij : i ≠ j)
include h hij

/-- `done_map` is set under `Mutex_map`. -/
theorem Guarded.races_doneMap (hrace : s.Races i j .doneMap) :
    (∃ vecs, s.pc i = .mapDone vecs) ∧ ∃ vecs, s.pc j = .mapTest vecs := by
  obtain ⟨hi, hj⟩ := hrace
  rcases Point.accesses_doneMap (Point.accesses_of_writes hi) with ⟨vecs, hpc⟩ | ⟨vecs, hpc⟩
  · rw [hpc] at hi
    cases hi
  · rcases Point.accesses_doneMap hj with hpc' | ⟨vecs', hpc'⟩
    · exact ⟨⟨vecs, hpc⟩, hpc'⟩
    · exact absurd (h.informed.mutexMap.unique (by rw [hpc]; rfl) (by rw [hpc']; rfl)) hij

/-- What the main worker writes in the shuffle nobody else reads before `barrier_reduce`. -/
theorem Guarded.not_races_of_shuffle (hv : v = .finishedShuffle ∨ v = .numOfPairs) :
    ¬ s.Races i j v := by
  rintro ⟨hi, hj⟩
  have hi2 : (s.pc i).phase = 2 := by
    rcases Point.accesses_of_shuffle hv (Point.accesses_of_writes hi) with hphase | hpc
    · exact hphase
    · rw [hpc] at hi
      rcases hv with rfl | rfl <;> cases hi
  rcases Point.accesses_of_shuffle hv hj with hj2 | hpc
  · exact hij (h.alone hi2 hj2)
  · have hphase := h.phase_eq (.inr (.inl hi2)) (.inr (.inr (by rw [hpc]; rfl)))
    rw [hi2, hpc] at hphase
    cases hphase

/-- The vectors are in turn those of the map phase, of the shuffle and of the reduce phase. -/
theorem Guarded.races_vectorOfVectors (hrace : s.Races i j .vectorOfVectors) :
    s.pc i = .reduceTake ∧ (s.pc j = .reduceTest ∨ s.pc j = .reduceRetest) := by
  obtain ⟨hi, hj⟩ := hrace
  have hplace : ∀ k, (s.pc k).accesses .vectorOfVectors = true →
      (s.pc k).phase = 0 ∨ (s.pc k).phase = 2 ∨ (s.pc k).phase = 4 := by
    intro k hk
    rcases Point.accesses_vectorOfVectors hk with ⟨hphase, -⟩ | hphase | hpc | hpc | hpc
    · exact .inl hphase
    · exact .inr (.inl hphase)
    all_goals exact .inr (.inr (by rw [hpc]; rfl))
  have hacc := Point.accesses_of_writes hi
  have heq := h.phase_eq (hplace i hacc) (hplace j hj)
  rcases Point.accesses_vectorOfVectors hacc with ⟨hphase, hsort⟩ | hphase | hpc | hpc | hpc
  · rcases Point.accesses_vectorOfVectors hj with ⟨-, hsort'⟩ | hphase' | hpc' | hpc' | hpc'
    · exact absurd (h.mutexSort.unique hsort hsort') hij
    · omega
    all_goals
      rw [hphase, hpc'] at heq
      cases heq
  · exact absurd (h.alone hphase (heq ▸ hphase)) hij
  · rcases Point.accesses_vectorOfVectors hj with ⟨hphase', -⟩ | hphase' | hpc' | hpc' | hpc'
    · rw [hpc, hphase'] at heq
      cases heq
    · rw [hpc, hphase'] at heq
      cases heq
    · exact absurd (h.informed.mutexReduce.unique (by rw [hpc]; rfl) (by rw [hpc']; rfl)) hij
    · exact ⟨hpc, .inl hpc'⟩
    · exact ⟨hpc, .inr hpc'⟩
  all_goals
    rw [hpc] at hi
    cases hi

end races

/-- The data races of a job, with ideal barriers. -/
theorem races_iff {s : Shared T (K × V) Out} (hr : (statements client input T out).Reachable s)
    (hij : i ≠ j) : s.Races i j v ↔
      (v = .doneMap ∧ (∃ vecs, s.pc i = .mapDone vecs) ∧ ∃ vecs, s.pc j = .mapTest vecs) ∨
      (v = .vectorOfVectors ∧ s.pc i = .reduceTake ∧
        (s.pc j = .reduceTest ∨ s.pc j = .reduceRetest)) := by
  have h := guarded_of_reachable hr
  constructor
  · intro hrace
    have hflag : ∀ call : SetCall (K × V), v ≠ call.flag := by
      rintro call rfl
      exact hij (h.stage.owned.unique
        (Point.holdsSetAtomic_of_accesses (Point.accesses_of_writes hrace.1))
        (Point.holdsSetAtomic_of_accesses hrace.2))
    cases v with
    | doneMap => exact .inl ⟨rfl, h.races_doneMap hij hrace⟩
    | setMap => exact absurd rfl (hflag .map)
    | setShuffle => exact absurd rfl (hflag (.shuffle []))
    | setReduce => exact absurd rfl (hflag .reduce)
    | finishedShuffle => exact absurd hrace (h.not_races_of_shuffle hij (.inl rfl))
    | numOfPairs => exact absurd hrace (h.not_races_of_shuffle hij (.inr rfl))
    | vectorOfVectors => exact .inr ⟨rfl, h.races_vectorOfVectors hij hrace⟩
    | outputVec =>
        exact absurd (h.informed.mutexReduce.unique
          (Point.holdsReduce_of_accesses (Point.accesses_of_writes hrace.1))
          (Point.holdsReduce_of_accesses hrace.2)) hij
  · rintro (⟨rfl, ⟨vecs, hi⟩, vecs', hj⟩ | ⟨rfl, hi, hj | hj⟩)
    all_goals exact ⟨by rw [hi]; rfl, by rw [hj]; rfl⟩

section program

variable {level : ℕ} {p : Program (numOfThreads level input) (K × V) Out}
  {i j : Fin (numOfThreads level input)} {v : Var}

/-- **The data races of a job**: two workers are about to access one plain variable, one of them to
write it, exactly when one is about to set `done_map` while the other is about to test it, or one is
about to take a group from `vector_of_vectors` while the other is about to test whether it is empty.
In particular everything else is protected by the mutexes and the job's two barriers, as long as no
`pthread_cond_wait` comes back without a broadcast. -/
theorem program_races_iff (hr : (programJob client input level out).ReachableBy ProgramPrompted p)
    (hij : i ≠ j) : p.shared.Races i j v ↔
      (v = .doneMap ∧ (∃ vecs, p.shared.pc i = .mapDone vecs) ∧
        ∃ vecs, p.shared.pc j = .mapTest vecs) ∨
      (v = .vectorOfVectors ∧ p.shared.pc i = .reduceTake ∧
        (p.shared.pc j = .reduceTest ∨ p.shared.pc j = .reduceRetest)) := by
  obtain ⟨_, hs, rfl, -⟩ := program_refines.reachable hr
  exact races_iff hs hij

end program

/-- Worker 0 finds all indices drawn while worker 1 comes to the loop. -/
def mapRace : List (Fin 2 × ℕ) := twoWorkers (List.replicate 22 0 ++ List.replicate 3 1)

/-- Worker 0 is about to take the first group while worker 1 comes to the loop. Worker 0 waits in
the first barrier, worker 1 in the second. -/
def reduceRace : List (Fin 2 × ℕ) :=
  twoWorkers (List.replicate 36 0 ++ List.replicate 16 1 ++ List.replicate 35 0 ++
    List.replicate 6 1)

set_option maxRecDepth 4000 in
/-- Both races occur. -/
theorem program_races_iff_run : ∃ p p' : Program 2 (ℕ × ℕ) ℕ,
    (programJob parityClient [2, 3] 2 []).runBy ProgramPrompted mapRace (freshProgram [2, 3] 2 []) =
      some p ∧
    p.shared.Races 0 1 .doneMap ∧
    (programJob parityClient [2, 3] 2 []).runBy ProgramPrompted reduceRace
      (freshProgram [2, 3] 2 []) = some p' ∧
    p'.shared.Races 0 1 .vectorOfVectors := by
  obtain ⟨p, hp, h0, h1⟩ : ∃ p : Program 2 (ℕ × ℕ) ℕ,
      (programJob parityClient [2, 3] 2 []).runBy ProgramPrompted mapRace
        (freshProgram [2, 3] 2 []) = some p ∧
      p.shared.pc 0 = .mapDone [[(0, 2)], [(1, 3)]] ∧ p.shared.pc 1 = .mapTest [] :=
    ⟨_, rfl, rfl, rfl⟩
  obtain ⟨p', hp', h0', h1'⟩ : ∃ p : Program 2 (ℕ × ℕ) ℕ,
      (programJob parityClient [2, 3] 2 []).runBy ProgramPrompted reduceRace
        (freshProgram [2, 3] 2 []) = some p ∧
      p.shared.pc 0 = .reduceTake ∧ p.shared.pc 1 = .reduceTest := ⟨_, rfl, rfl, rfl⟩
  have hne : (0 : Fin 2) ≠ 1 := by decide
  exact ⟨p, p', hp,
    (program_races_iff (.runBy (.init rfl) hp) hne).mpr (.inl ⟨rfl, ⟨_, h0⟩, _, h1⟩), hp',
    (program_races_iff (.runBy (.init rfl) hp') hne).mpr (.inr ⟨rfl, h0', .inl h1'⟩)⟩

end CoreOS.MapReduce.Statement
