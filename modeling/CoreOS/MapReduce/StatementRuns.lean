import CoreOS.MapReduce.Refinement
import CoreOS.MapReduce.Termination

/-!
# A job ends, in any order of its statements

The measure of a whole job, carried from the sections of the mutexes down to the statements.

* `Point.statementsLeft`: the statements a worker has left until the next one that counts as a
  section; `stutter_lt`: every statement that does not count lowers it.
* `RunsAs.advance`: so every statement lowers `statementMeasure`.
* `mutexSort_step`: `Mutex_sort` excludes, as the other mutexes do.
* `RunsAs.exists_step`: somebody can take a statement until all have returned. The holder of a
  mutex can, and when all mutexes are free only the barriers and the semaphore can hold a worker up.
-/

namespace CoreOS.MapReduce.Statement

open CoreOS.Lib Function Finset

variable {Input K V Out P : Type*} {T : ℕ} {client : Client Input K V Out} {input : List Input}
  {out : List Out} {i : Fin T} {pick : ℕ}

/-! ## Statements that count as no section -/

/-- The statements of a worker until the next one that counts as a section. -/
def Point.statementsLeft : Point P → ℕ
  | setAtomic _ _ .lock => 5
  | setAtomic _ _ .read => 4
  | setAtomic _ _ .store => 3
  | setAtomic _ _ .flag => 2
  | setAtomic _ _ .unlock => 1
  | mapLock _ => 2
  | mapCheck _ => 1
  | mapBreak _ => 3
  | mapUnlock _ _ | mapPush _ _ => 1
  | mapLeft _ | sortUnlock _ => 2
  | sort _ => 1
  | shuffleCount _ _ _ _ => 3
  | shufflePush _ _ _ => 2
  | shufflePost _ _ => 1
  | reduceLock => 1
  | reduceCount _ => 2
  | reduceUnlock => 1
  | _ => 0

theorem Point.statementsLeft_le (x : Point P) : x.statementsLeft ≤ 5 := by
  cases x with
  | setAtomic call value point => cases point <;> exact Nat.le_of_ble_eq_true rfl
  | _ => exact Nat.le_of_ble_eq_true rfl

theorem goto_pc_self {s : Shared T P Out} {x : Point P} : (s.goto i x).pc i = x := update_self ..

theorem goto_pc_of_ne {s : Shared T P Out} {x : Point P} {j : Fin T} (hj : j ≠ i) :
    (s.goto i x).pc j = s.pc j :=
  update_of_ne hj ..

/-- Within `set_atomic` the section counts as taken with the store to `progress`, or when another
worker has made it. -/
theorem setStep_stutter {s s' : Shared T P Out} {call : SetCall P} {value : ℕ} {point : SetPoint}
    (hpc : s.pc i = .setAtomic call value point) (hstep : setStep i call value s point = some s')
    (hjob : (s'.pc i).job = (s.pc i).job) :
    (s'.pc i).statementsLeft < (s.pc i).statementsLeft := by
  rw [hpc] at hjob ⊢
  cases point with
  | lock =>
      obtain ⟨-, rfl⟩ := setStep_lock_iff.mp hstep
      rw [goto_pc_self]
      exact Nat.lt_succ_self 4
  | read =>
      cases hstep
      rw [goto_pc_self] at hjob ⊢
      split_ifs at hjob ⊢
      · exact (by decide : 1 < 4)
      · exact Nat.lt_succ_self 3
  | store =>
      cases hstep
      rw [goto_pc_self]
      exact Nat.lt_succ_self 2
  | flag =>
      cases hstep
      rw [goto_pc_self]
      exact Nat.lt_succ_self 1
  | unlock =>
      cases hstep
      rw [goto_pc_self]
      cases call <;> exact Nat.zero_lt_one

section stutter

variable {s s' : Shared T (K × V) Out} (hjob : (s'.pc i).job = (s.pc i).job)
include hjob

theorem mapStep_stutter (hstep : mapStep client input i s = some s') :
    (s'.pc i).statementsLeft < (s.pc i).statementsLeft := by
  cases mapStep_cases hstep with
  | lock hpc | full hpc | more hpc | exit hpc | unlock hpc | push hpc | left hpc =>
      rw [hpc, goto_pc_self]
      simp only [Point.statementsLeft, Nat.reduceLT]
  | _ hpc =>
      rw [hpc, goto_pc_self] at hjob
      cases hjob

theorem sortStep_stutter (hstep : sortStep i s = some s') :
    (s'.pc i).statementsLeft < (s.pc i).statementsLeft := by
  cases sortStep_cases hstep with
  | finish hpc =>
      rw [hpc, goto_pc_self] at hjob
      cases hjob
  | lock hpc | unlock hpc =>
      rw [hpc, goto_pc_self]
      simp only [Point.statementsLeft, Nat.reduceLT]
  | push hpc =>
      rw [hpc, goto_pc_self] at hjob
      exact absurd (JobPc.sort.inj hjob).symm (List.cons_ne_self _ _)

theorem shuffleStep_stutter [IsStrictWeakOrder (K × V) client.compareByFirstElement]
    (hstep : shuffleStep client i pick s = some s') :
    (s'.pc i).statementsLeft < (s.pc i).statementsLeft := by
  cases shuffleStep_cases hstep with
  | countLast hpc | count hpc | push hpc | post hpc =>
      rw [hpc, goto_pc_self]
      simp only [Point.statementsLeft, Nat.reduceLT]
  | @take allPairs _ _ _ hpc hempty htop =>
      -- an element has been taken off the queue
      rw [hpc, goto_pc_self] at hjob
      have hlen : allPairs.length = (allPairs.eraseIdx pick).length + 1 := by
        rw [(top_eq_some htop).1.length_eq, List.length_cons]
      have hsame : allPairs.eraseIdx pick = allPairs := by
        simp only [Point.job] at hjob
        split_ifs at hjob <;> exact (JobPc.shuffleLoop.inj hjob).1
      rw [hsame] at hlen
      omega
  | @cut _ lastPair thisPair _ hpc hempty htop hkeys =>
      -- the key has changed
      rw [hpc, goto_pc_self] at hjob
      obtain rfl : thisPair = lastPair := (JobPc.shuffleLoop.inj hjob).2.1
      exact absurd ⟨irrefl thisPair, irrefl thisPair⟩ hkeys
  | _ hpc =>
      rw [hpc, goto_pc_self] at hjob
      cases hjob

theorem reduceStep_stutter (hstep : reduceStep client i s = some s') :
    (s'.pc i).statementsLeft < (s.pc i).statementsLeft := by
  cases reduceStep_cases hstep with
  | lock hpc | count hpc | unlock hpc =>
      rw [hpc, goto_pc_self]
      simp only [Point.statementsLeft, Nat.reduceLT]
  | _ hpc =>
      rw [hpc, goto_pc_self] at hjob
      cases hjob

/-- **A statement that takes no section brings the next section nearer.** -/
theorem stutter_lt [IsStrictWeakOrder (K × V) client.compareByFirstElement]
    (hstep : step client input (i, pick) s = some s') :
    (s'.pc i).statementsLeft < (s.pc i).statementsLeft := by
  rcases step_cases hstep with ⟨call, value, point, hpc, hs⟩ | hs | hs | ⟨hpc, -, rfl⟩ | hs |
    ⟨hpc, -, rfl⟩ | hs
  · exact setStep_stutter hpc hs hjob
  · exact mapStep_stutter hjob hs
  · exact sortStep_stutter hjob hs
  · rw [hpc, goto_pc_self] at hjob
    split_ifs at hjob <;> cases hjob
  · exact shuffleStep_stutter hjob hs
  · rw [hpc, goto_pc_self] at hjob
    cases hjob
  · exact reduceStep_stutter hjob hs

end stutter

/-! ## `Mutex_sort` -/

/-- Holding `Mutex_sort`. -/
def Point.holdsSort : Point P → Bool
  | sortPush _ _ | sortUnlock _ => true
  | _ => false

section mutexSort

variable {s s' : Shared T (K × V) Out}

theorem markSet_mutexSort (s : Shared T P Out) (stage : Stage) :
    (s.markSet stage).mutexSort = s.mutexSort := by
  cases stage <;> rfl

/-- In `set_atomic` a worker stays in its phase. -/
theorem setStep_pc {s s' : Shared T P Out} {call : SetCall P} {value : ℕ} {point : SetPoint}
    (hstep : setStep i call value s point = some s') : ∃ x, s'.pc = update s.pc i x ∧
      s'.mutexSort = s.mutexSort ∧ x.holdsSort = false ∧
        x.phase = (Point.setAtomic call value point).phase := by
  cases point with
  | lock =>
      obtain ⟨-, rfl⟩ := setStep_lock_iff.mp hstep
      exact ⟨_, rfl, rfl, rfl, call.phase_setAtomic ..⟩
  | read =>
      cases hstep
      exact ⟨_, rfl, rfl, rfl, call.phase_setAtomic ..⟩
  | store =>
      cases hstep
      exact ⟨_, rfl, rfl, rfl, call.phase_setAtomic ..⟩
  | flag =>
      cases hstep
      exact ⟨_, congrArg (update · i _) (s.markSet_pc _), markSet_mutexSort s _, rfl,
        call.phase_setAtomic ..⟩
  | unlock =>
      cases hstep
      exact ⟨_, rfl, rfl, by cases call <;> rfl, call.phase_next ..⟩

/-- A step moves the worker that takes it, and touches `Mutex_sort` in `sort_phase` only. -/
theorem step_pc (hstep : step client input (i, pick) s = some s') :
    ∃ x, s'.pc = update s.pc i x ∧
      (s'.mutexSort = s.mutexSort ∧ x.holdsSort = (s.pc i).holdsSort ∨ sortStep i s = some s') := by
  rcases step_cases hstep with ⟨call, value, point, hpc, hs⟩ | hs | hs | ⟨hpc, -, rfl⟩ | hs |
    ⟨hpc, -, rfl⟩ | hs
  · obtain ⟨x, hx, hsort, hholds, -⟩ := setStep_pc hs
    exact ⟨x, hx, .inl ⟨hsort, by rw [hholds, hpc]; rfl⟩⟩
  · cases mapStep_cases hs with
    | _ hpc => exact ⟨_, rfl, .inl ⟨rfl, by rw [hpc]; rfl⟩⟩
  · have hright := hs
    cases sortStep_cases hs with
    | _ => exact ⟨_, rfl, .inr hright⟩
  · exact ⟨_, rfl, .inl ⟨rfl, by rw [hpc]; split_ifs <;> rfl⟩⟩
  · cases shuffleStep_cases hs with
    | _ hpc => exact ⟨_, rfl, .inl ⟨rfl, by rw [hpc]; rfl⟩⟩
  · exact ⟨_, rfl, .inl ⟨rfl, by rw [hpc]; rfl⟩⟩
  · cases reduceStep_cases hs with
    | _ hpc => exact ⟨_, rfl, .inl ⟨rfl, by rw [hpc]; rfl⟩⟩

/-- `Mutex_sort` is held by exactly the worker in its section. -/
theorem mutexSort_step (h : Owned Point.holdsSort s.pc s.mutexSort)
    (hstep : step client input (i, pick) s = some s') :
    Owned Point.holdsSort s'.pc s'.mutexSort := by
  obtain ⟨x, hx, ⟨hsort, hholds⟩ | hs⟩ := step_pc hstep
  · rw [hx, hsort]
    exact h.keep hholds
  cases sortStep_cases hs with
  | finish hpc | push hpc => exact h.keep (by rw [hpc]; rfl)
  | lock hpc hfree =>
      rw [hfree] at h
      exact h.acquire rfl
  | unlock hpc => exact h.release (by rw [hpc]; rfl) rfl

end mutexSort

/-! ## The measure -/

/-- What is known of a state of a job with pairs: the sections lead to `t`, and the mutexes
exclude. -/
structure RunsAs (client : Client Input K V Out) (input : List Input) (out : List Out)
    (s : Shared T (K × V) Out) (t : JobContext T (K × V) Out) : Prop where
  refines : Refines input s t
  running : Running client input out t
  mutexSort : Owned Point.holdsSort s.pc s.mutexSort

/-- The statements that a job with `n` pairs has left, in a state whose sections lead to `t`. -/
def statementMeasure (size n : ℕ) (s : Shared T P Out) (t : JobContext T P Out) : ℕ :=
  6 * jobMeasure size n t + ∑ j, (s.pc j).statementsLeft

namespace RunsAs

variable {s s' : Shared T (K × V) Out} {t : JobContext T (K × V) Out}

theorem init : RunsAs client input out (freshShared input T out) (freshJob T out) where
  refines := ⟨inStage_fresh, informed_fresh, abstracts_fresh⟩
  running := .mapping 0 .init
  mutexSort _ := ⟨nofun, nofun⟩

/-- Nothing undefined has happened. -/
theorem unbroken (h : RunsAs client input out s t) (j : Fin T) : (s.pc j).broken = false := by
  have hdefined := h.running.defined j
  rw [h.refines.abstracts.pc] at hdefined
  generalize s.pc j = x at hdefined
  cases x with
  | outOfRange | noTop | noFront => exact absurd rfl hdefined
  | _ => rfl

variable [IsStrictWeakOrder (K × V) client.compareByFirstElement]

/-- **Step lemma.** Every statement takes a section or none, and lowers the measure. -/
theorem advance (hlt : input.length < 2 ^ 31) (hpairs : input.flatMap client.map ≠ [])
    (h : RunsAs client input out s t) {label : Fin T × ℕ}
    (hstep : step client input label s = some s') :
    ∃ t', (t' = t ∨ ∃ label, jobStep client input label t = some t') ∧
      RunsAs client input out s' t' ∧
      statementMeasure input.length (input.flatMap client.map).length s' t' <
        statementMeasure input.length (input.flatMap client.map).length s t := by
  obtain ⟨i, pick⟩ := label
  have hrefines := h.refines
  have hstage := hrefines.stage.step hstep
  have hinformed := hrefines.informed.step hrefines.stage hstep
  have hsort := mutexSort_step h.mutexSort hstep
  obtain ⟨x, hx, -⟩ := step_pc hstep
  have hsum := sum_update Point.statementsLeft s.pc i x
  have hle := x.statementsLeft_le
  have hxi : s'.pc i = x := by rw [hx, update_self]
  obtain ⟨t', rfl | ⟨label, hlabel⟩, ht'⟩ :=
    hrefines.abstracts.step hrefines.stage hrefines.informed h.unbroken hstep
  · -- the same section as before
    have hjob : (s'.pc i).job = (s.pc i).job := by
      rw [← ht'.pc, hrefines.abstracts.pc]
    have hdrop := stutter_lt hjob hstep
    rw [hxi] at hdrop
    refine ⟨t', .inl rfl, ⟨⟨hstage, hinformed, ht'⟩, h.running, hsort⟩, ?_⟩
    simp only [statementMeasure, hx]
    omega
  · have hdrop := h.running.measure_lt hlt hpairs hlabel
    refine ⟨t', .inr ⟨label, hlabel⟩,
      ⟨⟨hstage, hinformed, ht'⟩, h.running.step hlt hpairs hlabel, hsort⟩, ?_⟩
    simp only [statementMeasure, hx]
    omega

/-! ## Progress -/

end RunsAs

/-- At a statement that never has to wait. -/
def Point.ready : Point P → Bool
  | setAtomic _ _ .lock | mapLock _ | sort (_ :: _) | barrier | barrierReduce | semWait | reduceLock
  | returned | outOfRange | noTop | noFront => false
  | _ => true

section holders

variable {x : Point P}

theorem Point.ready_of_holdsSetAtomic (h : x.holdsSetAtomic = true) : x.ready = true := by
  cases x with
  | setAtomic call value point =>
      cases point with
      | lock => cases h
      | _ => rfl
  | _ => cases h

theorem Point.ready_of_holdsMap (h : x.holdsMap = true) : x.ready = true := by
  cases x with
  | mapCheck | mapDone | mapBreak | mapClaim | mapUnlock => rfl
  | _ => cases h

theorem Point.ready_of_holdsSort (h : x.holdsSort = true) : x.ready = true := by
  cases x with
  | sortPush | sortUnlock => rfl
  | _ => cases h

theorem Point.ready_of_holdsReduce (h : x.holdsReduce = true) (hok : x.broken = false) :
    x.ready = true := by
  cases x with
  | reduceTake | reducing | reduceCount | reduceUnlock => rfl
  | noFront => cases hok
  | _ => cases h

/-- A mutex whose holder could move is free when nobody can. -/
theorem mutex_eq_none {holds : Point P → Bool} {pc : Fin T → Point P} {m : Option (Fin T)}
    (howned : Owned holds pc m) (hno : ∀ j, (pc j).ready = false)
    (hready : ∀ j, holds (pc j) = true → (pc j).ready = true) : m = none := by
  rw [Option.eq_none_iff_forall_ne_some]
  intro j hj
  have hmove := hready j ((howned j).mp hj)
  rw [hno j] at hmove
  cases hmove

end holders

section progress

variable {s s' : Shared T (K × V) Out} {t : JobContext T (K × V) Out}

/-- A worker that does not have to wait can move. -/
theorem exists_step_of_ready [IsStrictWeakOrder (K × V) client.compareByFirstElement]
    (hi : (s.pc i).ready = true) : ∃ pick s', step client input (i, pick) s = some s' := by
  unfold step
  dsimp only
  cases hpc : s.pc i with
  | setAtomic call value point =>
      cases point with
      | lock => simp [hpc, Point.ready] at hi
      | _ => exact ⟨0, _, rfl⟩
  | mapCall vecs index =>
      simp only [mapStep, hpc]
      cases input[index]? <;> exact ⟨0, _, rfl⟩
  | sort vecs =>
      cases vecs with
      | nil =>
          simp only [sortStep, hpc]
          exact ⟨0, _, rfl⟩
      | cons => simp [hpc, Point.ready] at hi
  | shuffleTop allPairs | shuffleLoop allPairs =>
      simp only [shuffleStep, hpc]
      by_cases hnil : allPairs = []
      · exact ⟨0, _, if_pos (by simpa using hnil)⟩
      · obtain ⟨pick, p, htop⟩ : ∃ pick p, client.top allPairs pick = some p := exists_top hnil
        exact ⟨pick, by rw [if_neg (by simpa using hnil), htop]; exact ⟨_, rfl⟩⟩
  | reduceTake =>
      simp only [reduceStep, hpc]
      cases s.vectorOfVectors <;> exact ⟨0, _, rfl⟩
  | mapLock | barrier | barrierReduce | semWait | reduceLock | returned | outOfRange | noTop
  | noFront => simp [hpc, Point.ready] at hi
  | mapTest | mapCheck | mapDone | mapBreak | mapClaim | mapUnlock | mapPush | mapLeft =>
      simp only [mapStep, hpc]
      exact ⟨0, _, rfl⟩
  | sortPush | sortUnlock =>
      simp only [sortStep, hpc]
      exact ⟨0, _, rfl⟩
  | shuffleCollect | shuffleCount | shufflePush | shufflePost =>
      simp only [shuffleStep, hpc]
      exact ⟨0, _, rfl⟩
  | reduceFlag | reduceTest | reduceRetest | reducing | reduceCount | reduceUnlock | semPost =>
      simp only [reduceStep, hpc]
      exact ⟨0, _, rfl⟩

/-- When nobody is ready and some worker is at a mutex, it can take it. -/
theorem RunsAs.exists_step_of_lock (h : RunsAs client input out s t)
    (hno : ∀ j, (s.pc j).ready = false)
    (hi : (∃ call value, s.pc i = .setAtomic call value .lock) ∨ (∃ vecs, s.pc i = .mapLock vecs) ∨
      (∃ vecs, s.pc i = .sort vecs) ∨ s.pc i = .reduceLock) :
    ∃ s', step client input (i, 0) s = some s' := by
  have hset := mutex_eq_none h.refines.stage.owned hno fun _ => Point.ready_of_holdsSetAtomic
  have hmap := mutex_eq_none h.refines.informed.mutexMap hno fun _ => Point.ready_of_holdsMap
  have hsort := mutex_eq_none h.mutexSort hno fun _ => Point.ready_of_holdsSort
  have hreduce := mutex_eq_none h.refines.informed.mutexReduce hno
    fun j hj => Point.ready_of_holdsReduce hj (h.unbroken j)
  unfold step
  dsimp only
  rcases hi with ⟨call, value, hpc⟩ | ⟨vecs, hpc⟩ | ⟨vecs, hpc⟩ | hpc
  · simp only [hpc, setStep, if_pos hset]
    exact ⟨_, rfl⟩
  · simp only [hpc, mapStep, if_pos hmap]
    exact ⟨_, rfl⟩
  · have hidle := hno i
    cases vecs with
    | nil =>
        rw [hpc] at hidle
        cases hidle
    | cons =>
        simp only [hpc, sortStep, if_pos hsort]
        exact ⟨_, rfl⟩
  · simp only [hpc, reduceStep, if_pos hreduce]
    exact ⟨_, rfl⟩

/-- Who is not ready and at no mutex waits at a barrier or for a token, or has returned. -/
theorem Point.cases_waiting {x : Point P} (hready : x.ready = false) (hok : x.broken = false) :
    ((∃ call value, x = .setAtomic call value .lock) ∨ (∃ vecs, x = .mapLock vecs) ∨
      (∃ vecs, x = .sort vecs) ∨ x = .reduceLock) ∨
    x = .barrier ∨ x = .barrierReduce ∨ x = .semWait ∨ x = .returned := by
  cases x with
  | setAtomic call value point =>
      cases point with
      | lock => exact .inl (.inl ⟨call, value, rfl⟩)
      | _ => cases hready
  | mapLock vecs => exact .inl (.inr (.inl ⟨vecs, rfl⟩))
  | sort vecs => exact .inl (.inr (.inr (.inl ⟨vecs, rfl⟩)))
  | reduceLock => exact .inl (.inr (.inr (.inr rfl)))
  | barrier => exact .inr (.inl rfl)
  | barrierReduce => exact .inr (.inr (.inl rfl))
  | semWait => exact .inr (.inr (.inr (.inl rfl)))
  | returned => exact .inr (.inr (.inr (.inr rfl)))
  | outOfRange | noTop | noFront => cases hok
  | _ => cases hready

/-- When all wait for a token or have returned, a token is there, as it is for the sections. -/
theorem RunsAs.exists_step_of_semWait [IsStrictWeakOrder (K × V) client.compareByFirstElement]
    (h : RunsAs client input out s t) (hall : ∀ j, s.pc j = .semWait ∨ s.pc j = .returned)
    (hi : s.pc i ≠ .returned) : ∃ label s', step client input label s = some s' := by
  have habs := h.refines.abstracts
  have hti : t.pc i ≠ .returned := by
    rw [habs.pc, (hall i).resolve_right hi]
    nofun
  obtain ⟨⟨k, pick⟩, t', ht'⟩ := h.running.progress hti
  have hposts : ∑ j, (s.pc j).posts = 0 := Finset.sum_eq_zero fun j _ => by
    rcases hall j with hj | hj <;> rw [hj] <;> rfl
  have hsem := habs.sem
  rw [hposts, Nat.add_zero] at hsem
  have hk := habs.pc k
  rcases hall k with hpc | hpc
  · rw [hpc] at hk
    simp only [jobStep, hk, Point.job, MapReduce.reduceStep] at ht'
    split_ifs at ht' with hzero
    rw [hsem] at hzero
    refine ⟨(k, 0), ?_⟩
    simp only [step, hpc, reduceStep, if_neg hzero]
    exact ⟨_, rfl⟩
  · rw [hpc] at hk
    simp only [jobStep, hk, Point.job] at ht'
    cases ht'

/-- **Somebody can move** until everybody has returned. -/
theorem RunsAs.exists_step [IsStrictWeakOrder (K × V) client.compareByFirstElement]
    (h : RunsAs client input out s t) (hi : s.pc i ≠ .returned) :
    ∃ label s', step client input label s = some s' := by
  by_cases hready : ∃ j, (s.pc j).ready = true
  · obtain ⟨j, hj⟩ := hready
    obtain ⟨pick, s', hs'⟩ : ∃ pick s', step client input (j, pick) s = some s' :=
      exists_step_of_ready hj
    exact ⟨(j, pick), s', hs'⟩
  have hno : ∀ j, (s.pc j).ready = false := by
    intro j
    simpa using fun hj => hready ⟨j, hj⟩
  have hwait := fun j => Point.cases_waiting (hno j) (h.unbroken j)
  by_cases hlock : ∃ j, (∃ call value, s.pc j = .setAtomic call value .lock) ∨
      (∃ vecs, s.pc j = .mapLock vecs) ∨ (∃ vecs, s.pc j = .sort vecs) ∨ s.pc j = .reduceLock
  · obtain ⟨j, hj⟩ := hlock
    obtain ⟨s', hs'⟩ := h.exists_step_of_lock hno hj
    exact ⟨(j, 0), s', hs'⟩
  have hpoint := fun j => (hwait j).resolve_left fun hj => hlock ⟨j, hj⟩
  by_cases hbarrier : ∃ j, s.pc j = .barrier
  · obtain ⟨j, hj⟩ := hbarrier
    refine ⟨(j, 0), ?_⟩
    simp only [step, hj]
    refine ⟨_, if_pos fun k => ?_⟩
    rcases hpoint k with hk | hk | hk | hk <;> rw [hk] <;>
      exact Nat.le_of_ble_eq_true rfl
  by_cases hreduce : ∃ j, s.pc j = .barrierReduce
  · obtain ⟨j, hj⟩ := hreduce
    refine ⟨(j, 0), ?_⟩
    simp only [step, hj]
    refine ⟨_, if_pos fun k => ?_⟩
    rcases (hpoint k).resolve_left fun hk => hbarrier ⟨k, hk⟩ with hk | hk | hk <;> rw [hk] <;>
      exact Nat.le_of_ble_eq_true rfl
  refine h.exists_step_of_semWait (i := i) (fun j => ?_) hi
  exact ((hpoint j).resolve_left fun hj => hbarrier ⟨j, hj⟩).resolve_left
    fun hj => hreduce ⟨j, hj⟩

end progress

end CoreOS.MapReduce.Statement
