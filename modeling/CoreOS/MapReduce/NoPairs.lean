import CoreOS.MapReduce.Counting

/-!
# A job without pairs

What becomes of a job if the client's `map` emits nothing for the whole input.

* `CompletesWithoutPairs`: what it should do, which is nothing, to the end.
* `stops_at_top`: what it does. Wherever its run stops, the main worker has asked an empty priority
  queue for its top.
* `never_returns`: no worker ever returns.
* `completes_without_pairs_iff`: the job completes only if it has no workers at all.
-/

namespace CoreOS.MapReduce

open CoreOS.Lib Function

variable {Input K V Out : Type*} {T : ℕ} {client : Client Input K V Out} {input : List Input}
  {out : List Out} {level : ℕ}

/-- At every moment nothing undefined has happened, nothing has been reduced or output, the shuffle
has left neither groups nor tokens, and the job can go on until everybody has returned. -/
def CompletesWithoutPairs (client : Client Input K V Out) (input : List Input) (level : ℕ)
    (out : List Out) : Prop :=
  ∀ s, (mapReduce client input level out).Reachable s →
    (∀ i, s.pc i ≠ .undefined) ∧
    ((∀ i, s.pc i = .barrierReduce) → s.vectorOfVectors = [] ∧ s.sem = 0) ∧
    s.reduced = [] ∧ s.outputVec = out ∧
    ∃ labels s', (mapReduce client input level out).run labels s = some s' ∧
      ∀ i, s'.pc i = .returned

/-! ## Inputs that the progress word can count -/

section counted

variable {stage : Stage} {done : ℕ} {s : JobContext T (K × V) Out} {i : Fin T}

/-- Where the main worker can be in the shuffle phase. -/
theorem CountAt.points_of_none {size : Stage → ℕ} (hsize : size .shuffleStage = 0)
    {x : JobPc (K × V)} (h : CountAt size stage done s x) :
    x = .barrier ∨ x = .shuffleCollect ∨ (∃ allPairs, x = .shuffleSet allPairs) ∨
      x = .shuffleTop [] ∨ x = .undefined := by
  cases x with
  | barrier => exact .inl rfl
  | shuffleCollect => exact .inr (.inl rfl)
  | shuffleSet allPairs => exact .inr (.inr (.inl ⟨allPairs, rfl⟩))
  | shuffleTop allPairs =>
      obtain ⟨-, hlen, -⟩ := h
      rw [hsize, List.length_eq_zero_iff] at hlen
      exact .inr (.inr (.inr (.inl (by rw [hlen]))))
  | shuffleLoop =>
      obtain ⟨-, -, -, hne, -⟩ := h
      exact absurd hsize hne
  | barrierReduce =>
      obtain ⟨-, -, hne, -⟩ := h
      exact absurd hsize hne
  | undefined => exact .inr (.inr (.inr (.inr rfl)))
  | _ => exact h.elim

/-- Up to there the main worker can move. -/
theorem MainAlone.exists_step {size : Stage → ℕ} (hsize : size .shuffleStage = 0)
    (h : MainAlone (CountAt size stage done) s) (hi : i.val = 0) (hne : s.pc i ≠ .undefined) :
    ∃ label s', jobStep client input label s = some s' := by
  have hmoves : (s.pc i).inShuffle = true → (∃ s', shuffleStep client i 0 s = some s') →
      ∃ label s', jobStep client input label s = some s' := by
    rintro hin ⟨s', hs'⟩
    exact ⟨(i, 0), s', by rw [jobStep_of_inShuffle hin, hs']⟩
  rcases (h.main i hi).points_of_none hsize with hpc | hpc | ⟨allPairs, hpc⟩ | hpc | hpc
  · refine ⟨(i, 0), jobStep_barrier hpc fun j => ?_⟩
    by_cases hj : j.val = 0
    · rw [show j = i from Fin.ext (hj.trans hi.symm), hpc]
      rfl
    · rcases h.others j hj with hpcj | hpcj <;> rw [hpcj] <;> rfl
  · apply hmoves (by rw [hpc]; rfl)
    rw [shuffleStep, hpc]
    exact ⟨_, rfl⟩
  · apply hmoves (by rw [hpc]; rfl)
    rw [shuffleStep, hpc]
    exact ⟨_, rfl⟩
  · apply hmoves (by rw [hpc]; rfl)
    rw [shuffleStep, hpc]
    exact ⟨_, rfl⟩
  · exact absurd hpc hne

variable (hnone : input.flatMap client.map = []) (h : Counting client input out stage done s)
include hnone

omit h in
theorem stageSize_eq_zero : stageSize client input .shuffleStage = 0 :=
  List.length_eq_zero_iff.mpr hnone

include h

/-- **Where a run stops**: after the main worker has asked an empty queue for its top. -/
theorem Counting.undefined_of_stuck (hi : i.val = 0)
    (hstuck : ∀ label, jobStep client input label s = none) : s.pc i = .undefined := by
  by_contra hne
  have hmoves : ∃ label s', jobStep client input label s = some s' := by
    cases h.phase with
    | mapping _ hm => exact hm.exists_step i
    | shuffling ha _ => exact ha.exists_step (stageSize_eq_zero hnone) hi hne
    | reducing _ _ hsize => exact absurd (stageSize_eq_zero hnone) hsize
  obtain ⟨label, s', hs'⟩ := hmoves
  rw [hstuck label] at hs'
  cases hs'

/-- The reduce phase is not reached. -/
theorem Counting.ne_returned : s.pc i ≠ .returned := by
  intro hpc
  obtain ⟨-, -, hsize, -⟩ := h.reducing_of_returned hpc
  exact hsize (stageSize_eq_zero hnone)

end counted

/-! ## Inputs that it cannot count -/

/-- In the loop of `running_map_phase`, which it has not left. -/
def JobPc.looping {P : Type*} : JobPc P → Bool
  | mapSet | mapTest _ | mapSection _ | mapCall _ _ | undefined => true
  | _ => false

/-- A worker in the loop moves in the map phase, or not at all. -/
theorem JobPc.looping_cases {P : Type*} {x : JobPc P} (h : x.looping = true) :
    x.inMap = true ∨ x = .undefined := by
  cases x with
  | mapSet | mapTest | mapSection | mapCall => exact .inl rfl
  | undefined => exact .inr rfl
  | _ => cases h

theorem jobDone_lt (progress : BitVec 64) : jobDone progress < 2 ^ 31 := by
  rw [jobDone_eq_mod]
  exact Nat.mod_lt _ (by decide)

/-- **Step rule.** The test for the end of the map phase compares with 31 bits, so with an input of
`2 ^ 31` elements nobody leaves the loop. -/
theorem mapStep_looping (hle : 2 ^ 31 ≤ input.length) {s s' : JobContext T (K × V) Out} {i : Fin T}
    (hdone : s.doneMap = false) (hloop : ∀ i, (s.pc i).looping = true)
    (hstep : mapStep client input i s = some s') :
    s'.doneMap = false ∧ ∀ i, (s'.pc i).looping = true := by
  have hmove : ∀ x : JobPc (K × V), x.looping = true → ∀ j, (update s.pc i x j).looping = true :=
    fun x hx => forall_update (p := fun y : JobPc (K × V) => y.looping = true) hloop hx
  have hpoint := hloop i
  have hlt := jobDone_lt s.progress
  cases mapStep_moves hstep with
  | set =>
      refine ⟨?_, ?_⟩
      · simp only [setAtomic, JobContext.goto]
        split_ifs <;> exact hdone
      · simp only [JobContext.goto, setAtomic_pc]
        exact hmove _ rfl
  | leave _ hleave =>
      rw [hdone] at hleave
      cases hleave
  | finish _ hall => omega
  | enter | claim | outOfRange | call => exact ⟨hdone, hmove _ rfl⟩
  | arrive hpc | handOver hpc =>
      rw [hpc] at hpoint
      cases hpoint

/-- **Run rule.** The map phase of an input of `2 ^ 31` elements never ends. -/
theorem looping_of_reachable (hle : 2 ^ 31 ≤ input.length)
    {s : JobContext (numOfThreads level input) (K × V) Out}
    (h : (mapReduce client input level out).Reachable s) :
    s.doneMap = false ∧ ∀ i, (s.pc i).looping = true := by
  refine h.invariant (P := fun s => s.doneMap = false ∧ ∀ i, (s.pc i).looping = true) ?_ ?_
  · rintro _ rfl
    exact ⟨rfl, fun _ => rfl⟩
  · rintro ⟨i, pick⟩ s s' ⟨hdone, hloop⟩ hstep
    change jobStep client input (i, pick) s = some s' at hstep
    rcases JobPc.looping_cases (hloop i) with hin | hpc
    · rw [jobStep_of_inMap hin] at hstep
      exact mapStep_looping hle hdone hloop hstep
    · simp only [jobStep, hpc] at hstep
      cases hstep

/-! ## All inputs -/

section none

variable (hnone : input.flatMap client.map = [])
  {s : JobContext (numOfThreads level input) (K × V) Out}
include hnone

/-- **The top of an empty queue.** Wherever the run of a job without pairs stops, the main worker
has asked the empty queue for its top. -/
theorem stops_at_top (hlt : input.length < 2 ^ 31)
    (h : (mapReduce client input level out).Reachable s)
    (hstuck : ∀ label, (mapReduce client input level out).step label s = none)
    {i : Fin (numOfThreads level input)} (hi : i.val = 0) : s.pc i = .undefined := by
  have hplt : (input.flatMap client.map).length < 2 ^ 31 := by
    rw [hnone]
    exact Nat.two_pow_pos 31
  obtain ⟨stage, done, hs⟩ := counting_of_reachable hlt hplt h
  exact hs.undefined_of_stuck hnone hi hstuck

/-- **Nobody ever returns.** -/
theorem never_returns (h : (mapReduce client input level out).Reachable s)
    (i : Fin (numOfThreads level input)) : s.pc i ≠ .returned := by
  by_cases hlt : input.length < 2 ^ 31
  · have hplt : (input.flatMap client.map).length < 2 ^ 31 := by
      rw [hnone]
      exact Nat.two_pow_pos 31
    obtain ⟨stage, done, hs⟩ := counting_of_reachable hlt hplt h
    exact hs.ne_returned hnone
  · intro hpc
    have hloop := (looping_of_reachable (not_lt.mp hlt) h).2 i
    rw [hpc] at hloop
    cases hloop

/-- **When a job without pairs completes**: if it has no workers. -/
theorem completes_without_pairs_iff :
    CompletesWithoutPairs client input level out ↔ numOfThreads level input = 0 := by
  constructor
  · intro hall
    by_contra hT
    have hinit : (mapReduce client input level out).Reachable (freshJob _ out) := .init rfl
    obtain ⟨-, -, -, -, labels, s', hrun, hreturned⟩ := hall _ hinit
    exact never_returns hnone (hinit.run hrun) ⟨0, Nat.pos_of_ne_zero hT⟩ (hreturned _)
  · intro hT s h
    have hfresh : s = freshJob _ out := by
      refine h.invariant (P := fun s => s = freshJob _ out) (fun _ hs => hs) ?_
      intro label _ _ _ _
      exact absurd hT (Fin.pos label.1).ne'
    have hno : ∀ i : Fin (numOfThreads level input), False := fun i => (Fin.pos i).ne' hT
    subst hfresh
    exact ⟨fun i => (hno i).elim, fun _ => ⟨rfl, rfl⟩, rfl, rfl, [], _, rfl, fun i => (hno i).elim⟩

end none

/-- Emits nothing. -/
def silentClient : Client ℕ ℕ ℕ ℕ where
  map _ := []
  reduce group := [group.length]
  lt a b := decide (a < b)

/-- One worker, one input, no pairs: the worker ends up at the top of an empty queue. -/
theorem top_of_empty_queue : ¬ ∀ (input : List ℕ) (level : ℕ), input ≠ [] → 1 ≤ level →
    input.flatMap silentClient.map = [] → CompletesWithoutPairs silentClient input level [] := by
  intro hall
  obtain ⟨s, hs⟩ : ∃ s : JobContext 1 (ℕ × ℕ) ℕ,
      (mapReduce silentClient [7] 1 []).run (List.replicate 12 ((0 : Fin 1), 0)) (freshJob 1 []) =
        some s := ⟨_, rfl⟩
  have hr : (mapReduce silentClient [7] 1 []).Reachable (freshJob 1 []) := .init rfl
  apply (hall [7] 1 (by decide) le_rfl rfl s (hr.run hs)).1 (0 : Fin 1)
  rw [show s = _ from (Option.some.inj hs).symm]
  decide

/-- With two workers and three inputs it does not complete either. -/
theorem completes_without_pairs_iff_run :
    ¬ CompletesWithoutPairs silentClient [3, 2, 5] 2 [] := by
  intro h
  have hT := (completes_without_pairs_iff (by decide)).mp h
  revert hT
  decide

end CoreOS.MapReduce
