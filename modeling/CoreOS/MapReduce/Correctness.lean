import CoreOS.MapReduce.ShufflePhase

/-!
# A job computes the sequential map-reduce

* `sequential client input`: what the job is to compute, without threads: map everything, group by
  key, reduce the groups in ascending order.
* `Running client input out s`: the invariant of the whole job, one phase after the other.
* `running_of_reachable`: it holds along every schedule.
* `job_computes_sequential`: the output of a finished job, and that an unfinished one can go on.
-/

namespace CoreOS.MapReduce

open CoreOS.Lib Function

variable {Input K V Out : Type*} {T : ℕ} {client : Client Input K V Out} {input : List Input}
  {out : List Out} {s s' : JobContext T (K × V) Out}

/-- The sequential map-reduce: the outputs of the key-equivalence classes of everything that was
mapped, in ascending order of the keys. -/
def sequential (client : Client Input K V Out) (input : List Input) : List Out :=
  (classes client.compareByFirstElement (input.flatMap client.map)).flatMap client.reduce

/-- The state of a job. -/
inductive Running (client : Client Input K V Out) (input : List Input) (out : List Out)
    (s : JobContext T (K × V) Out) : Prop
  | mapping (d : ℕ) (h : Mapping client input out d s)
  | shuffling (h : Shuffling client (input.flatMap client.map) out s)
  | reducing (groups : List (List (K × V)))
      (hgroups : IsGrouping client.compareByFirstElement (input.flatMap client.map) groups)
      (h : Reducing client groups out s)

/-- In the map phase everybody is at the barrier when somebody may leave it. -/
theorem Mapping.all_at_barrier {d : ℕ} (h : Mapping client input out d s)
    (hall : ∀ j, (s.pc j).reachedBarrier = true) (j : Fin T) : s.pc j = .barrier := by
  apply (h.points j).resolve_left
  intro hin
  have hreach := hall j
  cases hpc : s.pc j <;> simp_all [JobPc.inMap, JobPc.reachedBarrier]

/-- In the map phase somebody can move: one who has not arrived at the barrier, or everybody. -/
theorem Mapping.exists_step {d : ℕ} (h : Mapping client input out d s) (i : Fin T) :
    ∃ label s', jobStep client input label s = some s' := by
  by_cases hall : ∀ j, s.pc j = .barrier
  · exact ⟨(i, 0), jobStep_barrier (hall i) fun j => by rw [hall j]; rfl⟩
  · obtain ⟨j, hj⟩ := not_forall.mp hall
    obtain ⟨s', hs'⟩ := h.moves hj
    exact ⟨(j, 0), s', by rw [jobStep_of_inMap ((h.points j).resolve_right hj), hs']⟩

/-- Where the main worker can be in the shuffle phase. -/
theorem ShuffleAt.points {pairs : List (K × V)} {x : JobPc (K × V)}
    (h : ShuffleAt client pairs s x) :
    x = .barrier ∨ x = .barrierReduce ∨ x.inShuffle = true := by
  cases x with
  | barrier => exact .inl rfl
  | barrierReduce => exact .inr (.inl rfl)
  | shuffleCollect | shuffleSet | shuffleTop | shuffleLoop => exact .inr (.inr rfl)
  | _ => exact h.elim

/-- Where a worker can be in the shuffle phase. -/
theorem Shuffling.points {pairs : List (K × V)} (h : Shuffling client pairs out s) (i : Fin T) :
    s.pc i = .barrier ∨ s.pc i = .barrierReduce ∨ (s.pc i).inShuffle = true := by
  by_cases hi : i.val = 0
  · exact (h.main i hi).points
  · rcases h.others i hi with hpc | hpc
    · exact .inl hpc
    · exact .inr (.inl hpc)

section order

variable [IsStrictWeakOrder (K × V) client.compareByFirstElement]

/-- **Step rule.** Every step keeps a job in its phase or takes it to the next. -/
theorem Running.step (hlt : input.length < 2 ^ 31) (hpairs : input.flatMap client.map ≠ [])
    {label : Fin T × ℕ} (h : Running client input out s)
    (hstep : jobStep client input label s = some s') : Running client input out s' := by
  obtain ⟨i, pick⟩ := label
  cases h with
  | mapping d h =>
      rcases jobStep_mapping (h.points i) hstep with hstep | ⟨hpc, hall, rfl⟩
      · obtain ⟨d', h'⟩ := h.step hlt hstep
        exact .mapping d' h'
      · exact .shuffling ((h.shuffling i (h.all_at_barrier hall)).leave hpc)
  | shuffling h =>
      rcases jobStep_shuffling ((h.points i).imp_right (Or.imp_right .inr)) hstep with
        ⟨hpc, rfl⟩ | hstep' | ⟨-, hall, -⟩
      · exact .shuffling (h.leave hpc)
      · exact .shuffling (h.step hpairs hstep')
      · obtain ⟨groups, hgroups, hr⟩ := h.reducing (Fin.pos i) hall
        exact .reducing groups hgroups (hr.jobStep hstep)
  | reducing groups hgroups h => exact .reducing groups hgroups (h.jobStep hstep)

/-- In the shuffle phase somebody can move: one who is at the first barrier, the main worker, or
everybody at the second barrier. -/
theorem Shuffling.progress {pairs : List (K × V)} (h : Shuffling client pairs out s) (i : Fin T) :
    ∃ label s', jobStep client input label s = some s' := by
  by_cases hbarrier : ∃ j, s.pc j = .barrier
  · obtain ⟨j, hj⟩ := hbarrier
    refine ⟨(j, 0), jobStep_barrier hj ?_⟩
    intro k
    have hpoint := h.points k
    cases hpc : s.pc k <;> simp_all [JobPc.reachedBarrier, JobPc.inShuffle]
  have hno : ∀ j, s.pc j ≠ .barrier := not_exists.mp hbarrier
  by_cases hmain : s.pc ⟨0, Fin.pos i⟩ = .barrierReduce
  · refine ⟨(i, 0), jobStep_barrierReduce (?_ : s.pc i = .barrierReduce) ?_⟩
    · by_cases hi : i.val = 0
      · rwa [show i = ⟨0, Fin.pos i⟩ from Fin.ext hi]
      · exact (h.others i hi).resolve_left (hno i)
    · intro k
      by_cases hk : k.val = 0
      · rw [show k = ⟨0, Fin.pos i⟩ from Fin.ext hk, hmain]
        rfl
      · rw [(h.others k hk).resolve_left (hno k)]
        rfl
  · obtain ⟨pick, s', hs'⟩ := h.moves (i := ⟨0, Fin.pos i⟩) rfl (hno _) hmain
    have hin := ((h.points ⟨0, Fin.pos i⟩).resolve_left (hno _)).resolve_left hmain
    exact ⟨(⟨0, Fin.pos i⟩, pick), s', by rw [jobStep_of_inShuffle hin, hs']⟩

/-- **No schedule gets stuck** as long as somebody has not returned. -/
theorem Running.progress (h : Running client input out s) {i : Fin T} (hi : s.pc i ≠ .returned) :
    ∃ label s', jobStep client input label s = some s' := by
  cases h with
  | mapping d h => exact h.exists_step i
  | shuffling h => exact h.progress i
  | reducing groups hgroups h => exact h.progress hi

omit [IsStrictWeakOrder (K × V) client.compareByFirstElement] in
/-- A worker has returned in the reduce phase only. -/
theorem Running.reducing_of_returned (h : Running client input out s) {i : Fin T}
    (hi : s.pc i = .returned) : ∃ groups,
      IsGrouping client.compareByFirstElement (input.flatMap client.map) groups ∧
        Reducing client groups out s := by
  cases h with
  | mapping d h =>
      have hpoint := h.points i
      simp [hi, JobPc.inMap] at hpoint
  | shuffling h =>
      have hpoint := h.points i
      simp [hi, JobPc.inShuffle] at hpoint
  | reducing groups hgroups h => exact ⟨groups, hgroups, h⟩

omit [IsStrictWeakOrder (K × V) client.compareByFirstElement] in
/-- Nothing undefined happens. -/
theorem Running.defined (h : Running client input out s) (i : Fin T) : s.pc i ≠ .undefined := by
  intro hi
  cases h with
  | mapping d h =>
      have hpoint := h.points i
      simp [hi, JobPc.inMap] at hpoint
  | shuffling h =>
      have hpoint := h.points i
      simp [hi, JobPc.inShuffle] at hpoint
  | reducing groups hgroups h =>
      have hpoint := h.points i
      simp [hi, JobPc.reachedBarrierReduce] at hpoint

end order

/-! ## Whole jobs -/

section jobs

variable {level : ℕ}
  {s : JobContext (numOfThreads level input) (K × V) Out}
  [IsStrictWeakOrder K fun a b => client.lt a b = true]

/-- The order of pairs by their keys is a strict weak order, as that of the keys is. -/
instance : IsStrictWeakOrder (K × V) client.compareByFirstElement :=
  inferInstanceAs
    (IsStrictWeakOrder (K × V) (Function.onFun (fun a b => client.lt a b = true) Prod.fst))

/-- **Run rule.** The invariant of a job holds along every schedule. -/
theorem running_of_reachable (hlt : input.length < 2 ^ 31)
    (hpairs : input.flatMap client.map ≠ [])
    (h : (mapReduce client input level out).Reachable s) : Running client input out s := by
  refine h.invariant (P := Running client input out) ?_ fun _ _ _ hr hstep =>
    hr.step hlt hpairs hstep
  rintro _ rfl
  exact .mapping 0 .init

/-- What a finished job leaves. -/
theorem output_of_returned {T : ℕ} {s : JobContext T (K × V) Out}
    (hr : Running client input out s) (hT : 0 < T)
    (hreduce : ∀ g g' : List (K × V), g.Perm g' → client.reduce g = client.reduce g')
    (hall : ∀ i, s.pc i = .returned) : s.outputVec = out ++ sequential client input := by
  obtain ⟨groups, hgroups, hred⟩ := hr.reducing_of_returned (hall ⟨0, hT⟩)
  rw [hred.output, hred.reduced_eq ⟨0, hT⟩ hall, sequential,
    hgroups.flatMap_eq (isGrouping_classes _) hreduce]

/-- **A job computes the sequential map-reduce**, whatever the number of threads and the schedule:
once all workers have returned, the output vector has been extended by the outputs of the sequential
map-reduce. And until then some worker can move. -/
theorem job_computes_sequential (hlevel : 1 ≤ level) (hinput : input ≠ [])
    (hlt : input.length < 2 ^ 31) (hpairs : input.flatMap client.map ≠ [])
    (hreduce : ∀ g g' : List (K × V), g.Perm g' → client.reduce g = client.reduce g')
    (h : (mapReduce client input level out).Reachable s) :
    ((∀ i, s.pc i = .returned) → s.outputVec = out ++ sequential client input) ∧
      ((∃ i, s.pc i ≠ .returned) →
        ∃ label s', (mapReduce client input level out).step label s = some s') := by
  have hr := running_of_reachable hlt hpairs h
  refine ⟨?_, fun ⟨i, hi⟩ => hr.progress hi⟩
  have hT : 0 < numOfThreads level input :=
    numOfThreads_eq hlt ▸ lt_min hlevel (List.length_pos_iff.mpr hinput)
  exact output_of_returned hr hT hreduce

end jobs

/-- Counts numbers by parity. -/
def parityClient : Client ℕ ℕ ℕ ℕ where
  map n := [(n % 2, n)]
  reduce group := [group.length]
  lt a b := decide (a < b)

instance : IsStrictWeakOrder ℕ fun a b => parityClient.lt a b = true where
  irrefl a := by simp [parityClient]
  trans a b c := by
    simp only [parityClient, decide_eq_true_eq]
    omega
  incomp_trans a b c := by
    simp only [parityClient, decide_eq_true_eq]
    omega

/-- A schedule of two workers that runs the job on three numbers to its end. -/
def paritySchedule : List (Fin 2 × ℕ) :=
  [1, 0, 1, 0, 1, 0, 1, 0, 1, 0, 1, 0, 1, 0, 1, 0, 1, 1, 1, 0, 1, 0, 0, 0, 0, 0, 0, 0, 0, 0, 1, 0,
    1, 0, 1, 0, 1, 0, 1, 0, 1, 0, 0, 0, 1, 1, 1, 1, 0, 0, 0].map fun i => (i, 0)

/-- Two workers count the parities of three numbers. -/
theorem job_computes_sequential_run : ∃ s : JobContext 2 (ℕ × ℕ) ℕ,
    (mapReduce parityClient [3, 2, 5] 2 []).run paritySchedule (freshJob 2 []) = some s ∧
      s.outputVec = sequential parityClient [3, 2, 5] := by
  obtain ⟨s, hs⟩ : ∃ s : JobContext 2 (ℕ × ℕ) ℕ,
      (mapReduce parityClient [3, 2, 5] 2 []).run paritySchedule (freshJob 2 []) = some s :=
    ⟨_, rfl⟩
  have hr : (mapReduce parityClient [3, 2, 5] 2 []).Reachable s := .run (.init rfl) hs
  refine ⟨s, hs, (job_computes_sequential (by decide) (by decide) (by decide) (by decide)
    (fun g g' hg => by simp [parityClient, hg.length_eq]) hr).1 ?_⟩
  rw [show s = _ from (Option.some.inj hs).symm]
  decide

end CoreOS.MapReduce
