import CoreOS.MapReduce.BarrierReuse
import CoreOS.MapReduce.StatementRuns

/-!
# A job with its own barriers

The statements of a job together with those of `Barrier::barrier`: where `Statements` lets a worker
through a barrier once all have arrived, the worker here makes the call, statement by statement.

* `Program` and `programStep`: the workers, and the two barriers of the job.
* `Unprompted` wake-ups are excluded, as for the barrier on its own: `ProgramPrompted`.
* `Attended k s b`: what the calls made so far have to do with where the workers are.
* `program_refines`: **every run of the program is a run of statements with ideal barriers**.
* `program_terminates`: every schedule of the program ends, and then has computed the sequential
  map-reduce.
-/

namespace CoreOS.MapReduce.Statement

open CoreOS.Lib Function Finset

variable {Input K V Out P : Type*} {T : ℕ} {client : Client Input K V Out} {input : List Input}
  {out : List Out} {i : Fin T} {pick : ℕ}

/-! ## The machine -/

/-- A job and its barriers. -/
structure Program (T : ℕ) (P Out : Type*) where
  /-- The job; a worker in a call of `barrier()` is at that call. -/
  shared : Shared T P Out
  /-- `*barrier`. -/
  barrier : BarrierState T
  /-- `*barrier_reduce`. -/
  barrierReduce : BarrierState T

section machine

variable (client : Client Input K V Out) (input : List Input)

/-- The next statement of the worker `label.1`, in the job or in one of its two calls of
`Barrier::barrier`, which returns with its last statement.
Source: `MapReduceFramework.cpp`, `main_map_reduce_framework` -/
def programStep (label : Fin T × ℕ) (p : Program T (K × V) Out) :
    Option (Program T (K × V) Out) :=
  let i := label.1
  match p.shared.pc i with
  | .barrier => (barrierStep 1 i p.barrier).map fun b => { p with
      barrier := b
      shared :=
        if p.barrier.pc i = .unlock then
          p.shared.goto i (if i.val = 0 then .shuffleCollect else .barrierReduce)
        else p.shared }
  | .barrierReduce => (barrierStep 1 i p.barrierReduce).map fun b => { p with
      barrierReduce := b
      shared := if p.barrierReduce.pc i = .unlock then p.shared.goto i .reduceFlag else p.shared }
  | _ => (step client input label p.shared).map fun s => { p with shared := s }

/-- A fresh job and its barriers. Source: `MapReduceFramework.cpp`, `JobContext::JobContext` -/
def freshProgram (T : ℕ) (outputVec : List Out) : Program T P Out where
  shared := freshShared input T outputVec
  barrier := freshBarrier T
  barrierReduce := freshBarrier T

/-- A job started with `startMapReduceJob`, statement by statement, with its own barriers.
Source: `MapReduceFramework.cpp`, `startMapReduceJob` -/
def programJob (multiThreadLevel : ℕ) (outputVec : List Out) :
    Machine (Program (numOfThreads multiThreadLevel input) (K × V) Out)
      (Fin (numOfThreads multiThreadLevel input) × ℕ) where
  init p := p = freshProgram input _ outputVec
  step := programStep client input

end machine

/-- The worker that moves does not come back from a `pthread_cond_wait` during which no broadcast
was made. -/
def ProgramPrompted (p : Program T P Out) (label : Fin T × ℕ) : Prop :=
  Prompted p.barrier label.1 ∧ Prompted p.barrierReduce label.1

instance (p : Program T P Out) (label : Fin T × ℕ) : Decidable (ProgramPrompted p label) :=
  inferInstanceAs (Decidable (_ ∧ _))

/-- **What a step of the program is**: a statement of a call of `barrier()`, or one outside. -/
theorem programStep_cases {p p' : Program T (K × V) Out}
    (h : programStep client input (i, pick) p = some p') :
    (p.shared.pc i = .barrier ∧ ∃ b, (barrier T 1).step i p.barrier = some b ∧ p' = { p with
      barrier := b
      shared :=
        if p.barrier.pc i = .unlock then
          p.shared.goto i (if i.val = 0 then .shuffleCollect else .barrierReduce)
        else p.shared }) ∨
    (p.shared.pc i = .barrierReduce ∧ ∃ b, (barrier T 1).step i p.barrierReduce = some b ∧
      p' = { p with
        barrierReduce := b
        shared :=
          if p.barrierReduce.pc i = .unlock then p.shared.goto i .reduceFlag else p.shared }) ∨
    ((p.shared.pc i ≠ .barrier ∧ p.shared.pc i ≠ .barrierReduce) ∧
      ∃ s, step client input (i, pick) p.shared = some s ∧ p' = { p with shared := s }) := by
  unfold programStep at h
  dsimp only at h
  split at h
  case h_1 hpc =>
    obtain ⟨b, hb, rfl⟩ := Option.map_eq_some_iff.mp h
    exact .inl ⟨hpc, b, hb, rfl⟩
  case h_2 hpc =>
    obtain ⟨b, hb, rfl⟩ := Option.map_eq_some_iff.mp h
    exact .inr (.inl ⟨hpc, b, hb, rfl⟩)
  case h_3 hbarrier hreduce =>
    obtain ⟨s, hs, rfl⟩ := Option.map_eq_some_iff.mp h
    exact .inr (.inr ⟨⟨hbarrier, hreduce⟩, s, hs, rfl⟩)

/-! ## Calls of a barrier -/

section calls

variable {b b' : BarrierState T} {s s' : Shared T P Out} {k : ℕ}

/-- The statements left in a call. -/
def callLeft : Pc → ℕ
  | .idle => 7
  | .lock => 6
  | .increment => 5
  | .wait => 4
  | .waiting _ | .reset => 3
  | .broadcast => 2
  | .unlock => 1

/-- The statements that a worker has left in its one call. -/
def callsLeft (b : BarrierState T) (j : Fin T) : ℕ :=
  if b.returned j = 0 then callLeft (b.pc j) else 0

theorem callLeft_signal (pc : Pc) : callLeft pc.signal = callLeft pc := by
  cases pc <;> rfl

/-- What a step of a call does to the calls of the others, and to its own. -/
theorem barrierStep_counts (hstep : (barrier T 1).step i b = some b') :
    (∀ j, j ≠ i → b'.entered j = b.entered j ∧ b'.returned j = b.returned j ∧
      callLeft (b'.pc j) = callLeft (b.pc j)) ∧
    b'.returned i = (if b.pc i = .unlock then b.returned i + 1 else b.returned i) ∧
    (b.pc i ≠ .unlock → callLeft (b'.pc i) < callLeft (b.pc i)) := by
  simp only [barrier, barrierStep] at hstep
  split at hstep
  case h_3 hpc =>
    cases hstep
    refine ⟨fun j hj => by simp [hj], by simp [hpc], fun _ => ?_⟩
    simp only [hpc, update_self]
    split_ifs <;> simp [callLeft]
  case h_7 hpc =>
    cases hstep
    exact ⟨fun j hj => by simp [hj, callLeft_signal], by simp [hpc], by simp [hpc, callLeft]⟩
  all_goals
    next hpc =>
      first | split_ifs at hstep | skip
      cases hstep
      exact ⟨fun j hj => by simp [hj], by simp [hpc], by simp [hpc, callLeft]⟩

/-- A step of a call brings its end nearer. -/
theorem barrierStep_callsLeft (hstep : (barrier T 1).step i b = some b') (hi : b.returned i = 0) :
    ∑ j, callsLeft b' j < ∑ j, callsLeft b j := by
  obtain ⟨hothers, hreturned, hleft⟩ := barrierStep_counts hstep
  have hsame : ∀ j, j ≠ i → callsLeft b' j = callsLeft b j := by
    intro j hj
    obtain ⟨-, hret, hpc⟩ := hothers j hj
    rw [callsLeft, callsLeft, hret, hpc]
  have hlt : callsLeft b' i < callsLeft b i := by
    rw [callsLeft, callsLeft, if_pos hi, hreturned, hi]
    split_ifs with hunlock h h
    · cases h
    · rw [hunlock]
      exact Nat.one_pos
    · exact hleft hunlock
    · exact absurd rfl h
  refine Finset.sum_lt_sum (fun j _ => ?_) ⟨i, mem_univ i, hlt⟩
  by_cases hj : j = i
  · rw [hj]
    exact hlt.le
  · exact (hsame j hj).le

/-- Nobody has returned from more calls than everybody has entered. -/
theorem returned_le_entered {g : ℕ} (hg : Generation T g b) (i j : Fin T) :
    b.returned i ≤ b.entered j := by
  have hret := hg.returned i
  have hi := hg.entered i
  have hj := hg.entered j
  have hidle : b.pc i = .idle → (b.pc i).passed = true := fun e => by rw [e]; rfl
  split_ifs at hret hi hj <;> simp_all <;> omega

/-- The calls of the barrier of phase `k`, with respect to where the workers are: who has not come
so far has not entered its call, and who has gone further has returned from it. -/
structure Attended (k : ℕ) (s : Shared T P Out) (b : BarrierState T) : Prop where
  reachable : (barrier T 1).ReachableBy Prompted b
  entered : ∀ j, (s.pc j).phase < k → b.entered j = 0
  returned : ∀ j, b.returned j = if k < (s.pc j).phase then 1 else 0

namespace Attended

theorem init : Attended k (freshShared input T out : Shared T P Out)
    (freshBarrier T) where
  reachable := .init rfl
  entered _ _ := rfl
  returned _ := (if_neg (Nat.not_lt_zero k)).symm

/-- A worker goes on, not past this barrier. -/
theorem move (h : Attended k s b) {y : Point P} (hpc : s'.pc = update s.pc i y)
    (hle : (s.pc i).phase ≤ y.phase) (hpast : k < y.phase → k < (s.pc i).phase) :
    Attended k s' b where
  reachable := h.reachable
  entered j hj := by
    rw [hpc] at hj
    by_cases hji : j = i
    · rw [hji, update_self] at hj
      rw [hji]
      exact h.entered i (by omega)
    · rw [update_of_ne hji] at hj
      exact h.entered j hj
  returned j := by
    rw [hpc, h.returned j]
    by_cases hji : j = i
    · rw [hji, update_self]
      exact if_congr ⟨fun hlt => hlt.trans_le hle, hpast⟩ rfl rfl
    · rw [update_of_ne hji]

/-- The call goes on. -/
theorem call (h : Attended k s b) (hi : (s.pc i).phase = k) (hok : Prompted b i)
    (hstep : (barrier T 1).step i b = some b') (hgoes : b.pc i ≠ .unlock) : Attended k s b' where
  reachable := h.reachable.step hok hstep
  entered j hj := by
    have hji : j ≠ i := by
      rintro rfl
      omega
    rw [((barrierStep_counts hstep).1 j hji).1]
    exact h.entered j hj
  returned j := by
    obtain ⟨hothers, hreturned, -⟩ := barrierStep_counts hstep
    rw [← h.returned j]
    by_cases hji : j = i
    · rw [hji, hreturned, if_neg hgoes]
    · exact (hothers j hji).2.1

/-- The call returns, and all have arrived. -/
theorem leave (h : Attended k s b) (hi : (s.pc i).phase = k) (hok : Prompted b i)
    (hstep : (barrier T 1).step i b = some b') (hreturns : b.pc i = .unlock) {y : Point P}
    (hy : k < y.phase) : (∀ j, k ≤ (s.pc j).phase) ∧ Attended k (s.goto i y) b' := by
  obtain ⟨hothers, hreturned, -⟩ := barrierStep_counts hstep
  have hreach := h.reachable.step hok hstep
  obtain ⟨g, hg⟩ := generation_of_reachable (Fin.pos i) hreach
  rw [if_pos hreturns, h.returned i, if_neg (by omega)] at hreturned
  have hall : ∀ j, k ≤ (s.pc j).phase := by
    intro j
    by_contra hj
    have hji : j ≠ i := by
      rintro rfl
      omega
    have hentered := returned_le_entered hg i j
    rw [(hothers j hji).1, h.entered j (by omega), hreturned] at hentered
    omega
  refine ⟨hall, hreach, ?_, ?_⟩
  · intro j hj
    by_cases hji : j = i
    · rw [hji, goto_pc_self] at hj
      omega
    · rw [goto_pc_of_ne hji] at hj
      exact absurd (hall j) (by omega)
  · intro j
    by_cases hji : j = i
    · rw [hji, goto_pc_self, if_pos hy, hreturned]
    · rw [goto_pc_of_ne hji, ← h.returned j]
      exact (hothers j hji).2.1

/-- A worker that is not at the barrier is in no call of it. -/
theorem idle (h : Attended k s b) {j : Fin T} (hj : (s.pc j).phase ≠ k) : b.pc j = .idle := by
  obtain ⟨g, hg⟩ := generation_of_reachable (Fin.pos j) h.reachable
  have hle := entered_le h.reachable.reachable j
  have hret := hg.returned j
  rw [h.returned j] at hret
  by_contra hidle
  rw [if_neg hidle] at hret
  split_ifs at hret with hpast
  · omega
  · rw [h.entered j (by omega)] at hret
    omega

theorem prompted (h : Attended k s b) {j : Fin T} (hj : (s.pc j).phase ≠ k) : Prompted b j := by
  rw [Prompted, h.idle hj]
  nofun

/-- Once all have arrived, somebody in the call can go on. -/
theorem exists_call (h : Attended k s b) (hall : ∀ j, k ≤ (s.pc j).phase)
    (hi : (s.pc i).phase = k) :
    ∃ j b', (s.pc j).phase = k ∧ Prompted b j ∧ (barrier T 1).step j b = some b' := by
  obtain ⟨g, hg⟩ := generation_of_reachable (Fin.pos i) h.reachable
  obtain ⟨j, b', hok, hstep⟩ := hg.exists_step (entered_le h.reachable.reachable) (i := i)
    (by rw [h.returned i, hi, if_neg (lt_irrefl k)]; exact Nat.one_pos)
  refine ⟨j, b', ?_, hok, hstep⟩
  by_contra hj
  -- it has returned, and does not call again
  have hidle := h.idle hj
  have hret := hg.returned j
  have hpast : k < (s.pc j).phase := lt_of_le_of_ne (hall j) (Ne.symm hj)
  rw [h.returned j, if_pos hpast, if_pos hidle] at hret
  simp only [barrier, barrierStep, hidle, ← hret] at hstep
  cases hstep

end Attended

end calls

/-! ## Refinement -/

/-- Outside the barriers nobody gets past a barrier. -/
theorem step_phase {s s' : Shared T (K × V) Out} (hbarrier : s.pc i ≠ .barrier)
    (hreduce : s.pc i ≠ .barrierReduce) (hstep : step client input (i, pick) s = some s') :
    ∃ y, s'.pc = update s.pc i y ∧ (s.pc i).phase ≤ y.phase ∧
      (1 < y.phase → 1 < (s.pc i).phase) ∧ (3 < y.phase → 3 < (s.pc i).phase) := by
  have hleads : ∀ {y}, Moves i s s' y → Leads (s.pc i) y → ∃ y, s'.pc = update s.pc i y ∧
      (s.pc i).phase ≤ y.phase ∧ (1 < y.phase → 1 < (s.pc i).phase) ∧
        (3 < y.phase → 3 < (s.pc i).phase) :=
    fun hmoves hleads =>
      ⟨_, hmoves.pc, hleads.phase, hleads.barrier, hleads.barrierReduce⟩
  rcases step_cases hstep with ⟨call, value, point, hpc, hs⟩ | hs | hs | ⟨hpc, -, -⟩ | hs |
    ⟨hpc, -, -⟩ | hs
  · obtain ⟨y, hy, -, -, hphase⟩ := setStep_pc hs
    rw [hpc, ← hphase]
    exact ⟨y, hy, le_rfl, id, id⟩
  · obtain ⟨y, hmoves, hy⟩ := mapStep_leads hs
    exact hleads hmoves hy
  · obtain ⟨y, hmoves, hy⟩ := sortStep_leads hs
    exact hleads hmoves hy
  · exact absurd hpc hbarrier
  · obtain ⟨y, hmoves, hy⟩ := shuffleStep_leads hs
    exact hleads hmoves hy
  · exact absurd hpc hreduce
  · obtain ⟨y, hmoves, hy⟩ := reduceStep_leads hs
    exact hleads hmoves hy

/-- What the calls of the two barriers have to do with where the workers are. -/
structure Program.Linked (p : Program T P Out) : Prop where
  barrier : Attended 1 p.shared p.barrier
  barrierReduce : Attended 3 p.shared p.barrierReduce

/-- The statements that the workers have left in the calls of both barriers. -/
def Program.callsLeft (p : Program T P Out) : ℕ :=
  ∑ j, Statement.callsLeft p.barrier j + ∑ j, Statement.callsLeft p.barrierReduce j

/-- **Step lemma.** A statement of the program is a statement with ideal barriers, or one of a call
that goes on; that brings the end of the call nearer. -/
theorem Program.Linked.step {p p' : Program T (K × V) Out} (h : p.Linked)
    (hok : ProgramPrompted p (i, pick)) (hstep : programStep client input (i, pick) p = some p') :
    p'.Linked ∧ p'.callsLeft ≤ p.callsLeft ∧
      (Statement.step client input (i, pick) p.shared = some p'.shared ∨
        p'.shared = p.shared ∧ p'.callsLeft < p.callsLeft) := by
  rcases programStep_cases hstep with ⟨hpc, b, hb, rfl⟩ | ⟨hpc, b, hb, rfl⟩ |
    ⟨⟨hbarrier, hreduce⟩, s, hs, rfl⟩
  · have hphase : (p.shared.pc i).phase = 1 := by rw [hpc]; rfl
    have hleft := barrierStep_callsLeft hb (by rw [h.barrier.returned, hphase]; rfl)
    have hlt : ∑ j, Statement.callsLeft b j + ∑ j, Statement.callsLeft p.barrierReduce j <
        p.callsLeft := Nat.add_lt_add_right hleft _
    by_cases hreturns : p.barrier.pc i = .unlock
    · have hy : 1 <
          (if i.val = 0 then .shuffleCollect else .barrierReduce : Point (K × V)).phase := by
        split_ifs <;> exact Nat.le_of_ble_eq_true rfl
      obtain ⟨hall, hattended⟩ := h.barrier.leave hphase hok.1 hb hreturns hy
      rw [if_pos hreturns]
      refine ⟨⟨hattended, h.barrierReduce.move rfl ?_ ?_⟩, hlt.le, .inl ?_⟩
      · rw [hphase]
        exact hy.le
      · intro hpast
        split_ifs at hpast <;> exact absurd hpast (Nat.not_lt.mpr (Nat.le_of_ble_eq_true rfl))
      · simp only [Statement.step, hpc]
        exact if_pos hall
    · rw [if_neg hreturns]
      exact ⟨⟨h.barrier.call hphase hok.1 hb hreturns, h.barrierReduce⟩, hlt.le, .inr ⟨rfl, hlt⟩⟩
  · have hphase : (p.shared.pc i).phase = 3 := by rw [hpc]; rfl
    have hleft := barrierStep_callsLeft hb (by rw [h.barrierReduce.returned, hphase]; rfl)
    have hlt : ∑ j, Statement.callsLeft p.barrier j + ∑ j, Statement.callsLeft b j <
        p.callsLeft := Nat.add_lt_add_left hleft _
    by_cases hreturns : p.barrierReduce.pc i = .unlock
    · obtain ⟨hall, hattended⟩ := h.barrierReduce.leave (y := .reduceFlag) hphase hok.2 hb hreturns
        (Nat.lt_succ_self 3)
      rw [if_pos hreturns]
      refine ⟨⟨h.barrier.move rfl ?_ ?_, hattended⟩, hlt.le, .inl ?_⟩
      · rw [hphase]
        exact Nat.le_succ 3
      · rw [hphase]
        exact fun _ => Nat.le_of_ble_eq_true rfl
      · simp only [Statement.step, hpc]
        exact if_pos hall
    · rw [if_neg hreturns]
      exact ⟨⟨h.barrier, h.barrierReduce.call hphase hok.2 hb hreturns⟩, hlt.le, .inr ⟨rfl, hlt⟩⟩
  · obtain ⟨y, hy, hle, hpast, hpast'⟩ := step_phase hbarrier hreduce hs
    exact ⟨⟨h.barrier.move hy hle hpast, h.barrierReduce.move hy hle hpast'⟩, le_rfl, .inl hs⟩

theorem Program.Linked.fresh : (freshProgram input T out : Program T P Out).Linked where
  barrier := .init
  barrierReduce := .init

section jobs

variable {level : ℕ}

/-- **Every run of the program is a run of statements with ideal barriers**, as long as no
`pthread_cond_wait` comes back without a broadcast. -/
theorem program_refines : Machine.Simulation (programJob client input level out) ProgramPrompted
    (statementJob client input level out) fun p s => p.shared = s ∧ p.Linked where
  init := by
    rintro _ rfl
    exact ⟨_, rfl, rfl, Program.Linked.fresh⟩
  step := by
    rintro ⟨i, pick⟩ p p' _ ⟨rfl, h⟩ hok hstep
    obtain ⟨h', -, hs | ⟨hsame, -⟩⟩ := h.step hok hstep
    · exact ⟨[(i, pick)], _, (Machine.run_singleton _).mpr hs, rfl, h'⟩
    · exact ⟨[], _, rfl, hsame, h'⟩

end jobs

/-! ## Termination -/

theorem Point.eq_barrier {x : Point P} (h : x.phase = 1) : x = .barrier := by
  cases x with
  | barrier => rfl
  | setAtomic call => cases call <;> cases h
  | _ => cases h

theorem Point.eq_barrierReduce {x : Point P} (h : x.phase = 3) : x = .barrierReduce := by
  cases x with
  | barrierReduce => rfl
  | setAtomic call => cases call <;> cases h
  | _ => cases h

section termination

variable {p p' : Program T (K × V) Out} {t : JobContext T (K × V) Out}

theorem programStep_barrier {b : BarrierState T} (hpc : p.shared.pc i = .barrier)
    (hb : (MapReduce.barrier T 1).step i p.barrier = some b) :
    ∃ p', programStep client input (i, pick) p = some p' := by
  simp only [programStep, hpc]
  exact ⟨_, Option.map_eq_some_iff.mpr ⟨b, hb, rfl⟩⟩

theorem programStep_barrierReduce {b : BarrierState T} (hpc : p.shared.pc i = .barrierReduce)
    (hb : (MapReduce.barrier T 1).step i p.barrierReduce = some b) :
    ∃ p', programStep client input (i, pick) p = some p' := by
  simp only [programStep, hpc]
  exact ⟨_, Option.map_eq_some_iff.mpr ⟨b, hb, rfl⟩⟩

theorem programStep_of_step {s : Shared T (K × V) Out} (hbarrier : p.shared.pc i ≠ .barrier)
    (hreduce : p.shared.pc i ≠ .barrierReduce)
    (hs : step client input (i, pick) p.shared = some s) :
    ∃ p', programStep client input (i, pick) p = some p' := by
  unfold programStep
  dsimp only
  split
  case h_1 hpc => exact absurd hpc hbarrier
  case h_2 hpc => exact absurd hpc hreduce
  case h_3 => exact ⟨_, Option.map_eq_some_iff.mpr ⟨s, hs, rfl⟩⟩

/-- **Somebody can move**, without a wake-up out of nothing, if somebody can with ideal barriers. -/
theorem Program.Linked.exists_step (h : p.Linked) {label : Fin T × ℕ} {s : Shared T (K × V) Out}
    (hs : Statement.step client input label p.shared = some s) :
    ∃ label p', ProgramPrompted p label ∧ programStep client input label p = some p' := by
  obtain ⟨i, pick⟩ := label
  by_cases hbarrier : p.shared.pc i = .barrier
  · have hall : ∀ j, 1 ≤ (p.shared.pc j).phase := by
      simp only [Statement.step, hbarrier] at hs
      exact (Option.ite_none_right_eq_some.mp hs).1
    obtain ⟨j, b, hj, hok, hb⟩ := h.barrier.exists_call hall (i := i) (by rw [hbarrier]; rfl)
    obtain ⟨p', hp'⟩ : ∃ p', programStep client input (j, 0) p = some p' :=
      programStep_barrier (Point.eq_barrier hj) hb
    have hne : (p.shared.pc j).phase ≠ 3 := by omega
    exact ⟨(j, 0), p', ⟨hok, h.barrierReduce.prompted hne⟩, hp'⟩
  by_cases hreduce : p.shared.pc i = .barrierReduce
  · have hall : ∀ j, 3 ≤ (p.shared.pc j).phase := by
      simp only [Statement.step, hreduce] at hs
      exact (Option.ite_none_right_eq_some.mp hs).1
    obtain ⟨j, b, hj, hok, hb⟩ := h.barrierReduce.exists_call hall (i := i) (by rw [hreduce]; rfl)
    obtain ⟨p', hp'⟩ : ∃ p', programStep client input (j, 0) p = some p' :=
      programStep_barrierReduce (Point.eq_barrierReduce hj) hb
    have hne : (p.shared.pc j).phase ≠ 1 := by omega
    exact ⟨(j, 0), p', ⟨h.barrier.prompted hne, hok⟩, hp'⟩
  · obtain ⟨p', hp'⟩ := programStep_of_step hbarrier hreduce hs
    have hne : (p.shared.pc i).phase ≠ 1 := fun e => hbarrier (Point.eq_barrier e)
    have hne' : (p.shared.pc i).phase ≠ 3 := fun e => hreduce (Point.eq_barrierReduce e)
    exact ⟨(i, pick), p', ⟨h.barrier.prompted hne, h.barrierReduce.prompted hne'⟩, hp'⟩

/-- What is known of a state of the program of a job with pairs. -/
structure Program.RunsAs (client : Client Input K V Out) (input : List Input) (out : List Out)
    (p : Program T (K × V) Out) (t : JobContext T (K × V) Out) : Prop where
  linked : p.Linked
  statements : Statement.RunsAs client input out p.shared t

theorem Program.RunsAs.init :
    (freshProgram input T out : Program T (K × V) Out).RunsAs client input out (freshJob T out) where
  linked := .fresh
  statements := .init

/-- The statements that a job with `n` pairs has left, those of its barriers' calls included. -/
def programMeasure (size n : ℕ) (p : Program T P Out) (t : JobContext T P Out) : ℕ :=
  statementMeasure size n p.shared t + p.callsLeft

variable [IsStrictWeakOrder (K × V) client.compareByFirstElement]

/-- **Step lemma.** Every statement of the program lowers the measure. -/
theorem Program.RunsAs.advance (hlt : input.length < 2 ^ 31)
    (hpairs : input.flatMap client.map ≠ []) (h : p.RunsAs client input out t)
    {label : Fin T × ℕ} (hok : ProgramPrompted p label)
    (hstep : programStep client input label p = some p') :
    ∃ t', (t' = t ∨ ∃ label, jobStep client input label t = some t') ∧
      p'.RunsAs client input out t' ∧
      programMeasure input.length (input.flatMap client.map).length p' t' <
        programMeasure input.length (input.flatMap client.map).length p t := by
  obtain ⟨i, pick⟩ := label
  obtain ⟨hlinked, hle, hs | ⟨hsame, hdrop⟩⟩ := h.linked.step hok hstep
  · obtain ⟨t', hjob, ht', hdrop⟩ := h.statements.advance hlt hpairs hs
    exact ⟨t', hjob, ⟨hlinked, ht'⟩, Nat.add_lt_add_of_lt_of_le hdrop hle⟩
  · refine ⟨t, .inl rfl, ⟨hlinked, hsame ▸ h.statements⟩, ?_⟩
    rw [programMeasure, programMeasure, hsame]
    exact Nat.add_lt_add_left hdrop _

/-- **Nobody is left behind.** -/
theorem Program.RunsAs.exists_step (h : p.RunsAs client input out t)
    (hi : p.shared.pc i ≠ .returned) :
    ∃ label p', ProgramPrompted p label ∧ programStep client input label p = some p' := by
  obtain ⟨label, s, hs⟩ := h.statements.exists_step hi
  exact h.linked.exists_step hs

end termination

/-! ## Whole jobs -/

section runs

variable {level : ℕ} [IsStrictWeakOrder K fun a b => client.lt a b = true]

/-- What a finished job leaves. -/
theorem Program.RunsAs.output {p : Program T (K × V) Out} {t : JobContext T (K × V) Out}
    (h : p.RunsAs client input out t) (hT : 0 < T)
    (hreduce : ∀ g g' : List (K × V), g.Perm g' → client.reduce g = client.reduce g')
    (hall : ∀ j, p.shared.pc j = .returned) :
    p.shared.outputVec = out ++ sequential client input := by
  have habs := h.statements.refines.abstracts
  rw [← habs.outputVec]
  refine output_of_returned h.statements.running hT hreduce fun j => ?_
  rw [habs.pc, hall j]
  rfl

/-- **Run lemma.** No schedule is longer than the measure of the fresh job. -/
theorem program_run (hlt : input.length < 2 ^ 31) (hpairs : input.flatMap client.map ≠ [])
    {labels : List (Fin (numOfThreads level input) × ℕ)}
    {p : Program (numOfThreads level input) (K × V) Out}
    (hrun : (programJob client input level out).runBy ProgramPrompted labels
      (freshProgram input _ out) = some p) :
    ∃ t, p.RunsAs client input out t ∧
      labels.length + programMeasure input.length (input.flatMap client.map).length p t ≤
        programMeasure input.length (input.flatMap client.map).length
          (freshProgram input (numOfThreads level input) out : Program _ (K × V) Out)
          (freshJob _ out) :=
  Machine.runBy_measure (R := Program.RunsAs client input out)
    (fun _ _ _ _ h hok hstep => (h.advance hlt hpairs hok hstep).imp fun _ => And.right) labels
    .init hrun

/-- A bound on the statements of a job with `T` workers, `size` inputs and `n` pairs. -/
def statementBound (T size n : ℕ) : ℕ := 6 * jobBound T size n + 5 * T + 14 * T

theorem programMeasure_fresh {size n : ℕ} (i : Fin T) :
    programMeasure size n (freshProgram input T out : Program T P Out) (freshJob T out) =
      statementBound T size n := by
  rw [programMeasure, statementMeasure, jobMeasure_fresh i]
  simp only [freshProgram, freshShared, Point.statementsLeft, Program.callsLeft,
    Statement.callsLeft, freshBarrier, callLeft, if_pos, sum_const, card_univ, Fintype.card_fin,
    smul_eq_mul, statementBound]
  omega

/-- **Every schedule of a job ends**, its barriers' own code included: as long as no
`pthread_cond_wait` comes back without a broadcast, no schedule is longer than `statementBound`; and
one that cannot be continued has brought all workers to their return, with the output vector
extended by the outputs of the sequential map-reduce. -/
theorem program_terminates (hlevel : 1 ≤ level) (hinput : input ≠ [])
    (hlt : input.length < 2 ^ 31) (hpairs : input.flatMap client.map ≠ [])
    (hreduce : ∀ g g' : List (K × V), g.Perm g' → client.reduce g = client.reduce g')
    {labels : List (Fin (numOfThreads level input) × ℕ)}
    {p : Program (numOfThreads level input) (K × V) Out}
    (hrun : (programJob client input level out).runBy ProgramPrompted labels
      (freshProgram input _ out) = some p) :
    labels.length ≤ statementBound (numOfThreads level input) input.length
      (input.flatMap client.map).length ∧
    ((∀ label, ProgramPrompted p label →
        (programJob client input level out).step label p = none) →
      (∀ j, p.shared.pc j = .returned) ∧ p.shared.outputVec = out ++ sequential client input) := by
  have hT : 0 < numOfThreads level input :=
    numOfThreads_eq hlt ▸ lt_min hlevel (List.length_pos_iff.mpr hinput)
  obtain ⟨t, ht, hle⟩ := program_run hlt hpairs hrun
  rw [programMeasure_fresh ⟨0, hT⟩] at hle
  refine ⟨by omega, fun hstuck => ?_⟩
  have hall : ∀ j, p.shared.pc j = .returned := by
    intro j
    by_contra hj
    obtain ⟨label, p', hok, hstep⟩ := ht.exists_step hj
    have hnone := hstuck label hok
    rw [show (programJob client input level out).step label p = _ from hstep] at hnone
    cases hnone
  exact ⟨hall, ht.output hT hreduce hall⟩

end runs

/-- A schedule of two workers that pick the first pair on top of the queue; `0` is the main worker's
turn. -/
def twoWorkers (turns : List ℕ) : List (Fin 2 × ℕ) :=
  turns.map fun turn => (if turn = 0 then ⟨0, Nat.zero_lt_two⟩ else ⟨1, Nat.one_lt_two⟩, 0)

/-- A schedule of two workers, statement by statement, that runs a job on two numbers to its end. -/
def programSchedule : List (Fin 2 × ℕ) :=
  twoWorkers [0, 0, 0, 0, 0, 1, 0, 1, 0, 1, 0, 1, 0, 0, 0, 1, 0, 1, 0, 1, 1, 1, 0, 1, 0, 1, 0, 0, 0,
    1, 0, 1, 0, 1, 0, 1, 0, 1, 0, 1, 0, 1, 0, 1, 0, 1, 1, 1, 1, 1, 1, 1, 0, 1, 0, 1, 0, 1, 0, 1, 0,
    0, 0, 0, 0, 0, 0, 0, 0, 0, 0, 0, 0, 0, 0, 0, 0, 0, 0, 0, 0, 1, 0, 1, 0, 1, 0, 0, 0, 0, 0, 1, 0,
    1, 0, 1, 0, 1, 0, 1, 0, 1, 0, 0, 0, 1, 1, 1, 1, 1, 1, 1, 0, 0, 0]

set_option maxRecDepth 4000 in
/-- Two workers count the parities of two numbers. -/
theorem program_terminates_run : ∃ p : Program 2 (ℕ × ℕ) ℕ,
    (programJob parityClient [2, 3] 2 []).runBy ProgramPrompted programSchedule
      (freshProgram [2, 3] 2 []) = some p ∧
    programSchedule.length ≤ statementBound 2 2 2 ∧
    p.shared.outputVec = sequential parityClient [2, 3] := by
  obtain ⟨p, hp⟩ : ∃ p : Program 2 (ℕ × ℕ) ℕ,
      (programJob parityClient [2, 3] 2 []).runBy ProgramPrompted programSchedule
        (freshProgram [2, 3] 2 []) = some p := ⟨_, rfl⟩
  have hterm := program_terminates (by decide) (by decide) (by decide) (by decide)
    (fun g g' hg => by simp [parityClient, hg.length_eq]) hp
  refine ⟨p, hp, hterm.1, (hterm.2 fun label _ => ?_).2⟩
  obtain ⟨i, pick⟩ := label
  cases hp
  fin_cases i <;> rfl

end CoreOS.MapReduce.Statement
