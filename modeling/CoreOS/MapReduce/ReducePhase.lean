import CoreOS.MapReduce.JobCases

/-!
# The reduce phase

How the workers drain `vector_of_vectors`, guided by the semaphore.

* `Drain G s`: while a group is left, the tokens and the workers that `sem_wait` has let through
  make up for the groups left and nobody has left the loop; once none is left, nobody goes for the
  mutex, and a token, or a worker that will post one, is there for those that wait.
* `Reducing client groups out s`: the invariant of the phase, that with the order of the groups and
  the output so far.
* `Reducing.step`: every step of `reduce_phase` keeps it.
* `reduce_phase_protocol`: nothing is taken from an empty vector, the groups are reduced once and in
  order, and nobody is left waiting.
-/

namespace CoreOS.MapReduce

open CoreOS.Lib Function

variable {Input K V Out P : Type*} {T : ℕ} {client : Client Input K V Out} {input : List Input}

/-! ## Points of the loop -/

namespace JobPc

/-- Let through by `sem_wait`, and has not taken a group yet. -/
def through : JobPc P → Bool
  | reduceRetest | reduceLock => true
  | _ => false

/-- Has left the loop. -/
def left : JobPc P → Bool
  | semPost | returned => true
  | _ => false

/-- Is on its way to a `sem_post`, not having to wait for a token or for the mutex. -/
def active : JobPc P → Bool
  | barrierReduce | reduceFlag | reduceSet | reduceTest | reduceRetest | reducing _
  | semPost => true
  | _ => false

/-- Holds `Mutex_reduce`. -/
def holdsReduce : JobPc P → Bool
  | reducing _ => true
  | _ => false

variable {x : JobPc P}

theorem active_of_holdsReduce (h : x.holdsReduce = true) : x.active = true := by
  cases x <;> simp_all [holdsReduce, active]

/-- A worker that was let through waits for the mutex, if it waits. -/
theorem eq_reduceLock (h : x.through = true) (hwait : x.active = false) : x = reduceLock := by
  cases x <;> simp_all [through, active]

/-- What a worker of the reduce phase can wait for. -/
theorem cases_inactive (hreach : x.reachedBarrierReduce = true) (hwait : x.active = false) :
    x = semWait ∨ x = reduceLock ∨ x = returned := by
  cases x <;> simp_all [reachedBarrierReduce, active]

end JobPc

/-! ## Tokens and groups -/

/-- The balance of the semaphore and the groups; there were `G` groups at first. -/
def Drain (G : ℕ) (s : JobContext T P Out) : Prop :=
  (s.vectorOfVectors ≠ [] ∧ s.sem + tally JobPc.through s.pc = s.vectorOfVectors.length ∧
    s.waited + s.sem = G ∧ ∀ i, (s.pc i).left = false) ∨
  (s.vectorOfVectors = [] ∧ (∀ i, s.pc i ≠ .reduceLock) ∧
    (0 < s.sem ∨ ∃ i, (s.pc i).active = true))

section drain

variable {G : ℕ} {s s' : JobContext T P Out} {i : Fin T} {x : JobPc P}

/-- A worker moves, touching neither groups nor tokens. -/
theorem Drain.move (h : Drain G s) (hpc : s'.pc = update s.pc i x)
    (hvec : s'.vectorOfVectors = s.vectorOfVectors) (hsem : s'.sem = s.sem)
    (hwaited : s'.waited = s.waited)
    (hsome : s.vectorOfVectors ≠ [] → x.through = (s.pc i).through ∧ x.left = false)
    (hnone : s.vectorOfVectors = [] → x ≠ .reduceLock ∧ x.active = true) : Drain G s' := by
  rcases h with ⟨hne, hbal, hwait, hleft⟩ | ⟨hnil, hlock, -⟩
  · obtain ⟨hthrough, hx⟩ := hsome hne
    refine .inl ⟨hvec ▸ hne, ?_, by rw [hwaited, hsem, hwait], ?_⟩
    · rw [hpc, hsem, hvec, tally_update_same hthrough, hbal]
    · rw [hpc]
      exact forall_update (p := fun y : JobPc _ => y.left = false) hleft hx
  · obtain ⟨hx, hactive⟩ := hnone hnil
    refine .inr ⟨hvec.trans hnil, ?_, .inr ⟨i, by rw [hpc, update_self]; exact hactive⟩⟩
    rw [hpc]
    exact forall_update (p := fun y : JobPc _ => y ≠ .reduceLock) hlock hx

/-- `sem_wait` lets a worker through. -/
theorem Drain.semWait (h : Drain G s) (hpc : s.pc i = .semWait) (hsem : s.sem ≠ 0) :
    Drain G ({ s with sem := s.sem - 1, waited := s.waited + 1 }.goto i .reduceRetest) := by
  rcases h with ⟨hne, hbal, hwait, hleft⟩ | ⟨hnil, hlock, -⟩
  · refine .inl ⟨hne, ?_, ?_, forall_update (p := fun y : JobPc _ => y.left = false) hleft rfl⟩
    · show s.sem - 1 + tally JobPc.through (update s.pc i .reduceRetest) = s.vectorOfVectors.length
      rw [tally_update_enter (by rw [hpc]; rfl) rfl]
      omega
    · show s.waited + 1 + (s.sem - 1) = G
      omega
  · exact .inr ⟨hnil, forall_update (p := fun y : JobPc _ => y ≠ .reduceLock) hlock nofun,
      .inr ⟨i, by simp [JobContext.goto, JobPc.active]⟩⟩

/-- At the mutex there is a group to take; taking the last one leaves nobody let through. -/
theorem Drain.pop (h : Drain G s) (hpc : s.pc i = .reduceLock) :
    ∃ g rest, s.vectorOfVectors = g :: rest ∧
      Drain G ({ s with mutexReduce := some i, vectorOfVectors := rest }.goto i (.reducing g)) := by
  rcases h with ⟨hne, hbal, hwait, hleft⟩ | ⟨-, hlock, -⟩
  · obtain ⟨g, rest, hvec⟩ := List.exists_cons_of_ne_nil hne
    have htally :
        tally JobPc.through (update s.pc i (.reducing g)) + 1 = tally JobPc.through s.pc :=
      tally_update_leave (by rw [hpc]; rfl) rfl
    rw [hvec, List.length_cons] at hbal
    refine ⟨g, rest, hvec, ?_⟩
    cases rest with
    | nil =>
        refine .inr ⟨rfl, ?_, .inr ⟨i, by simp [JobContext.goto, JobPc.active]⟩⟩
        intro j hj
        have hzero : tally JobPc.through (update s.pc i (.reducing g)) = 0 := by
          simp only [List.length_nil] at hbal
          omega
        have := tally_eq_zero.mp hzero j
        rw [show update s.pc i (.reducing g) j = .reduceLock from hj] at this
        cases this
    | cons g' rest =>
        refine .inl ⟨by simp [JobContext.goto], ?_, hwait,
          forall_update (p := fun y : JobPc _ => y.left = false) hleft rfl⟩
        show s.sem + tally JobPc.through (update s.pc i (.reducing g)) = (g' :: rest).length
        omega
  · exact absurd hpc (hlock i)

/-- A worker that leaves the loop posts a token for those that wait. -/
theorem Drain.semPost (h : Drain G s) (hpc : s.pc i = .semPost) :
    Drain G ({ s with sem := s.sem + 1 }.goto i .returned) := by
  rcases h with ⟨-, -, -, hleft⟩ | ⟨hnil, hlock, -⟩
  · have := hleft i
    rw [hpc] at this
    cases this
  · exact .inr ⟨hnil, forall_update (p := fun y : JobPc _ => y ≠ .reduceLock) hlock nofun,
      .inl (Nat.succ_pos _)⟩

end drain

/-! ## The invariant -/

/-- The groups still to be reduced, that of the worker at `client->reduce` first. -/
def Pending (groups : List (List P)) (s : JobContext T P Out) : Prop :=
  (∃ i g, s.pc i = .reducing g ∧ s.reduced ++ g :: s.vectorOfVectors = groups) ∨
    ((∀ i, (s.pc i).holdsReduce = false) ∧ s.reduced ++ s.vectorOfVectors = groups)

/-- The state of the reduce phase; `out` was the output when it began. -/
structure Reducing (client : Client Input K V Out) (groups : List (List (K × V))) (out : List Out)
    (s : JobContext T (K × V) Out) : Prop where
  /-- Every worker has arrived at the reduce phase. -/
  points : ∀ i, (s.pc i).reachedBarrierReduce = true
  /-- The shuffle has finished. -/
  finished : s.finishedShuffle = true
  owned : Owned JobPc.holdsReduce s.pc s.mutexReduce
  pending : Pending groups s
  output : s.outputVec = out ++ s.reduced.flatMap client.reduce
  drain : Drain groups.length s

section reducing

variable {groups : List (List (K × V))} {out : List Out} {s s' : JobContext T (K × V) Out}
  {i : Fin T} {x : JobPc (K × V)}

/-- A move of a worker that does not hold the mutex leaves the pending groups as they are. -/
theorem Pending.move {P : Type*} {groups : List (List P)} {s s' : JobContext T P Out}
    {x : JobPc P} (h : Pending groups s) (hi : (s.pc i).holdsReduce = false)
    (hx : x.holdsReduce = false) (hpc : s'.pc = update s.pc i x)
    (hvec : s'.vectorOfVectors = s.vectorOfVectors) (hred : s'.reduced = s.reduced) :
    Pending groups s' := by
  rcases h with ⟨j, g, hj, hgroups⟩ | ⟨hfree, hgroups⟩
  · have hne : j ≠ i := by
      intro e
      rw [← e, hj] at hi
      cases hi
    exact .inl ⟨j, g, by rw [hpc, update_of_ne hne, hj], by rw [hred, hvec, hgroups]⟩
  · refine .inr ⟨?_, by rw [hred, hvec, hgroups]⟩
    rw [hpc]
    exact forall_update (p := fun y : JobPc _ => y.holdsReduce = false) hfree hx

/-- A move that touches neither the mutex, nor groups, nor the output. -/
theorem Reducing.move (h : Reducing client groups out s) (hpc : s'.pc = update s.pc i x)
    (hi : (s.pc i).holdsReduce = false) (hx : x.holdsReduce = false)
    (hreach : x.reachedBarrierReduce = true) (hfin : s'.finishedShuffle = s.finishedShuffle)
    (hmutex : s'.mutexReduce = s.mutexReduce) (hvec : s'.vectorOfVectors = s.vectorOfVectors)
    (hred : s'.reduced = s.reduced) (hout : s'.outputVec = s.outputVec)
    (hdrain : Drain groups.length s') : Reducing client groups out s' where
  points := by
    rw [hpc]
    exact forall_update (p := fun y : JobPc _ => y.reachedBarrierReduce = true) h.points hreach
  finished := hfin.trans h.finished
  owned := by
    rw [hpc, hmutex]
    exact h.owned.keep (by rw [hi, hx])
  pending := h.pending.move hi hx hpc hvec hred
  output := by rw [hout, hred, h.output]
  drain := hdrain

/-- A move that touches nothing shared. -/
theorem Reducing.goto (h : Reducing client groups out s) (hi : (s.pc i).holdsReduce = false)
    (hx : x.holdsReduce = false) (hreach : x.reachedBarrierReduce = true)
    (hsome : s.vectorOfVectors ≠ [] → x.through = (s.pc i).through ∧ x.left = false)
    (hnone : s.vectorOfVectors = [] → x ≠ .reduceLock ∧ x.active = true) :
    Reducing client groups out (s.goto i x) :=
  h.move (i := i) rfl hi hx hreach rfl rfl rfl rfl rfl
    (h.drain.move (i := i) rfl rfl rfl rfl hsome hnone)

/-- Starting the reduce stage touches nothing that the phase depends on. -/
theorem Reducing.setAtomic (h : Reducing client groups out s) (value : ℕ) :
    Reducing client groups out (setAtomic .reduceStage value s) := by
  unfold MapReduce.setAtomic
  dsimp only
  split_ifs
  · exact h
  · exact ⟨h.points, h.finished, h.owned, h.pending, h.output, h.drain⟩

/-- Nobody is at `client->reduce` while the mutex is free. -/
theorem Reducing.pending_of_free (h : Reducing client groups out s) (hfree : s.mutexReduce = none) :
    s.reduced ++ s.vectorOfVectors = groups := by
  rcases h.pending with ⟨j, g, hj, -⟩ | ⟨-, hgroups⟩
  · have hheld := (h.owned j).mpr (by rw [hj]; rfl)
    rw [hfree] at hheld
    cases hheld
  · exact hgroups

/-- Taking the mutex and the first group. -/
theorem Reducing.lock (h : Reducing client groups out s) (hpc : s.pc i = .reduceLock)
    (hfree : s.mutexReduce = none) : ∃ g rest, s.vectorOfVectors = g :: rest ∧
      Reducing client groups out
        ({ s with mutexReduce := some i, vectorOfVectors := rest }.goto i (.reducing g)) := by
  obtain ⟨g, rest, hvec, hdrain⟩ := h.drain.pop hpc
  have hgroups := h.pending_of_free hfree
  rw [hvec] at hgroups
  exact ⟨g, rest, hvec,
    { points := forall_update (p := fun y : JobPc _ => y.reachedBarrierReduce = true) h.points rfl
      finished := h.finished
      owned := Owned.acquire (hfree ▸ h.owned) rfl
      pending := .inl ⟨i, g, by simp [JobContext.goto], hgroups⟩
      output := h.output
      drain := hdrain }⟩

/-- Reducing the group at hand. -/
theorem Reducing.reduce (h : Reducing client groups out s) {g : List (K × V)}
    (hpc : s.pc i = .reducing g) : Reducing client groups out ({ s with
        outputVec := s.outputVec ++ client.reduce g
        progress := s.progress + BitVec.ofNat 64 g.length
        mutexReduce := none
        reduced := s.reduced ++ [g] }.goto i .reduceTest) := by
  have hheld : (s.pc i).holdsReduce = true := by rw [hpc]; rfl
  refine
    { points := forall_update (p := fun y : JobPc _ => y.reachedBarrierReduce = true) h.points rfl
      finished := h.finished
      owned := h.owned.release hheld rfl
      pending := .inr ⟨fun j => ?_, ?_⟩
      output := ?_
      drain := h.drain.move (i := i) (x := .reduceTest) rfl rfl rfl rfl
        (fun _ => ⟨by rw [hpc]; rfl, rfl⟩) fun _ => ⟨nofun, rfl⟩ }
  · show (update s.pc i JobPc.reduceTest j).holdsReduce = false
    simpa using (h.owned.release hheld (x := .reduceTest) rfl j).not.mp nofun
  · rcases h.pending with ⟨j, g', hj, hgroups⟩ | ⟨hfree, -⟩
    · obtain rfl : j = i := h.owned.unique (by rw [hj]; rfl) hheld
      rw [hpc] at hj
      cases hj
      simpa [JobContext.goto] using hgroups
    · rw [hfree i] at hheld
      cases hheld
  · show s.outputVec ++ client.reduce g = _
    rw [h.output]
    simp [JobContext.goto]

/-- **Step rule.** Every step of `reduce_phase` keeps the invariant. -/
theorem Reducing.step (h : Reducing client groups out s) (hstep : reduceStep client i s = some s') :
    Reducing client groups out s' := by
  cases reduceStep_moves hstep with
  | begin hpc =>
      exact h.goto (by rw [hpc]; rfl) rfl rfl (fun _ => ⟨by rw [hpc]; rfl, rfl⟩)
        fun _ => ⟨nofun, rfl⟩
  | skip hpc hfinished => exact absurd h.finished hfinished
  | set hpc =>
      exact (h.setAtomic s.numOfPairs).goto (by rw [setAtomic_pc, hpc]; rfl) rfl rfl
        (fun _ => ⟨by rw [setAtomic_pc, hpc]; rfl, rfl⟩) fun _ => ⟨nofun, rfl⟩
  | testEmpty hpc hnil | retestEmpty hpc hnil =>
      exact h.goto (by rw [hpc]; rfl) rfl rfl (fun hne => absurd hnil hne) fun _ => ⟨nofun, rfl⟩
  | test hpc hne | retest hpc hne =>
      exact h.goto (by rw [hpc]; rfl) rfl rfl (fun _ => ⟨by rw [hpc]; rfl, rfl⟩)
        fun hnil => absurd hnil hne
  | wait hpc hsem =>
      exact h.move (i := i) rfl (by rw [hpc]; rfl) rfl rfl rfl rfl rfl rfl rfl
        (h.drain.semWait hpc hsem)
  | noFront hpc hfree hnil =>
      obtain ⟨g, rest, hvec, -⟩ := h.lock hpc hfree
      rw [hnil] at hvec
      cases hvec
  | lock hpc hfree hcons =>
      obtain ⟨g, rest, hvec, hred⟩ := h.lock hpc hfree
      rw [hcons] at hvec
      cases hvec
      exact hred
  | reduce hpc => exact h.reduce hpc
  | post hpc =>
      exact h.move (i := i) rfl (by rw [hpc]; rfl) rfl rfl rfl rfl rfl rfl rfl
        (h.drain.semPost hpc)

/-- **Step rule**, for a worker of the whole job: it may also leave `barrier_reduce`. -/
theorem Reducing.jobStep (h : Reducing client groups out s) {label : Fin T × ℕ}
    (hstep : jobStep client input label s = some s') : Reducing client groups out s' := by
  obtain ⟨i, pick⟩ := label
  rcases jobStep_reducing (h.points i) hstep with ⟨hpc, rfl⟩ | hstep
  · exact h.goto (by rw [hpc]; rfl) rfl rfl (fun _ => ⟨by rw [hpc]; rfl, rfl⟩) fun _ => ⟨nofun, rfl⟩
  · exact h.step hstep

/-! ## Progress -/

/-- A worker that waits for nothing can move. -/
theorem Reducing.active_moves (h : Reducing client groups out s) (hi : (s.pc i).active = true)
    (pick : ℕ) : ∃ s', MapReduce.jobStep client input (i, pick) s = some s' := by
  by_cases hpc : s.pc i = .barrierReduce
  · exact jobStep_barrierReduce hpc h.points
  · rw [jobStep_of_inReduce (by cases hpi : s.pc i <;> simp_all [JobPc.active, JobPc.inReduce])]
    unfold reduceStep
    cases hpi : s.pc i <;> simp_all [JobPc.active]

/-- A worker that waits for the mutex can take it, unless its holder can move. -/
theorem Reducing.lock_moves (h : Reducing client groups out s) (hpc : s.pc i = .reduceLock)
    (hno : ∀ j, (s.pc j).active = false) (pick : ℕ) :
    ∃ s', MapReduce.jobStep client input (i, pick) s = some s' := by
  have hfree : s.mutexReduce = none := by
    rw [Option.eq_none_iff_forall_ne_some]
    intro j hj
    have hactive := JobPc.active_of_holdsReduce ((h.owned j).mp hj)
    rw [hno j] at hactive
    cases hactive
  obtain ⟨g, rest, hvec, -⟩ := h.lock hpc hfree
  simp only [jobStep_of_inReduce (by rw [hpc]; rfl), reduceStep, hpc, if_pos hfree, hvec]
  exact ⟨_, rfl⟩

/-- **Nobody is left behind.** Somebody can move as long as somebody has not returned. -/
theorem Reducing.progress (h : Reducing client groups out s) (hi : s.pc i ≠ .returned) :
    ∃ label s', MapReduce.jobStep client input label s = some s' := by
  by_cases hact : ∃ j, (s.pc j).active = true
  · obtain ⟨j, hj⟩ := hact
    exact ⟨(j, 0), h.active_moves hj 0⟩
  have hno : ∀ j, (s.pc j).active = false := by
    intro j
    simpa using fun hj => hact ⟨j, hj⟩
  rcases JobPc.cases_inactive (h.points i) (hno i) with hpc | hpc | hpc
  · by_cases hsem : s.sem = 0
    · rcases h.drain with ⟨hne, hbal, -, -⟩ | ⟨-, -, hpos | hactive⟩
      · -- the tokens have gone to workers on their way to the mutex
        have hlen : 0 < s.vectorOfVectors.length := List.length_pos_iff.mpr hne
        have htally : 0 < tally JobPc.through s.pc := by omega
        obtain ⟨k, hk⟩ := exists_of_tally_pos htally
        exact ⟨(k, 0), h.lock_moves (JobPc.eq_reduceLock hk (hno k)) hno 0⟩
      · omega
      · exact absurd hactive hact
    · refine ⟨(i, 0), ?_⟩
      simp only [jobStep_of_inReduce (by rw [hpc]; rfl), reduceStep, hpc, if_neg hsem]
      exact ⟨_, rfl⟩
  · exact ⟨(i, 0), h.lock_moves hpc hno 0⟩
  · exact absurd hpc hi

/-- When everybody has returned every group has been reduced. -/
theorem Reducing.reduced_eq (h : Reducing client groups out s) (i : Fin T)
    (hall : ∀ j, s.pc j = .returned) : s.reduced = groups := by
  have hnil : s.vectorOfVectors = [] := by
    rcases h.drain with ⟨-, -, -, hleft⟩ | ⟨hnil, -⟩
    · have := hleft i
      rw [hall i] at this
      cases this
    · exact hnil
  rcases h.pending with ⟨j, g, hj, -⟩ | ⟨-, hgroups⟩
  · rw [hall j] at hj
    cases hj
  · simpa [hnil] using hgroups

/-- The groups reduced so far are the first ones. -/
theorem Reducing.reduced_prefix (h : Reducing client groups out s) : s.reduced <+: groups := by
  rcases h.pending with ⟨j, g, -, hgroups⟩ | ⟨-, hgroups⟩
  · exact ⟨_, hgroups⟩
  · exact ⟨_, hgroups⟩

/-! ## The phase on its own -/

variable {numOfPairs : ℕ} {progress : BitVec 64}

/-- The invariant holds when the phase begins. -/
theorem Reducing.init (i : Fin T) :
    Reducing client groups out (shuffledJob T groups numOfPairs progress out) where
  points _ := rfl
  finished := rfl
  owned j := by simp [shuffledJob, JobPc.holdsReduce]
  pending := .inr ⟨fun _ => rfl, rfl⟩
  output := by simp [shuffledJob]
  drain := by
    have hzero : tally JobPc.through (fun _ : Fin T => (.reduceFlag : JobPc (K × V))) = 0 :=
      tally_eq_zero.mpr fun _ => rfl
    by_cases hne : groups = []
    · exact .inr ⟨hne, fun _ => nofun, .inr ⟨i, rfl⟩⟩
    · have hbalance : groups.length +
          tally JobPc.through (fun _ : Fin T => (.reduceFlag : JobPc (K × V))) = groups.length := by
        rw [hzero, Nat.add_zero]
      exact .inl ⟨hne, hbalance, by simp [shuffledJob], fun _ => rfl⟩

/-- **Run rule.** The invariant holds throughout the phase. -/
theorem reducing_of_reachable (i : Fin T)
    (h : (reducePhase client input T groups numOfPairs progress out).Reachable s) :
    Reducing client groups out s := by
  refine h.invariant (P := Reducing client groups out) ?_ fun _ _ _ hr hstep => hr.jobStep hstep
  rintro _ rfl
  exact .init i

/-- **Reduce-phase protocol.** In every reachable state of `T` workers draining `groups`: nobody
has gone wrong on an empty vector; the groups reduced so far are the first ones in order, and all
of them once everybody has returned; as long as a group is left, `sem_wait` has let through no more
workers than there were groups, and tokens and workers let through make up for the groups left;
once none is left, nobody is at the mutex; and somebody can move unless everybody has returned. -/
theorem reduce_phase_protocol (hT : 1 ≤ T)
    (h : (reducePhase client input T groups numOfPairs progress out).Reachable s) :
    (∀ i, s.pc i ≠ .undefined) ∧
    (s.reduced <+: groups ∧ ((∀ i, s.pc i = .returned) → s.reduced = groups)) ∧
    (s.vectorOfVectors ≠ [] → s.waited ≤ groups.length ∧
      s.sem + tally JobPc.through s.pc = s.vectorOfVectors.length) ∧
    (s.vectorOfVectors = [] → ∀ i, s.pc i ≠ .reduceLock) ∧
    ((∃ i, s.pc i ≠ .returned) →
      ∃ label s', (reducePhase client input T groups numOfPairs progress out).step label s =
        some s') := by
  have hr := reducing_of_reachable ⟨0, hT⟩ h
  refine ⟨?_, ⟨hr.reduced_prefix, hr.reduced_eq ⟨0, hT⟩⟩, ?_, ?_,
    ?_⟩
  · intro i hi
    have := hr.points i
    rw [hi] at this
    cases this
  · intro hne
    rcases hr.drain with ⟨-, hbal, hwait, -⟩ | ⟨hnil, -⟩
    · exact ⟨by omega, hbal⟩
    · exact absurd hnil hne
  · intro hnil
    rcases hr.drain with ⟨hne, -⟩ | ⟨-, hlock, -⟩
    · exact absurd hnil hne
    · exact hlock
  · rintro ⟨i, hi⟩
    exact hr.progress hi

end reducing

/-- A client whose types do not matter. -/
def unitClient : Client Unit Unit Unit Unit where
  map _ := [((), ())]
  reduce _ := [()]
  lt _ _ := false

/-- Two workers, two groups, half-way. -/
theorem reduce_phase_protocol_run : ∃ s : JobContext 2 (Unit × Unit) Unit,
    (reducePhase unitClient [] 2 [[((), ())], [((), ())]] 2 0 []).run
      [(0, 0), (0, 0), (0, 0), (0, 0), (0, 0), (0, 0)]
      (shuffledJob 2 [[((), ())], [((), ())]] 2 0 []) = some s ∧
    s.vectorOfVectors ≠ [] ∧ s.sem + tally JobPc.through s.pc = s.vectorOfVectors.length := by
  obtain ⟨s, hs⟩ : ∃ s : JobContext 2 (Unit × Unit) Unit,
      (reducePhase unitClient [] 2 [[((), ())], [((), ())]] 2 0 []).run
        [(0, 0), (0, 0), (0, 0), (0, 0), (0, 0), (0, 0)]
        (shuffledJob 2 [[((), ())], [((), ())]] 2 0 []) = some s := ⟨_, rfl⟩
  have hprot := reduce_phase_protocol (by decide) (.run (.init rfl) hs)
  have hne : s.vectorOfVectors ≠ [] := by
    cases hs
    exact nofun
  exact ⟨s, hs, hne, (hprot.2.2.1 hne).2⟩

/-- One group, two workers: both get past `sem_wait`, the second on the token of the first when it
left. -/
theorem sem_wait_passes_exceed_groups : ¬ ∀ (T : ℕ) (groups : List (List (Unit × Unit)))
    (s : JobContext T (Unit × Unit) Unit), 1 ≤ T → groups ≠ [] →
    (reducePhase unitClient [] T groups 1 0 []).Reachable s → s.waited ≤ groups.length := by
  intro hall
  obtain ⟨s, hs⟩ : ∃ s : JobContext 2 (Unit × Unit) Unit,
      (reducePhase unitClient [] 2 [[((), ())]] 1 0 []).run
        [(1, 0), (1, 0), (1, 0), (0, 0), (0, 0), (0, 0), (0, 0), (0, 0), (0, 0), (0, 0), (0, 0),
          (0, 0), (1, 0)] (shuffledJob 2 [[((), ())]] 1 0 []) = some s := ⟨_, rfl⟩
  have hle := hall 2 [[((), ())]] s (by decide) nofun (.run (.init rfl) hs)
  cases hs
  revert hle
  decide

end CoreOS.MapReduce
