import CoreOS.MapReduce.Barrier

/-!
# The barrier over many rounds

`Barrier::barrier` resets `count` before the released threads have taken the mutex again, so that
threads of two consecutive rounds are inside at once. Nevertheless no wake-up is lost.

* `numberedBarrier n rounds`: the barrier with the number of times its counter has been reset
  beside it; the current round is the one after the last reset.
* `Pc.inside`: the thread has arrived and has not been released.
* `Numbered n p`: the invariant, `Generation` with the broadcast that a reset announces.
* `barrier_reuse`: what `count` counts, whom a broadcast releases, and that the threads that have
  calls left never all wait; `barrier_progress`: one of them can move.
-/

namespace CoreOS.MapReduce

open CoreOS.Lib Function

variable {n rounds g : ℕ} {s s' : BarrierState n} {i : Fin n} {p p' : BarrierState n × ℕ}

/-! ## Rounds -/

/-- One more `count = 0` has been executed, if that was the step. -/
def countReset (i : Fin n) (s _s' : BarrierState n) (resets : ℕ) : ℕ :=
  if s.pc i = .reset then resets + 1 else resets

/-- The barrier, counting the resets of its counter. -/
def numberedBarrier (n rounds : ℕ) : Machine (BarrierState n × ℕ) (Fin n) :=
  (barrier n rounds).observe 0 countReset

/-- It has counted itself and has not been released. -/
def Pc.inside : Pc → Bool
  | .wait | .waiting false | .reset | .broadcast => true
  | _ => false

/-- The threads of the round `r` that have arrived and have not been released. -/
def arrivals (r : ℕ) (s : BarrierState n) : Finset (Fin n) :=
  {i | s.entered i = r ∧ (s.pc i).inside = true}

/-- About to broadcast. -/
def Pc.announces : Pc → Bool
  | .broadcast => true
  | _ => false

/-- The invariant: a reset is a broadcast, made or about to be made. -/
def Numbered (n : ℕ) (p : BarrierState n × ℕ) : Prop :=
  ∃ g, Generation n g p.1 ∧ p.2 = g + tally Pc.announces p.1.pc

/-- Except for a broadcast, a step moves one thread, and signals none. -/
theorem barrierStep_pc (hstep : (barrier n rounds).step i s = some s')
    (hpc : s.pc i ≠ .broadcast) : ∃ x, s'.pc = update s.pc i x ∧
      (x = .broadcast ↔ s.pc i = .reset) ∧ x ≠ .waiting true := by
  simp only [barrier, barrierStep] at hstep
  split at hstep
  case h_7 h => exact absurd h hpc
  case h_3 h =>
    cases hstep
    refine ⟨_, rfl, ?_⟩
    rw [h]
    split_ifs <;> simp
  all_goals
    next h =>
      first | split_ifs at hstep | skip
      cases hstep
      exact ⟨_, rfl, by simp [h]⟩

/-- A broadcast wakes the others, and unlocks next. -/
theorem barrierStep_broadcast (hstep : (barrier n rounds).step i s = some s')
    (hpc : s.pc i = .broadcast) :
    s'.pc = update (fun j => (s.pc j).signal) i .unlock := by
  simp only [barrier, barrierStep, hpc] at hstep
  cases hstep
  rfl

/-- A broadcast changes nobody else's intention to broadcast. -/
theorem tally_announces_signal (pc : Fin n → Pc) :
    tally Pc.announces (fun j => (pc j).signal) = tally Pc.announces pc := by
  have hsignal : ∀ x : Pc, x.signal.announces = x.announces := by
    intro x
    cases x <;> rfl
  simp only [tally, hsignal]

/-- A step adds a reset exactly when it brings a thread to its broadcast. -/
theorem Numbered.step (h : Numbered n p) (hok : Prompted p.1 i)
    (hstep : (numberedBarrier n rounds).step i p = some p') : Numbered n p' := by
  obtain ⟨g, hg, hk⟩ := h
  obtain ⟨hstep, hk'⟩ := Machine.observe_step.mp hstep
  refine ⟨_, hg.step hok hstep, ?_⟩
  rw [hk', countReset, hk]
  by_cases hpc : p.1.pc i = .broadcast
  · have hleave : tally Pc.announces (update (fun j => (p.1.pc j).signal) i .unlock) + 1 =
        tally Pc.announces fun j => (p.1.pc j).signal :=
      tally_update_leave (by rw [hpc]; rfl) rfl
    rw [tally_announces_signal] at hleave
    rw [barrierStep_broadcast hstep hpc, if_pos hpc, if_neg (by simp [hpc])]
    omega
  · obtain ⟨x, hx, hreset, -⟩ := barrierStep_pc hstep hpc
    have hno : (p.1.pc i).announces = false := by
      cases hi : p.1.pc i <;> simp_all [Pc.announces]
    rw [hx, if_neg hpc]
    split_ifs with hr
    · rw [hreset.mpr hr, tally_update_enter hno rfl]
      ring
    · have hxno : x.announces = false := by
        cases x <;> simp_all [Pc.announces]
      rw [tally_update_same (hxno.trans hno.symm)]

/-- **Run rule.** Every reset is a broadcast, made or about to be made. -/
theorem numbered_of_reachable (hn : 0 < n)
    (h : (numberedBarrier n rounds).ReachableBy (fun p i => Prompted p.1 i) p) : Numbered n p := by
  refine h.invariant ?_ fun i p p' _ hp hok hstep => hp.step hok hstep
  rintro ⟨s, k⟩ ⟨hinit, hk⟩
  obtain rfl : s = freshBarrier n := hinit
  obtain rfl : k = 0 := hk
  refine ⟨0, .init hn, ?_⟩
  have hnone : tally Pc.announces (freshBarrier n).pc = 0 := tally_eq_zero.mpr fun _ => rfl
  rw [hnone]

/-- Nobody enters more than its `rounds` calls. -/
theorem entered_le (h : (barrier n rounds).Reachable s) (i : Fin n) : s.entered i ≤ rounds := by
  revert i
  refine h.invariant (P := fun s => ∀ i, s.entered i ≤ rounds) ?_ ?_
  · rintro _ rfl i
    exact Nat.zero_le _
  · intro k s s' hs hstep i
    simp only [barrier, barrierStep] at hstep
    split at hstep
    case h_1 =>
      split_ifs at hstep with hlt
      cases hstep
      by_cases hi : i = k
      · subst hi
        simpa using hlt
      · simpa [hi] using hs i
    all_goals
      first
      | cases hstep; exact hs i
      | split_ifs at hstep; cases hstep; exact hs i

/-! ## What the counter counts -/

/-- While threads gather, nobody is about to broadcast, and `count` is the number of arrivals of
the round after the last broadcast. -/
theorem Generation.count_gathering (h : Generation n g s) (hph : Gathering s) :
    tally Pc.announces s.pc = 0 ∧ s.count = (arrivals (g + 1) s).card := by
  obtain ⟨hno, hcount, -⟩ := hph
  constructor
  · refine tally_eq_zero.mpr ?_
    intro i
    have := (hno i).2
    cases hi : s.pc i <;> simp_all [Pc.announces]
  · rw [hcount, tally]
    congr 1
    ext i
    have hi := h.entered i
    have := hno i
    simp only [arrivals, Finset.mem_filter, Finset.mem_univ, true_and]
    cases hpc : s.pc i with
    | waiting b => cases b <;> simp_all [Pc.arrived, Pc.inside, Pc.passed]
    | _ => simp_all [Pc.arrived, Pc.inside, Pc.passed]

section ending

variable (h : Generation n g s)
include h

/-- The thread that ends a round finds everybody in that round, arrived and not released. -/
theorem Generation.ending (hi : s.pc i = .reset ∨ s.pc i = .broadcast) (j : Fin n) :
    s.entered j = g + 1 ∧ (s.pc j).inside = true := by
  obtain ⟨-, hothers⟩ := h.releasing hi
  have hj := h.entered j
  by_cases hji : j = i
  · subst hji
    rcases hi with hpc | hpc <;> rw [hpc] at hj ⊢ <;> exact ⟨hj, rfl⟩
  · rw [hothers j hji] at hj ⊢
    exact ⟨hj, rfl⟩

/-- At the reset everybody is counted. -/
theorem Generation.count_reset (hi : s.pc i = .reset) :
    tally Pc.announces s.pc = 0 ∧ s.count = (arrivals (g + 1) s).card := by
  obtain ⟨hcount, hothers⟩ := h.releasing (.inl hi)
  simp only [hi, reduceCtorEq, false_and, true_and, or_false] at hcount
  constructor
  · refine tally_eq_zero.mpr ?_
    intro j
    by_cases hj : j = i
    · rw [hj, hi]
      rfl
    · rw [hothers j hj]
      rfl
  · have hall : arrivals (g + 1) s = Finset.univ := by
      refine Finset.filter_true_of_mem ?_
      intro j _
      exact h.ending (.inl hi) j
    rw [hall, Finset.card_univ, Fintype.card_fin, hcount]

/-- After the reset the next round is current, and nobody is in it yet. -/
theorem Generation.count_broadcast (hi : s.pc i = .broadcast) :
    tally Pc.announces s.pc = 1 ∧ s.count = (arrivals (g + 2) s).card := by
  obtain ⟨hcount, hothers⟩ := h.releasing (.inr hi)
  simp only [hi, reduceCtorEq, false_and, true_and, false_or] at hcount
  constructor
  · refine Finset.card_eq_one.mpr ⟨i, ?_⟩
    ext j
    simp only [Finset.mem_filter, Finset.mem_univ, true_and, Finset.mem_singleton]
    by_cases hj : j = i
    · simp [hj, hi, Pc.announces]
    · simp [hj, hothers j hj, Pc.announces]
  · have hnone : arrivals (g + 2) s = ∅ := by
      refine Finset.filter_false_of_mem ?_
      rintro j - ⟨hj, -⟩
      have := (h.ending (.inr hi) j).1
      omega
    rw [hnone, Finset.card_empty, hcount]

end ending

/-- **The counter.** `count` is the number of threads of the current round that have arrived and
have not been released. -/
theorem Numbered.count (h : Numbered n p) : p.1.count = (arrivals (p.2 + 1) p.1).card := by
  obtain ⟨g, hg, hk⟩ := h
  rcases hg.phase with hph | ⟨m, ⟨hm, -⟩ | ⟨hm, -⟩, -⟩
  · obtain ⟨hnone, hcount⟩ := hg.count_gathering hph
    rw [hk, hnone]
    exact hcount
  · obtain ⟨hnone, hcount⟩ := hg.count_reset hm
    rw [hk, hnone]
    exact hcount
  · obtain ⟨hone, hcount⟩ := hg.count_broadcast hm
    rw [hk, hone]
    exact hcount

/-- Between critical sections a round is never complete. -/
theorem Generation.count_lt (h : Generation n g s) (hfree : s.mutex = none) : s.count < n := by
  rcases h.phase with hph | ⟨m, hm, -⟩
  · exact hph.2.2
  · have hholds : (s.pc m).holds = true := by
      rcases hm with ⟨hm, -⟩ | ⟨hm, -⟩ <;> rw [hm] <;> rfl
    rw [(h.owned m).mpr hholds] at hfree
    cases hfree

/-! ## Whom a broadcast releases -/

/-- A step that releases a thread is a broadcast, by a thread of the same round. -/
theorem Generation.releases (h : Generation n g s)
    (hstep : (barrier n rounds).step i s = some s') {j : Fin n} (hj : s.pc j = .waiting false)
    (hj' : s'.pc j = .waiting true) : s.pc i = .broadcast ∧ s.entered j = s.entered i := by
  by_cases hi : s.pc i = .broadcast
  · refine ⟨hi, ?_⟩
    rw [(h.ending (.inr hi) j).1, (h.ending (.inr hi) i).1]
  · obtain ⟨x, hx, -, hsignal⟩ := barrierStep_pc hstep hi
    by_cases hji : j = i
    · rw [hx, hji, update_self] at hj'
      exact absurd hj' hsignal
    · rw [hx, update_of_ne hji, hj] at hj'
      cases hj'

/-! ## Nobody waits for ever -/

/-- While threads gather, somebody is missing. -/
theorem Gathering.missing (h : Gathering s) : ∃ j, (s.pc j).arrived = false := by
  by_contra hall
  have hevery : ∀ j, (s.pc j).arrived = true := fun j => by
    by_contra hj
    exact hall ⟨j, by simpa using hj⟩
  obtain ⟨-, hcount, hlt⟩ := h
  rw [hcount, tally, Finset.filter_true_of_mem fun j _ => hevery j, Finset.card_univ,
    Fintype.card_fin] at hlt
  exact lt_irrefl n hlt

/-- A thread can move unless it has no call left, or needs a mutex that is held. -/
theorem barrierStep_enabled (hidle : s.pc i = .idle → s.entered i < rounds)
    (hmutex : (s.pc i).holds = false → s.mutex = none) :
    ∃ s', (barrier n rounds).step i s = some s' := by
  rw [← Option.isSome_iff_exists]
  simp only [barrier, barrierStep]
  cases hpc : s.pc i with
  | idle => simp [hidle hpc]
  | lock => simp [hmutex (by rw [hpc]; rfl)]
  | waiting b => simp [hmutex (by rw [hpc]; rfl)]
  | _ => rfl

section active

variable (h : Generation n g s) (hent : ∀ i, s.entered i ≤ rounds)
include h hent

/-- A thread that has returned from all its calls is between two calls, and has passed. -/
theorem Generation.finished (hi : ¬ s.returned i < rounds) : g = rounds := by
  have hret := h.returned i
  have hle := hent i
  by_cases hidle : s.pc i = .idle
  · have hgi := h.entered i
    rw [hidle] at hgi hret
    rw [if_pos rfl] at hret
    have hgi : s.entered i = g := hgi
    omega
  · rw [if_neg hidle] at hret
    omega

/-- A thread with calls left that waits for a broadcast is not alone: another one has calls left
and does not. -/
theorem Generation.exists_active (hi : s.returned i < rounds) :
    ∃ j, s.returned j < rounds ∧ s.pc j ≠ .waiting false := by
  by_cases hwait : s.pc i = .waiting false
  · have hgi := h.entered i
    rw [hwait] at hgi
    have hgi : s.entered i = g + 1 := hgi
    have hlt : g ≠ rounds := by
      have := hent i
      omega
    have hleft : ∀ j, s.returned j < rounds := fun j => by
      by_contra hj
      exact hlt (h.finished hent hj)
    rcases h.phase with hph | ⟨m, hm, -⟩
    · obtain ⟨j, hj⟩ := hph.missing
      refine ⟨j, hleft j, ?_⟩
      intro e
      rw [e] at hj
      cases hj
    · refine ⟨m, hleft m, ?_⟩
      rcases hm with ⟨hm, -⟩ | ⟨hm, -⟩ <;> rw [hm] <;> nofun
  · exact ⟨i, hi, hwait⟩

/-- The holder of the mutex can always move; if nobody holds it, any thread with calls left that
does not wait for a broadcast can. -/
theorem Generation.exists_step (hi : s.returned i < rounds) :
    ∃ j s', Prompted s j ∧ (barrier n rounds).step j s = some s' := by
  cases hm : s.mutex with
  | some m =>
      have hholds := (h.owned m).mp hm
      obtain ⟨s', hs'⟩ : ∃ s', (barrier n rounds).step m s = some s' := by
        apply barrierStep_enabled
        · intro hpc
          rw [hpc] at hholds
          cases hholds
        · intro hfree
          rw [hholds] at hfree
          cases hfree
      refine ⟨m, s', ?_, hs'⟩
      intro hpc
      rw [hpc] at hholds
      cases hholds
  | none =>
      obtain ⟨j, hj, hwait⟩ := h.exists_active hent hi
      obtain ⟨s', hs'⟩ : ∃ s', (barrier n rounds).step j s = some s' := by
        apply barrierStep_enabled
        · intro hpc
          have hret := h.returned j
          rw [if_pos hpc] at hret
          omega
        · intro _
          exact hm
      exact ⟨j, s', hwait, hs'⟩

end active

/-- **Barrier reuse.** As long as no `pthread_cond_wait` comes back without a broadcast: `count`
is the number of threads of the current round that have arrived and have not been released, and
is less than `numThreads` between critical sections; a step that releases a thread is the
broadcast of the round that this thread is in; and if some thread has calls left, one that has
calls left is not waiting for a broadcast. -/
theorem barrier_reuse (hn : 0 < n)
    (h : (numberedBarrier n rounds).ReachableBy (fun p i => Prompted p.1 i) p) :
    p.1.count = (arrivals (p.2 + 1) p.1).card ∧
    (p.1.mutex = none → p.1.count < n) ∧
    (∀ i j s', (barrier n rounds).step i p.1 = some s' → p.1.pc j = .waiting false →
      s'.pc j = .waiting true → p.1.pc i = .broadcast ∧ p.1.entered j = p.1.entered i) ∧
    ((∃ i, p.1.returned i < rounds) →
      ∃ i, p.1.returned i < rounds ∧ p.1.pc i ≠ .waiting false) := by
  have hnum := numbered_of_reachable hn h
  have hent := entered_le (Machine.reachableBy_of_observe h).reachable
  refine ⟨hnum.count, ?_⟩
  obtain ⟨g, hg, -⟩ := hnum
  refine ⟨hg.count_lt, ?_, ?_⟩
  · intro i j s' hstep hj hj'
    exact hg.releases hstep hj hj'
  · rintro ⟨i, hi⟩
    exact hg.exists_active hent hi

/-- Thread 0 is released and has not left the first round; thread 1 waits in the second. -/
theorem barrier_reuse_run : ∃ p, (numberedBarrier 2 2).runBy (fun p i => Prompted p.1 i)
      [0, 0, 0, 0, 1, 1, 1, 1, 1, 1, 1, 1, 1, 1] (freshBarrier 2, 0) = some p ∧
    p.1.pc 0 = .waiting true ∧ p.1.count = (arrivals (p.2 + 1) p.1).card ∧ p.1.count < 2 ∧
    ∃ i, p.1.returned i < 2 ∧ p.1.pc i ≠ .waiting false := by
  obtain ⟨p, hp⟩ : ∃ p, (numberedBarrier 2 2).runBy (fun p i => Prompted p.1 i)
      [0, 0, 0, 0, 1, 1, 1, 1, 1, 1, 1, 1, 1, 1] (freshBarrier 2, 0) = some p := ⟨_, rfl⟩
  have hr : (numberedBarrier 2 2).ReachableBy (fun p i => Prompted p.1 i) p :=
    .runBy (.init (s := (freshBarrier 2, 0)) ⟨rfl, rfl⟩) hp
  obtain ⟨hcount, hlt, -, hactive⟩ := barrier_reuse (by decide) hr
  have hstate : p.1.pc 0 = .waiting true ∧ p.1.mutex = none ∧ p.1.returned 0 < 2 := by
    cases hp
    decide
  exact ⟨p, hp, hstate.1, hcount, hlt hstate.2.1, hactive ⟨0, hstate.2.2⟩⟩

/-- **Progress.** While some thread has calls left, a step can be taken. -/
theorem barrier_progress (h : (barrier n rounds).ReachableBy Prompted s)
    (hi : s.returned i < rounds) :
    ∃ j s', Prompted s j ∧ (barrier n rounds).step j s = some s' := by
  obtain ⟨g, hg⟩ := generation_of_reachable (Fin.pos i) h
  exact hg.exists_step (entered_le h.reachable) hi

end CoreOS.MapReduce
