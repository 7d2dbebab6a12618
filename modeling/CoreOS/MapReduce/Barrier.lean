import CoreOS.Lib.Threads

/-!
# The barrier

`Barrier::barrier` of `ex3/Barrier.cpp`, called by `n` threads `rounds` times each, one
`pthread_*` call or access to `count` a step.

* `barrier n rounds`: the machine; a label is the thread that moves. A thread inside
  `pthread_cond_wait` can come back whenever the mutex is free: POSIX lets the call return although
  no broadcast was made, and `Pc.waiting signalled` remembers whether one was.
* `Prompted`: the guard under which the barrier works, that no `pthread_cond_wait` comes back
  without a broadcast.
* `Generation n g s`: the invariant; `g` counts the broadcasts.
* `barrier_safe`: under the guard nobody leaves a round that somebody has not entered;
  `barrier_unsafe`: without it a thread can.
-/

namespace CoreOS.MapReduce

open CoreOS.Lib Function

/-! ## The machine -/

/-- Where a thread is in `Barrier::barrier`. -/
inductive Pc
  /-- Between two calls. -/
  | idle
  /-- At `pthread_mutex_lock`. -/
  | lock
  /-- At `++count < numThreads`. -/
  | increment
  /-- At the start of `pthread_cond_wait`. -/
  | wait
  /-- Inside `pthread_cond_wait`; `signalled` once a broadcast was made meanwhile. -/
  | waiting (signalled : Bool)
  /-- At `count = 0`. -/
  | reset
  /-- At `pthread_cond_broadcast`. -/
  | broadcast
  /-- At `pthread_mutex_unlock`. -/
  | unlock
  deriving DecidableEq, Repr

/-- The effect of a broadcast on one thread. -/
def Pc.signal : Pc → Pc
  | .waiting _ => .waiting true
  | pc => pc

/-- The points at which a thread holds the mutex. -/
def Pc.holds : Pc → Bool
  | .increment | .wait | .reset | .broadcast | .unlock => true
  | .idle | .lock | .waiting _ => false

/-- The barrier and its threads. -/
structure BarrierState (n : ℕ) where
  /-- The thread that holds `mutex`. -/
  mutex : Option (Fin n)
  /-- `count`. -/
  count : ℕ
  /-- Where each thread is. -/
  pc : Fin n → Pc
  /-- How many calls each thread has entered. -/
  entered : Fin n → ℕ
  /-- How many calls each thread has returned from. -/
  returned : Fin n → ℕ

variable {n rounds : ℕ}

/-- One step of the thread `i`. The `pthread_*` calls succeed.
Source: `Barrier.cpp`, `Barrier::barrier` -/
def barrierStep (rounds : ℕ) (i : Fin n) (s : BarrierState n) : Option (BarrierState n) :=
  match s.pc i with
  | .idle =>
      if s.entered i < rounds then some { s with
        pc := update s.pc i .lock
        entered := update s.entered i (s.entered i + 1) }
      else none
  | .lock =>
      if s.mutex = none then some { s with mutex := some i, pc := update s.pc i .increment }
      else none
  | .increment => some { s with
      count := s.count + 1
      pc := update s.pc i (if s.count + 1 < n then .wait else .reset) }
  | .wait => some { s with mutex := none, pc := update s.pc i (.waiting false) }
  | .waiting _ =>
      if s.mutex = none then some { s with mutex := some i, pc := update s.pc i .unlock }
      else none
  | .reset => some { s with count := 0, pc := update s.pc i .broadcast }
  | .broadcast => some { s with pc := update (fun j => (s.pc j).signal) i .unlock }
  | .unlock => some { s with
      mutex := none
      pc := update s.pc i .idle
      returned := update s.returned i (s.returned i + 1) }

/-- A fresh barrier. Source: `Barrier.cpp`, `Barrier::Barrier` -/
def freshBarrier (n : ℕ) : BarrierState n where
  mutex := none
  count := 0
  pc _ := .idle
  entered _ := 0
  returned _ := 0

/-- The barrier for `n` threads that call it `rounds` times each. -/
def barrier (n rounds : ℕ) : Machine (BarrierState n) (Fin n) where
  init s := s = freshBarrier n
  step := barrierStep rounds

/-- The thread that moves does not come back from a `pthread_cond_wait` during which no broadcast
was made. -/
def Prompted (s : BarrierState n) (i : Fin n) : Prop := s.pc i ≠ .waiting false

instance (s : BarrierState n) (i : Fin n) : Decidable (Prompted s i) :=
  inferInstanceAs (Decidable (_ ≠ _))

/-! ## The invariant -/

/-- Arrived, and waiting for the last thread of the round. -/
def Pc.arrived : Pc → Bool
  | .wait | .waiting false => true
  | _ => false

/-- Released by the last broadcast, or not yet in the next round. -/
def Pc.passed : Pc → Bool
  | .idle | .waiting true | .unlock => true
  | _ => false

/-- The threads of a round gather: `count` is the number of those that have arrived, and somebody
is missing. -/
def Gathering (s : BarrierState n) : Prop :=
  (∀ i, s.pc i ≠ .reset ∧ s.pc i ≠ .broadcast) ∧ s.count = tally Pc.arrived s.pc ∧ s.count < n

/-- The last thread of a round releases the others, all of which wait. -/
def Releasing (s : BarrierState n) : Prop :=
  ∃ i, ((s.pc i = .reset ∧ s.count = n) ∨ (s.pc i = .broadcast ∧ s.count = 0)) ∧
    ∀ j, j ≠ i → s.pc j = .waiting false

/-- The state of a barrier after `g` broadcasts. -/
structure Generation (n g : ℕ) (s : BarrierState n) : Prop where
  owned : Owned Pc.holds s.pc s.mutex
  /-- Who has passed has entered `g` rounds, who has not is in the next one. -/
  entered : ∀ i, s.entered i = if (s.pc i).passed then g else g + 1
  /-- A call is entered and not returned from, except between two calls. -/
  returned : ∀ i, s.returned i + (if s.pc i = .idle then 0 else 1) = s.entered i
  phase : Gathering s ∨ Releasing s

variable {g : ℕ} {s s' : BarrierState n} {i : Fin n}

/-- While others are released, a thread waits or releases them. -/
theorem Generation.gathering (h : Generation n g s) (i : Fin n)
    (hi : s.pc i ∉ [Pc.waiting false, .reset, .broadcast]) : Gathering s := by
  apply h.phase.resolve_right
  rintro ⟨k, hk, hothers⟩
  by_cases hik : i = k
  · subst hik
    rcases hk with ⟨hk, -⟩ | ⟨hk, -⟩ <;> simp [hk] at hi
  · simp [hothers i hik] at hi

/-- A gathering survives a move among the points that have not arrived. -/
theorem Gathering.move (h : Gathering s) {x : Pc} (hx : x ≠ .reset ∧ x ≠ .broadcast)
    (hsame : x.arrived = (s.pc i).arrived) (hpc : s'.pc = update s.pc i x)
    (hcount : s'.count = s.count) : Gathering s' := by
  obtain ⟨hno, htally, hlt⟩ := h
  refine ⟨?_, ?_, hcount ▸ hlt⟩
  · rw [hpc]
    exact forall_update (p := fun y : Pc => y ≠ .reset ∧ y ≠ .broadcast) hno hx
  · rw [hcount, hpc, tally_update_same hsame, htally]

/-- A move within a call, on the same side of the broadcast. -/
theorem Generation.move (h : Generation n g s) {x : Pc} (hi : s.pc i ≠ .idle) (hx : x ≠ .idle)
    (hpassed : x.passed = (s.pc i).passed) (hpc : s'.pc = update s.pc i x)
    (hent : s'.entered = s.entered) (hret : s'.returned = s.returned)
    (howned : Owned Pc.holds s'.pc s'.mutex) (hphase : Gathering s' ∨ Releasing s') :
    Generation n g s' where
  owned := howned
  entered j := by
    rw [hpc, hent]
    by_cases hj : j = i
    · rw [hj, update_self, hpassed]
      exact h.entered i
    · rw [update_of_ne hj]
      exact h.entered j
  returned j := by
    rw [hpc, hent, hret]
    by_cases hj : j = i
    · subst hj
      simpa [hx, hi] using h.returned j
    · simpa [hj] using h.returned j
  phase := hphase

/-! ## One step at a time -/

section steps

variable (h : Generation n g s)
include h

theorem generation_idle (hpc : s.pc i = .idle) :
    Generation n g { s with
      pc := update s.pc i .lock
      entered := update s.entered i (s.entered i + 1) } where
  owned := h.owned.keep (by rw [hpc]; rfl)
  entered j := by
    have hj := h.entered j
    by_cases hji : j = i
    · subst hji
      simpa [hpc, Pc.passed] using hj
    · simpa [hji] using hj
  returned j := by
    have hj := h.returned j
    by_cases hji : j = i
    · subst hji
      simpa [hpc] using hj
    · simpa [hji] using hj
  phase := .inl ((h.gathering i (by simp [hpc])).move (by simp) (by rw [hpc]; rfl) rfl rfl)

theorem generation_lock (hpc : s.pc i = .lock) (hfree : s.mutex = none) :
    Generation n g { s with mutex := some i, pc := update s.pc i .increment } := by
  have hphase := h.gathering i (by simp [hpc])
  refine h.move (i := i) (x := .increment) (by simp [hpc]) nofun (by rw [hpc]; rfl) rfl rfl rfl
    ?_ ?_
  · exact Owned.acquire (hfree ▸ h.owned) rfl
  · exact .inl (hphase.move (by simp) (by rw [hpc]; rfl) rfl rfl)

/-- The arrival of the last thread ends the gathering; every earlier one only adds to it. -/
theorem phase_increment (hpc : s.pc i = .increment) :
    Gathering { s with
        count := s.count + 1
        pc := update s.pc i (if s.count + 1 < n then .wait else .reset) } ∨
      Releasing { s with
        count := s.count + 1
        pc := update s.pc i (if s.count + 1 < n then .wait else .reset) } := by
  obtain ⟨hno, htally, hlt⟩ := h.gathering i (by simp [hpc])
  have harr : (s.pc i).arrived = false := by rw [hpc]; rfl
  by_cases hc : s.count + 1 < n
  · refine .inl ⟨?_, ?_, hc⟩
    · intro j
      by_cases hj : j = i
      · subst hj
        simp [hc]
      · simpa [hj] using hno j
    · simp only [hc, if_true]
      rw [tally_update_enter harr rfl, htally]
  · refine .inr ⟨i, .inl ⟨by simp [hc], by show s.count + 1 = n; omega⟩, ?_⟩
    intro j hj
    have hall : (s.pc j).arrived = true :=
      of_tally_add_one (by rw [Fintype.card_fin, ← htally]; omega) harr hj
    have hmutex : (s.pc j).holds = false := by
      by_contra hheld
      exact hj (h.owned.unique (by simpa using hheld) (by rw [hpc]; rfl))
    simp only [update_of_ne hj]
    -- an arrived thread without the mutex waits
    cases hp : s.pc j with
    | waiting b => cases b <;> simp_all [Pc.arrived]
    | _ => simp_all [Pc.arrived, Pc.holds]

theorem generation_increment (hpc : s.pc i = .increment) :
    Generation n g { s with
      count := s.count + 1
      pc := update s.pc i (if s.count + 1 < n then .wait else .reset) } := by
  apply h.move (i := i) (x := if s.count + 1 < n then .wait else .reset) (by simp [hpc])
  · split_ifs <;> nofun
  · rw [hpc]
    split_ifs <;> rfl
  · rfl
  · rfl
  · rfl
  · exact h.owned.keep (by rw [hpc]; split_ifs <;> rfl)
  · exact phase_increment h hpc

theorem generation_wait (hpc : s.pc i = .wait) :
    Generation n g { s with mutex := none, pc := update s.pc i (.waiting false) } := by
  have hphase := h.gathering i (by simp [hpc])
  refine h.move (i := i) (x := .waiting false) (by simp [hpc]) nofun (by rw [hpc]; rfl) rfl rfl rfl
    ?_ ?_
  · exact h.owned.release (by rw [hpc]; rfl) rfl
  · exact .inl (hphase.move (by simp) (by rw [hpc]; rfl) rfl rfl)

theorem generation_waiting (hpc : s.pc i = .waiting true) (hfree : s.mutex = none) :
    Generation n g { s with mutex := some i, pc := update s.pc i .unlock } := by
  have hphase := h.gathering i (by simp [hpc])
  refine h.move (i := i) (x := .unlock) (by simp [hpc]) nofun (by rw [hpc]; rfl) rfl rfl rfl
    ?_ ?_
  · exact Owned.acquire (hfree ▸ h.owned) rfl
  · exact .inl (hphase.move (by simp) (by rw [hpc]; rfl) rfl rfl)

/-- The thread that resets the counter or broadcasts is the one that releases the others. -/
theorem Generation.releasing (hpc : s.pc i = .reset ∨ s.pc i = .broadcast) :
    ((s.pc i = .reset ∧ s.count = n) ∨ (s.pc i = .broadcast ∧ s.count = 0)) ∧
      ∀ j, j ≠ i → s.pc j = .waiting false := by
  rcases h.phase with ⟨hno, -, -⟩ | ⟨k, hk, hothers⟩
  · rcases hpc with hpc | hpc
    · exact absurd hpc (hno i).1
    · exact absurd hpc (hno i).2
  · have hik : i = k := by
      by_contra hne
      rcases hpc with hpc | hpc <;> rw [hothers i hne] at hpc <;> cases hpc
    subst hik
    exact ⟨hk, hothers⟩

theorem generation_reset (hpc : s.pc i = .reset) :
    Generation n g { s with count := 0, pc := update s.pc i .broadcast } := by
  have hothers := (h.releasing (.inl hpc)).2
  refine h.move (i := i) (x := .broadcast) (by simp [hpc]) nofun (by rw [hpc]; rfl) rfl rfl rfl
    ?_ ?_
  · exact h.owned.keep (by rw [hpc]; rfl)
  · refine .inr ⟨i, .inr ⟨by simp, rfl⟩, ?_⟩
    intro j hj
    simpa [hj] using hothers j hj

/-- The broadcast starts the next generation. -/
theorem generation_broadcast (hpc : s.pc i = .broadcast) :
    Generation n (g + 1) { s with pc := update (fun j => (s.pc j).signal) i .unlock } := by
  obtain ⟨hcount, hothers⟩ := h.releasing (.inr hpc)
  simp only [hpc, reduceCtorEq, false_and, true_and, false_or] at hcount
  have hpcs : (fun j => update (fun j => (s.pc j).signal) i Pc.unlock j) =
      fun j => if j = i then .unlock else .waiting true := by
    funext j
    by_cases hj : j = i
    · simp [hj]
    · simp [hj, hothers j hj, Pc.signal]
  change Generation n (g + 1)
    { s with pc := fun j => update (fun j => (s.pc j).signal) i Pc.unlock j }
  rw [hpcs]
  refine ⟨?_, ?_, ?_, .inl ⟨?_, ?_, ?_⟩⟩
  · intro j
    have hj := h.owned j
    by_cases hji : j = i
    · subst hji
      simpa [hpc, Pc.holds] using hj
    · simpa [hji, hothers j hji, Pc.holds] using hj
  · intro j
    have hj := h.entered j
    by_cases hji : j = i
    · subst hji
      simpa [hpc, Pc.passed] using hj
    · simpa [hji, hothers j hji, Pc.passed] using hj
  · intro j
    have hj := h.returned j
    by_cases hji : j = i
    · subst hji
      simpa [hpc] using hj
    · simpa [hji, hothers j hji] using hj
  · intro j
    by_cases hji : j = i <;> simp [hji]
  · rw [hcount]
    apply (tally_eq_zero.mpr _).symm
    intro j
    by_cases hji : j = i <;> simp [hji, Pc.arrived]
  · rw [hcount]
    exact Fin.pos i

theorem generation_unlock (hpc : s.pc i = .unlock) :
    Generation n g { s with
      mutex := none
      pc := update s.pc i .idle
      returned := update s.returned i (s.returned i + 1) } where
  owned := h.owned.release (by rw [hpc]; rfl) rfl
  entered j := by
    have hj := h.entered j
    by_cases hji : j = i
    · subst hji
      simpa [hpc, Pc.passed] using hj
    · simpa [hji] using hj
  returned j := by
    have hj := h.returned j
    by_cases hji : j = i
    · subst hji
      simpa [hpc] using hj
    · simpa [hji] using hj
  phase := .inl ((h.gathering i (by simp [hpc])).move (by simp) (by rw [hpc]; rfl) rfl rfl)

/-- **Step rule.** A broadcast starts the next generation, every other prompted step keeps it. -/
theorem Generation.step (hok : Prompted s i) (hstep : (barrier n rounds).step i s = some s') :
    Generation n (if s.pc i = .broadcast then g + 1 else g) s' := by
  simp only [barrier, barrierStep] at hstep
  split at hstep
  case h_1 hpc =>
    split_ifs at hstep
    cases hstep
    simpa [hpc] using generation_idle h hpc
  case h_2 hpc =>
    split_ifs at hstep with hfree
    cases hstep
    simpa [hpc] using generation_lock h hpc hfree
  case h_3 hpc =>
    cases hstep
    simpa only [hpc, reduceCtorEq, if_false] using generation_increment h hpc
  case h_4 hpc =>
    cases hstep
    simpa [hpc] using generation_wait h hpc
  case h_5 b hpc =>
    split_ifs at hstep with hfree
    cases hstep
    cases b with
    | false => exact absurd hpc hok
    | true => simpa [hpc] using generation_waiting h hpc hfree
  case h_6 hpc =>
    cases hstep
    simpa [hpc] using generation_reset h hpc
  case h_7 hpc =>
    cases hstep
    simpa only [hpc, if_true] using generation_broadcast h hpc
  case h_8 hpc =>
    cases hstep
    simpa [hpc] using generation_unlock h hpc

end steps

/-! ## Runs -/

/-- A fresh barrier has not broadcast yet. -/
theorem Generation.init (hn : 0 < n) : Generation n 0 (freshBarrier n) where
  owned j := by simp [freshBarrier, Pc.holds]
  entered j := rfl
  returned j := rfl
  phase := .inl ⟨fun j => by simp [freshBarrier], (tally_eq_zero.mpr fun j => rfl).symm, hn⟩

/-- **Run rule.** A barrier whose waits are prompted is always in some generation. -/
theorem generation_of_reachable (hn : 0 < n) (h : (barrier n rounds).ReachableBy Prompted s) :
    ∃ g, Generation n g s := by
  refine h.invariant (P := fun s => ∃ g, Generation n g s) ?_ ?_
  · rintro _ rfl
    exact ⟨0, .init hn⟩
  · rintro _ _ _ - ⟨g, hg⟩ hok hstep
    exact ⟨_, hg.step hok hstep⟩

/-- **Barrier safety.** As long as no `pthread_cond_wait` comes back without a broadcast, nobody
has returned from more calls than everybody has entered. -/
theorem barrier_safe (h : (barrier n rounds).ReachableBy Prompted s) (i j : Fin n) :
    s.returned i ≤ s.entered j := by
  obtain ⟨g, hg⟩ := generation_of_reachable (Fin.pos i) h
  have hret := hg.returned i
  have hi := hg.entered i
  have hj := hg.entered j
  have hidle : s.pc i = .idle → (s.pc i).passed = true := fun e => by rw [e]; rfl
  split_ifs at hret hi hj <;> simp_all <;> omega

/-- Thread 0 arrives and waits; thread 1 completes the round and returns. -/
theorem barrier_safe_run : ∃ s, (barrier 2 3).runBy Prompted [0, 0, 0, 0, 1, 1, 1, 1, 1, 1]
    (freshBarrier 2) = some s ∧ s.returned 1 = 1 ∧ s.returned 1 ≤ s.entered 0 := by
  obtain ⟨s, hs⟩ : ∃ s, (barrier 2 3).runBy Prompted [0, 0, 0, 0, 1, 1, 1, 1, 1, 1]
    (freshBarrier 2) = some s := ⟨_, rfl⟩
  refine ⟨s, hs, ?_, barrier_safe (.runBy (.init rfl) hs) 1 0⟩
  cases hs
  rfl

/-- Thread 0 comes back from `pthread_cond_wait` on its own and returns; thread 1 has not called. -/
theorem barrier_unsafe : ¬ ∀ (n rounds : ℕ) (s : BarrierState n), (barrier n rounds).Reachable s →
    ∀ i j, s.returned i ≤ s.entered j := by
  intro hall
  obtain ⟨s, hs⟩ : ∃ s, (barrier 2 1).run [0, 0, 0, 0, 0, 0] (freshBarrier 2) = some s := ⟨_, rfl⟩
  have hle := hall 2 1 s (.run (.init rfl) hs) 0 1
  cases hs
  revert hle
  decide

end CoreOS.MapReduce
