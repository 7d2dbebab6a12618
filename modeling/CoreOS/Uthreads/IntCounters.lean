import CoreOS.Lib.CInt
import CoreOS.Uthreads.Abstraction
import CoreOS.Uthreads.Contexts

/-!
# The quantum counters as `int`s

`count_total_quantums` and `times_used_in_quantums` are of type `int`, and an increment past
2147483647 is undefined. `State` counts in unbounded integers; here what leaves the range of `int`
is undefined, and the results on the counters are stated for the rest.

* `State.Fits n`: the counters are `int`s. `intExec`, `intAsk` and `intLibrary` are the operations,
  the requests and the library with such counters; `intAccounted` has a ledger beside it, and
  `intPreemptive` ticks between any two statements.
* `Dominated`: no thread has had more quanta than the process. So `count_total_quantums` is the
  first to overflow (`Dominated.fits_iff`), and `intExec_eq` says when.
* `int_quantum_accounting`, `int_answers_specified`, `int_ticks_fair`, `int_stuck_iff`: quantum
  accounting, the refinement of the scheduler, fairness and progress.
-/

namespace CoreOS.Uthreads

open CoreOS.Lib Specification

variable {n : ℕ} {q : ℤ} {s s' : State} {op : Op} {r : Reply}

/-! ## The operations -/

/-- The quantum counters are `int`s. -/
def State.Fits (n : ℕ) (s : State) : Prop :=
  IsSigned 32 s.countTotalQuantums ∧ ∀ i < n, IsSigned 32 (counter s i)

instance (n : ℕ) : DecidablePred (State.Fits n) := fun s =>
  inferInstanceAs (Decidable (IsSigned 32 _ ∧ ∀ i < n, IsSigned 32 (counter s i)))

/-- A result that does not fit comes from an increment that overflows, which is undefined. -/
def limit {τ : Type} (fits : τ → Prop) [DecidablePred fits] :
    Except Stop (Reply × τ) → Except Stop (Reply × τ)
  | .ok (r, t) => if fits t then .ok (r, t) else .error .undefined
  | .error e => .error e

/-- An operation, with `int` counters. -/
def intExec (n : ℕ) (op : Op) (s : State) : Result := limit (State.Fits n) (exec op s)

/-- A request, with `int` counters. -/
def intAsk (n : ℕ) (r : Request) (s : State) : Result := limit (State.Fits n) (ask r s)

/-- The library, with `int` counters. -/
def intLibrary (n : ℕ) (q : ℤ) : Machine State Op := (library n q).within (State.Fits n)

/-- The library with a ledger beside it, with `int` counters. -/
def intAccounted (n : ℕ) (q : ℤ) : Machine (State × Ledger) Op :=
  (accounted n q).within fun b => b.1.Fits n

/-- The library with ticks between any two statements, with `int` counters. -/
def intPreemptive (n : ℕ) (q : ℤ) : Machine System Act :=
  (preemptive n q).within fun s => s.globals.Fits n

section limit

variable {σ τ : Type} {fits : σ → Prop} [DecidablePred fits] {x : Except Stop (Reply × σ)} {t : σ}

theorem limit_eq_ok : limit fits x = .ok (r, t) ↔ x = .ok (r, t) ∧ fits t := by
  rcases x with e | ⟨r', t'⟩
  · simp [limit]
  · unfold limit
    dsimp only
    split_ifs with hfits
    · constructor
      · rintro ⟨⟩
        exact ⟨rfl, hfits⟩
      · exact And.left
    · simp only [false_iff, not_and]
      rintro ⟨⟩
      exact hfits

/-- A view under which the same results fit commutes with the limit. -/
theorem limit_view {fits' : τ → Prop} [DecidablePred fits'] {view : σ → τ}
    (h : ∀ r s, x = .ok (r, s) → (fits s ↔ fits' (view s))) :
    (limit fits x).map (Prod.map id view) = limit fits' (x.map (Prod.map id view)) := by
  rcases x with e | ⟨r, s⟩
  · rfl
  · show (if fits s then _ else _ : Except Stop (Reply × σ)).map _ = if fits' (view s) then _ else _
    by_cases hfits : fits s
    · rw [if_pos hfits, if_pos ((h r s rfl).mp hfits)]
      rfl
    · rw [if_neg hfits, if_neg fun hv => hfits ((h r s rfl).mpr hv)]
      rfl

end limit

/-- The steps of the library with `int` counters are its operations. -/
theorem intLibrary_step : (intLibrary n q).step op s = some s' ↔
    ¬ (op = .tick ∧ ¬ s.TimerArmed) ∧ ∃ r, intExec n op s = .ok (r, s') := by
  rw [intLibrary, Machine.within_step]
  show (if op = .tick ∧ ¬ s.TimerArmed then none else _) = some s' ∧ _ ↔ _
  simp only [intExec, limit_eq_ok]
  split_ifs with harmed
  · simp [harmed]
  · cases hx : exec op s with
    | error e => simp [Except.toOption]
    | ok p => simp [Except.toOption, harmed, Prod.ext_iff]

/-! ## The total overflows first -/

/-- No thread has had more quanta than the process. -/
def Dominated (s : State) : Prop := ∀ t, 0 ≤ counter s t ∧ counter s t ≤ s.countTotalQuantums

theorem Dominated.total_nonneg (h : Dominated s) : 0 ≤ s.countTotalQuantums :=
  (h 0).1.trans (h 0).2

theorem Dominated.fits_iff (h : Dominated s) : s.Fits n ↔ s.countTotalQuantums ≤ intMax := by
  unfold State.Fits
  rw [isSigned_iff_of_nonneg h.total_nonneg, and_iff_left_iff_imp]
  intro hle i _
  exact (isSigned_iff_of_nonneg (h i).1).mpr ((h i).2.trans hle)

theorem Dominated.init (hinit : (library n q).init s) : Dominated s := by
  obtain ⟨rfl, -, -, -⟩ := library_init.mp hinit
  intro t
  cases hth : (afterInit n q).threads t with
  | none =>
      rw [counter_of_none hth]
      exact ⟨le_rfl, Int.one_nonneg⟩
  | some th =>
      obtain ⟨-, rfl⟩ := afterInit_threads hth
      rw [counter_of_some hth]
      exact ⟨Int.one_nonneg, le_rfl⟩

/-- What an operation settles before it counts. -/
theorem Dominated.settled {p : State} (h : Dominated s) (hp : Settled op s p) : Dominated p := by
  intro t
  rw [hp.counters, hp.count]
  split_ifs
  · exact ⟨le_rfl, h.total_nonneg⟩
  · exact h t

/-- A decision raises the total with the counter. -/
theorem Dominated.decision {p : State} (h : Dominated p) (hd : Decision p s') : Dominated s' := by
  intro t
  obtain ⟨hpos, hle⟩ := h t
  rw [hd.counter_eq, hd.count]
  split_ifs <;> omega

/-- **Step rule.** -/
theorem Dominated.exec (h : Dominated s) (hc : Consistent n q s) (hx : exec op s = .ok (r, s')) :
    Dominated s' := by
  rcases exec_books hc hx with ⟨-, hp, -, hd⟩ | ⟨-, hp⟩
  · exact (h.settled hp).decision hd
  · exact h.settled hp

/-- **Run rule.** -/
theorem reachable_dominated (h : (library n q).Reachable s) : Dominated s := by
  refine Machine.ReachableBy.invariant (fun _ => Dominated.init) ?_ h
  intro op s s' hs hd _ hstep
  obtain ⟨r, hx⟩ := library_step hstep
  exact hd.exec (reachable_consistent hs) hx

/-- An operation that gives up the processor can be executed. -/
theorem Consistent.exec_of_givesUp (hc : Consistent n q s) (hop : givesUp op s = true) :
    ∃ s', exec op s = .ok (.switched, s') := by
  have hmain : op ≠ .terminate 0 := by
    rintro rfl
    simp [givesUp, mainThreadId] at hop
  have hsleeper : ¬ TerminatesSleeper op s := by
    rintro ⟨tid, th, rfl, -, hth, hstate, -⟩
    have hrun : tid = s.runningThread := by
      simp only [givesUp, decide_eq_true_eq] at hop
      exact hop.2
    rw [(hc.eq_running_iff hth).mp hrun] at hstate
    cases hstate
  obtain ⟨r, s', hx⟩ := hc.exec_ok op hmain hsleeper
  -- the reply tells whether the processor was given up
  rcases exec_books hc hx with ⟨-, -, -, -⟩ | ⟨hstays, -⟩
  · exact ⟨s', hx⟩
  · rw [hop] at hstays
    cases hstays

/-- **Overflow.** An operation overflows if it counts a quantum and the total is `INT_MAX`. -/
theorem intExec_eq (hc : Consistent n q s) (hd : Dominated s) (hfits : s.Fits n) (op : Op) :
    intExec n op s = if givesUp op s = true ∧ s.countTotalQuantums = intMax then .error .undefined
      else exec op s := by
  have hle := hd.fits_iff.mp hfits
  cases hx : exec op s with
  | error e =>
      rw [intExec, hx, if_neg]
      · rfl
      · rintro ⟨hop, -⟩
        obtain ⟨s', hs'⟩ := hc.exec_of_givesUp hop
        rw [hs'] at hx
        cases hx
  | ok p =>
      obtain ⟨r, s'⟩ := p
      have htotal : s'.countTotalQuantums =
          s.countTotalQuantums + if givesUp op s then 1 else 0 := total_exec hc hx
      have hiff : s'.Fits n ↔ ¬ (givesUp op s = true ∧ s.countTotalQuantums = intMax) := by
        rw [(hd.exec hc hx).fits_iff, htotal]
        by_cases hop : givesUp op s = true
        · rw [if_pos hop, and_iff_right hop]
          omega
        · rw [if_neg hop, add_zero]
          exact iff_of_true hle fun h => hop h.1
      rw [intExec, hx]
      show (if s'.Fits n then _ else _) = _
      rw [if_congr hiff rfl rfl, ite_not]

/-- A run that does not overflow in the end did not overflow. -/
theorem intLibrary_run (hc : Consistent n q s) (hd : Dominated s) {ops : List Op}
    (hrun : (library n q).run ops s = some s') (hle : s'.countTotalQuantums ≤ intMax) :
    (intLibrary n q).run ops s = some s' := by
  have hstep : ∀ op s s', Consistent n q s ∧ Dominated s → (library n q).step op s = some s' →
      Consistent n q s' ∧ Dominated s' := by
    rintro op s s' ⟨hc, hd⟩ hstep
    obtain ⟨r, hx⟩ := library_step hstep
    exact ⟨hc.step hstep, hd.exec hc hx⟩
  have hend := (library n q).run_invariant hstep ops ⟨hc, hd⟩ hrun
  refine (Machine.within_run hstep ?_ ops ⟨hc, hd⟩ hrun (hend.2.fits_iff.mpr hle)).1
  rintro op s s' ⟨hc, hd⟩ hstep hfits
  obtain ⟨r, hx⟩ := library_step hstep
  rw [(hd.exec hc hx).fits_iff] at hfits
  have htotal : s'.countTotalQuantums =
      s.countTotalQuantums + if givesUp op s then 1 else 0 := total_exec hc hx
  rw [hd.fits_iff]
  split_ifs at htotal <;> omega

/-- After `uthread_init` the counters are `int`s. -/
theorem fits_of_init (hinit : (library n q).init s) : s.Fits n := by
  rw [(Dominated.init hinit).fits_iff]
  obtain ⟨rfl, -, -, -⟩ := library_init.mp hinit
  show (1 : ℤ) ≤ 2147483647
  decide

/-! ## Quantum accounting -/

/-- **Quantum accounting.** In every state in which user code runs, `uthread_get_total_quantums`
is the sum of the counters of the live threads and of the final counters of all threads terminated
so far; `uthread_get_quantums` of a live thread is the number of times it has been dispatched since
it was spawned, and one more for the main thread. Ticks, self-blocks, sleeps and self-terminations
raise the total by one, up to 2147483647, where they overflow; nothing else changes it, and nothing
else overflows. -/
theorem int_quantum_accounting {b : State × Ledger} (h : (intAccounted n q).Reachable b) :
    uthreadGetTotalQuantums b.1 = quantaInUse n b.1 + b.2.retired ∧
    (∀ t th, b.1.threads t = some th → (0 ≤ t ∧ t < n) ∧ uthreadGetQuantums t b.1 =
      .ok (.returns (b.2.served t + if t = mainThreadId then 1 else 0) "", b.1)) ∧
    (∀ op r s', intExec n op b.1 = .ok (r, s') → uthreadGetTotalQuantums s' =
      uthreadGetTotalQuantums b.1 + if givesUp op b.1 then 1 else 0) ∧
    (∀ op, givesUp op b.1 = true →
      ((∃ s', intExec n op b.1 = .ok (.switched, s')) ↔
        uthreadGetTotalQuantums b.1 < intMax)) ∧
    ∀ op, givesUp op b.1 = false → intExec n op b.1 = exec op b.1 := by
  have hreach : (accounted n q).Reachable b := Machine.reachableBy_of_within h
  have hc := reachable_consistent (library_reachable hreach)
  have hd := reachable_dominated (library_reachable hreach)
  have hinit : ∀ b, (accounted n q).init b → b.1.Fits n := fun b hb => fits_of_init hb.1
  have hfits : b.1.Fits n := Machine.fits_of_within hinit h
  have hle := hd.fits_iff.mp hfits
  obtain ⟨htotal, hquanta, hraise⟩ := quantum_accounting hreach
  refine ⟨htotal, hquanta, ?_, ?_, ?_⟩
  · intro op r s' hx
    exact hraise op r s' (limit_eq_ok.mp hx).1
  · intro op hop
    rw [intExec_eq hc hd hfits]
    show _ ↔ b.1.countTotalQuantums < intMax
    split_ifs with hmax
    · simp [hmax.2]
    · exact iff_of_true (hc.exec_of_givesUp hop) (lt_of_le_of_ne hle fun heq => hmax ⟨hop, heq⟩)
  · intro op hop
    rw [intExec_eq hc hd hfits, if_neg]
    rw [hop]
    exact fun h => Bool.false_ne_true h.1

/-- Thread 1 runs for a quantum and terminates itself; the next thread has its id, and no quanta. -/
theorem int_quantum_accounting_run : ∃ b,
    (intAccounted 3 100).run [.spawn 1, .tick, .terminate 1, .spawn 1]
      (afterInit 3 100, Ledger.opened) = some b ∧ b.2.retired = 1 ∧
      uthreadGetTotalQuantums b.1 = quantaInUse 3 b.1 + b.2.retired ∧
      uthreadGetQuantums 1 b.1 = .ok (.returns 0 "", b.1) ∧
      ∃ s', intExec 3 .tick b.1 = .ok (.switched, s') := by
  obtain ⟨b, hb⟩ : ∃ b, (intAccounted 3 100).run [.spawn 1, .tick, .terminate 1, .spawn 1]
      (afterInit 3 100, Ledger.opened) = some b := ⟨_, rfl⟩
  have hinit : (library 3 100).init (afterInit 3 100) :=
    library_init.mpr ⟨rfl, by decide, by decide, by decide⟩
  obtain ⟨htotal, hquanta, -, htick, -⟩ := int_quantum_accounting
    (Machine.Reachable.run (Machine.Reachable.init (M := intAccounted 3 100) ⟨hinit, rfl⟩) hb)
  obtain ⟨th, hth⟩ : ∃ th, b.1.threads 1 = some th := by
    cases hb
    exact ⟨_, rfl⟩
  have hone := (hquanta 1 th hth).2
  have hledger : b.2.retired = 1 ∧ b.2.served 1 = 0 ∧ uthreadGetTotalQuantums b.1 < intMax := by
    cases hb
    decide
  rw [hledger.2.1] at hone
  exact ⟨b, hb, hledger.1, htotal, hone, (htick .tick rfl).mpr hledger.2.2⟩

/-! ## The scheduler -/

/-- A request to the scheduler, which can count up to `INT_MAX` turns. -/
def intRespond (n : ℕ) (r : Request) (a : Scheduler) : Outcome :=
  limit (fun b : Scheduler => (b.total : ℤ) ≤ intMax) (respond n r a)

/-- Requests keep the order of the counters. -/
theorem Dominated.ask (hd : Dominated s) (hc : Consistent n q s) {request : Request}
    (hask : ask request s = .ok (r, s')) : Dominated s' := by
  cases request with
  | op op => exact hd.exec hc hask
  | getTid | getTotalQuantums =>
      cases hask
      exact hd
  | getQuantums tid =>
      unfold Uthreads.ask uthreadGetQuantums at hask
      dsimp only at hask
      split at hask <;> cases hask <;> exact hd

/-- **The library is a round-robin scheduler.** After a successful `uthread_init`, whatever is asked
of the library and whenever ticks arrive, the answers are those of the scheduler, up to the same end
of the process or the same undefined behaviour, the overflow of the total included, and the globals
stand for its state. In particular they do not depend on the quantum. -/
theorem int_answers_specified (hinit : (library n q).init s) (requests : List Request) :
    Prod.map id (Except.map (abstraction q)) (converse (intAsk n) requests s) =
      converse (intRespond n) requests start := by
  have hstart : abstraction q s = start := by
    obtain ⟨rfl, -, -, -⟩ := library_init.mp hinit
    exact abstraction_init n
  rw [← hstart]
  refine converse_view (P := fun s => (Consistent n q s ∧ Measured q s) ∧ Dominated s) ?_ ?_
    ⟨⟨.init hinit, .init hinit⟩, .init hinit⟩
  · rintro request s ⟨⟨hc, hm⟩, hd⟩
    rw [intRespond, ← ask_abstraction hc hm]
    refine limit_view fun r s' hask => ?_
    have hd' := hd.ask hc hask
    rw [hd'.fits_iff]
    show _ ↔ (s'.countTotalQuantums.toNat : ℤ) ≤ intMax
    rw [Int.toNat_of_nonneg hd'.total_nonneg]
  · rintro request s r s' ⟨⟨hc, hm⟩, hd⟩ hask
    have hask := (limit_eq_ok.mp hask).1
    exact ⟨ask_keeps hc hm hask, hd.ask hc hask⟩

/-- Two threads, one of which sleeps, is blocked meanwhile and resumed; the other one ends. -/
theorem int_answers_specified_run :
    Prod.map id (Except.map (abstraction 100)) (converse (intAsk 4)
        [.op (.spawn 1), .op (.spawn 1), .op .tick, .op (.sleep 2), .op (.block 1), .op .tick,
          .op (.resume 1), .getQuantums 1, .op (.terminate 2), .getTotalQuantums, .op (.spawn 0)]
        (afterInit 4 100)) =
      converse (intRespond 4)
        [.op (.spawn 1), .op (.spawn 1), .op .tick, .op (.sleep 2), .op (.block 1), .op .tick,
          .op (.resume 1), .getQuantums 1, .op (.terminate 2), .getTotalQuantums, .op (.spawn 0)]
        start ∧
    (converse (intRespond 4)
        [.op (.spawn 1), .op (.spawn 1), .op .tick, .op (.sleep 2), .op (.block 1), .op .tick,
          .op (.resume 1), .getQuantums 1, .op (.terminate 2), .getTotalQuantums, .op (.spawn 0)]
        start).1 =
      [.returns 1 "", .returns 2 "", .switched, .switched, .returns 0 "", .switched,
        .returns 0 "", .returns 1 "", .returns 0 "", .returns 4 "",
        .returns (-1) "Thread library error: entry point can't be null."] :=
  ⟨int_answers_specified (library_init.mpr ⟨rfl, by decide, by decide, by decide⟩) _,
    by decide +kernel⟩

/-! ## Fairness -/

/-- **Fairness.** While nobody sleeps, `m` laps of ticks give each thread that runs or is queued
exactly `m` quanta and no other thread any, and leave the running thread, the order of the queue
and the rest of every thread as they were, if the total stays in range. -/
theorem int_ticks_fair (h : (intLibrary n q).Reachable s) (hawake : ∀ t, t ∉ s.sleeping) (m : ℕ)
    (hmax : s.countTotalQuantums + m * (s.readyQueue.length + 1) ≤ intMax) :
    ∃ s', (intLibrary n q).run (List.replicate (m * (s.readyQueue.length + 1)) .tick) s = some s' ∧
      s'.runningThread = s.runningThread ∧ s'.readyQueue = s.readyQueue ∧
      s'.countTotalQuantums = s.countTotalQuantums + m * (s.readyQueue.length + 1) ∧
      ∀ t, s'.threads t = (s.threads t).map fun th =>
        { th with
          timesUsedInQuantums := th.timesUsedInQuantums +
            if t = s.runningThread ∨ t ∈ s.readyQueue then (m : ℤ) else 0 } := by
  have hreach : (library n q).Reachable s := Machine.reachableBy_of_within h
  obtain ⟨s', hrun, hcurrent, hqueue, htotal, hthreads⟩ := ticks_fair hreach hawake m
  have hint := intLibrary_run (reachable_consistent hreach) (reachable_dominated hreach) hrun
    (by omega)
  exact ⟨s', hint, hcurrent, hqueue, htotal, hthreads⟩

/-- Three laps of the main thread and of thread 1, while thread 2 is blocked. -/
theorem int_ticks_fair_run : ∃ s s', (intLibrary 4 100).run [.spawn 1, .spawn 1, .tick, .block 2]
      (afterInit 4 100) = some s ∧
    (intLibrary 4 100).run (List.replicate (3 * (s.readyQueue.length + 1)) .tick) s = some s' ∧
    s'.runningThread = 1 ∧ s'.readyQueue = [0] ∧ s'.countTotalQuantums = 8 ∧
    (s'.threads 0).map Thread.timesUsedInQuantums = some 4 ∧
    (s'.threads 1).map Thread.timesUsedInQuantums = some 4 ∧
    (s'.threads 2).map Thread.timesUsedInQuantums = some 0 := by
  obtain ⟨s, hs⟩ : ∃ s, (intLibrary 4 100).run [.spawn 1, .spawn 1, .tick, .block 2]
    (afterInit 4 100) = some s := ⟨_, rfl⟩
  have hinit : (library 4 100).init (afterInit 4 100) :=
    library_init.mpr ⟨rfl, by decide, by decide, by decide⟩
  obtain ⟨s', hrun, hcurrent, hqueue, htotal, hthreads⟩ := int_ticks_fair
    (Machine.Reachable.run (Machine.Reachable.init (M := intLibrary 4 100) hinit) hs)
    (by cases hs; exact fun t => SortedKeys.not_mem_empty t) 3 (by cases hs; decide)
  refine ⟨s, s', hs, hrun, ?_⟩
  rw [hcurrent, hqueue, htotal, hthreads, hthreads, hthreads]
  cases hs
  decide

/-- With the main thread alone every tick counts one quantum more, as long as the total is in
range. -/
theorem exists_run_ticks {k : ℕ} (hk : (k : ℤ) + 1 ≤ intMax) :
    ∃ s, (intLibrary 1 100).run (List.replicate k .tick) (afterInit 1 100) = some s ∧
      s.countTotalQuantums = k + 1 := by
  have hinit : (library 1 100).init (afterInit 1 100) :=
    library_init.mpr ⟨rfl, by decide, by decide, by decide⟩
  have hqueue : (afterInit 1 100).readyQueue = [] := rfl
  obtain ⟨s, hrun, -, -, htotal, -⟩ :=
    ticks_fair (Machine.Reachable.init hinit) SortedKeys.not_mem_empty k
  rw [hqueue, List.length_nil, Nat.zero_add, Nat.mul_one] at hrun
  have htotal : s.countTotalQuantums = k + 1 := by
    rw [htotal, hqueue]
    show 1 + (k : ℤ) * (0 + 1) = k + 1
    ring
  exact ⟨s, intLibrary_run (.init hinit) (.init hinit) hrun (by omega), htotal⟩

/-- **Overflow of the total.** After 2147483646 ticks the next one, which can arrive, does not raise
it. -/
theorem quantum_accounting_overflow : ∃ s,
    (intLibrary 1 100).run (List.replicate 2147483646 .tick) (afterInit 1 100) = some s ∧
    uthreadGetTotalQuantums s = 2147483647 ∧ s.TimerArmed ∧
    intExec 1 .tick s = .error .undefined ∧
    ¬ ∃ r s', intExec 1 .tick s = .ok (r, s') ∧
      uthreadGetTotalQuantums s' = uthreadGetTotalQuantums s + 1 := by
  obtain ⟨s, hrun, htotal⟩ := exists_run_ticks (k := 2147483646) (by decide)
  have hinit : (library 1 100).init (afterInit 1 100) :=
    library_init.mpr ⟨rfl, by decide, by decide, by decide⟩
  have hint : (intLibrary 1 100).Reachable s :=
    Machine.Reachable.run (Machine.Reachable.init (M := intLibrary 1 100) hinit) hrun
  have hreach : (library 1 100).Reachable s := Machine.reachableBy_of_within hint
  have hc := reachable_consistent hreach
  have hmax : s.countTotalQuantums = intMax := htotal
  have hundefined : intExec 1 .tick s = .error .undefined := by
    rw [intExec_eq hc (reachable_dominated hreach)
      (Machine.fits_of_within (fun _ => fits_of_init) hint)]
    exact if_pos ⟨rfl, hmax⟩
  refine ⟨s, hrun, htotal, hc.armed, hundefined, ?_⟩
  rintro ⟨r, s', hx, -⟩
  rw [hundefined] at hx
  cases hx

/-! ## Progress -/

/-- **Progress.** While ticks come in time and no sleeper is terminated, the library can always
take its next step, except that it waits for the user code, that `exit` ends the process, that
`uthread_get_quantums` may read a thread that has been terminated since it found it, whether or not
its id is in use again, and that a counter may overflow. -/
theorem int_stuck_iff {s : System} (h : (intPreemptive n q).ReachableBy Punctual s) :
    (intPreemptive n q).step .step s = none ↔ s.control = .at .user ∨
      s.control = .at (.inspect (.terminate mainThreadId)) ∨
      (∃ tid k, s.control = .at (.query tid (.read k)) ∧ s.Gone tid k) ∨
      ∃ s', (preemptive n q).step .step s = some s' ∧ ¬ s'.globals.Fits n := by
  rw [intPreemptive, Machine.within_step_eq_none, stuck_iff (Machine.reachableBy_of_within h)]
  simp only [or_assoc]

/-- The main thread has found thread 1 and unblocked the signals in `uthread_get_quantums`, when a
tick lets thread 1 run, which terminates itself. Thread 2 spawns a thread, which gets the id 1, and
the next tick lets the main thread go on. -/
def readDeleted : List Act :=
  .call (.spawn 1) :: steps 8 ++ .call (.spawn 1) :: steps 8 ++ .getQuantums 1 :: steps 3 ++
    [.tick, .step, .call (.terminate 1)] ++ steps 23 ++ .call (.spawn 1) :: steps 8 ++
    [.tick, .step]

theorem int_stuck_iff_run : ∃ s,
    (intPreemptive 4 100).runBy Punctual readDeleted smallProcess = some s ∧
    s.control = .at (.query 1 (.read 1)) ∧ (s.globals.threads 1).isSome ∧
    (intPreemptive 4 100).step .step s = none := by
  obtain ⟨s, hs⟩ : ∃ s, (intPreemptive 4 100).runBy Punctual readDeleted smallProcess = some s :=
    ⟨_, rfl⟩
  have hreach : (intPreemptive 4 100).ReachableBy Punctual s :=
    Machine.ReachableBy.runBy (.init smallProcess_init) hs
  have hfacts : s.control = .at (.query 1 (.read 1)) ∧ (s.globals.threads 1).isSome ∧
      s.made 1 = 2 := by
    cases hs
    exact ⟨rfl, rfl, rfl⟩
  have hgone : s.Gone 1 1 := .inr (by rw [hfacts.2.2]; decide)
  exact ⟨s, hs, hfacts.1, hfacts.2.1,
    (int_stuck_iff hreach).mpr (.inr (.inr (.inl ⟨1, 1, hfacts.1, hgone⟩)))⟩

end CoreOS.Uthreads
