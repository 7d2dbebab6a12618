import CoreOS.Uthreads.Step
import CoreOS.Uthreads.ThreadIds

/-!
# Quantum accounting

`make_scheduling_decision` counts the quanta of the process, `run_thread` those of each thread.

* `counter s t`: the quanta of the thread under `t`; `givesUp op s`: the operation ends the quantum
  of the running thread.
* `Books n q op s r s'`: what an operation does to the counters, with the reply its caller sees;
  `exec_books` (every operation that returns or switches does that).
* `Ledger`: what an observer of the calls and switches writes down, the quanta of terminated
  threads and the dispatches of each thread since it was spawned; `accounted n q` is the library
  with a ledger beside it, and has the same runs (`accounted_reachable`, `library_reachable`).
* `quantum_accounting`: the counters agree with the ledger in every reachable state. They are
  unbounded here; `IntCounters` has the result for `int`s.
-/

namespace CoreOS.Uthreads

open CoreOS.Lib

variable {n : ℕ} {q : ℤ} {s s' p : State} {op : Op} {r : Reply}

/-! ## Counters -/

/-- The quanta of the thread under `t`, 0 if there is none. -/
def counter (s : State) (t : ℤ) : ℤ := (s.threads t).elim 0 Thread.timesUsedInQuantums

theorem counter_of_some {t : ℤ} {th : Thread} (hth : s.threads t = some th) :
    counter s t = th.timesUsedInQuantums := by
  rw [counter, hth]
  rfl

theorem counter_of_none {t : ℤ} (hth : s.threads t = none) : counter s t = 0 := by
  rw [counter, hth]
  rfl

/-- The loop over `sleeping` leaves the counters alone. -/
theorem counter_rested {t : ℤ} {th : Thread} (h : rested s t = some th) :
    th.timesUsedInQuantums = counter s t := by
  obtain ⟨th₀, hth₀, rfl⟩ := rested_eq_some.mp h
  rw [counter_of_some hth₀]
  split_ifs <;> rfl

/-- A decision adds one quantum to the thread it dispatches. -/
theorem Decision.counter_eq (hd : Decision s s') (t : ℤ) :
    counter s' t = counter s t + if t = s'.runningThread then 1 else 0 := by
  by_cases ht : t = s'.runningThread
  · obtain ⟨th, hrested, hth⟩ := hd.dispatched
    rw [if_pos ht, ht, counter_of_some hth, ← counter_rested hrested]
    rfl
  · rw [if_neg ht, add_zero]
    cases hth : s.threads t with
    | none => rw [counter_of_none hth, counter_of_none ((hd.threads_none t).mpr hth)]
    | some th =>
        cases hth' : s'.threads t with
        | none =>
            rw [(hd.threads_none t).mp hth'] at hth
            cases hth
        | some th' =>
            rw [counter_of_some hth']
            exact counter_rested ((hd.others t ht).symm.trans hth')

/-! ## What an operation does to them -/

/-- The operation ends the quantum of the running thread: a tick, or a call of the running thread
that puts it to sleep, blocks it or terminates it (the main thread can do none of these). -/
def givesUp : Op → State → Bool
  | .tick, _ => true
  | .sleep _, s => s.runningThread ≠ mainThreadId
  | .block tid, s => tid ≠ mainThreadId ∧ tid = s.runningThread
  | .terminate tid, s => tid ≠ mainThreadId ∧ tid = s.runningThread
  | .spawn _, _ => false
  | .resume _, _ => false

/-- Between `s` and `p` the operation has counted nothing; it has removed the thread that it
terminates, and only `uthread_spawn` has added one. -/
structure Settled (op : Op) (s p : State) : Prop where
  count : p.countTotalQuantums = s.countTotalQuantums
  counters : ∀ t, counter p t = if op = .terminate t then 0 else counter s t
  absent : (∀ e, op ≠ .spawn e) → ∀ t, s.threads t = none → p.threads t = none
  erased : ∀ t, op = .terminate t → p.threads t = none

/-- What an operation does to the counters, by the reply its caller sees. -/
inductive Books (n : ℕ) (q : ℤ) (op : Op) (s : State) : Reply → State → Prop
  | yields {p s' : State} (hop : givesUp op s = true) (hp : Settled op s p)
      (hs : Suspended n q p) (hd : Decision p s') : Books n q op s .switched s'
  | stays {val : ℤ} {cerr : String} {s' : State} (hop : givesUp op s = false)
      (hp : Settled op s s') : Books n q op s (.returns val cerr) s'

/-- An operation that changes nothing has settled, unless it should have terminated a thread. -/
theorem Settled.unchanged (hop : ∀ t, op = .terminate t → s.threads t = none) :
    Settled op s s where
  count := rfl
  counters t := by
    split_ifs with ht
    · exact counter_of_none (hop t ht)
    · rfl
  absent _ _ h := h
  erased := hop

/-- Replacing the record of a thread by one with the same counter settles an operation. -/
theorem Settled.update {tid : ℤ} {th th' : Thread} (hth : s.threads tid = some th)
    (hop : ∀ t, op ≠ .terminate t) (hcount : p.countTotalQuantums = s.countTotalQuantums)
    (hthreads : p.threads = Function.update s.threads tid (some th'))
    (hsame : th'.timesUsedInQuantums = th.timesUsedInQuantums) : Settled op s p where
  count := hcount
  counters t := by
    rw [if_neg (hop t)]
    by_cases ht : t = tid
    · subst ht
      rw [counter_of_some hth, ← hsame]
      exact counter_of_some (by rw [hthreads, Function.update_self])
    · rw [counter, counter, hthreads, Function.update_of_ne ht]
  absent _ t ht := by
    have hne : t ≠ tid := by
      intro e
      rw [e, hth] at ht
      cases ht
    rw [hthreads, Function.update_of_ne hne, ht]
  erased t ht := absurd ht (hop t)

/-- Erasing the thread settles its termination. -/
theorem Settled.erase {tid : ℤ} (hcount : p.countTotalQuantums = s.countTotalQuantums)
    (hthreads : p.threads = Function.update s.threads tid none) :
    Settled (.terminate tid) s p where
  count := hcount
  counters t := by
    by_cases ht : t = tid
    · subst ht
      rw [if_pos rfl]
      exact counter_of_none (by rw [hthreads, Function.update_self])
    · rw [if_neg fun e => ht (Op.terminate.inj e).symm, counter, counter, hthreads,
        Function.update_of_ne ht]
  absent _ t ht := by
    rw [hthreads]
    by_cases he : t = tid
    · rw [he, Function.update_self]
    · rw [Function.update_of_ne he, ht]
  erased t ht := by rw [hthreads, ← Op.terminate.inj ht, Function.update_self]

theorem uthreadResume_books {tid : ℤ} (hx : uthreadResume tid s = .ok (r, s')) :
    Books n q (.resume tid) s r s' := by
  unfold uthreadResume at hx
  split at hx
  · cases hx
    exact .stays rfl (.unchanged nofun)
  · next thread hth =>
    by_cases hstate : thread.state = .blocked
    · rw [if_pos hstate] at hx
      obtain ⟨bl, -, hx⟩ := bind_ok.mp hx
      dsimp only at hx
      split_ifs at hx <;> cases hx <;> exact .stays rfl (.update hth nofun rfl rfl rfl)
    · rw [if_neg hstate] at hx
      cases hx
      exact .stays rfl (.unchanged nofun)

section books

variable (h : Consistent n q s)
include h

/-- The thread under `tid` runs exactly when `tid` is `running_thread`. -/
theorem Consistent.eq_running_iff {tid : ℤ} {th : Thread} (hth : s.threads tid = some th) :
    tid = s.runningThread ↔ th.state = .running := by
  constructor
  · intro e
    subst e
    exact h.state_of_running hth
  · exact h.unique tid th hth

/-- An id without a thread does not run. -/
theorem Consistent.ne_running {tid : ℤ} (hth : s.threads tid = none) : tid ≠ s.runningThread := by
  obtain ⟨th, hrun, -⟩ := h.running
  intro e
  rw [e, hrun] at hth
  cases hth

/-- The main thread is alive. -/
theorem Consistent.main_live : ∃ th, s.threads mainThreadId = some th := by
  rcases h.main with hmain | hmain
  · obtain ⟨th, hth, -⟩ := h.running
    exact ⟨th, by rwa [hmain] at hth⟩
  · exact h.live_of_queued hmain

theorem scheduler_books (hx : scheduler s = .ok (r, s')) : Books n q .tick s r s' := by
  unfold scheduler at hx
  split at hx
  · cases hx
  · next thread hth =>
    obtain ⟨s₁, h₁, hx⟩ := bind_ok.mp hx
    cases hx
    have hs := h.suspended_preempted hth
    refine .yields rfl ?_ hs (hs.decision h₁)
    exact .update hth nofun rfl rfl rfl

theorem uthreadSpawn_books {e : ℕ} (hx : uthreadSpawn e s = .ok (r, s')) :
    Books n q (.spawn e) s r s' := by
  rcases uthreadSpawn_cases h.idsPartition e with ⟨-, cerr, hspawn⟩ | ⟨-, id, htop, hspawn⟩
  · rw [hspawn] at hx
    cases hx
    exact .stays rfl (.unchanged nofun)
  · rw [hspawn] at hx
    cases hx
    have hfree := not_mem_liveIds.mp (h.idsPartition.isLeast_top htop).1.2
    refine .stays rfl ⟨rfl, ?_, fun hop => absurd rfl (hop e), nofun⟩
    intro t
    rw [if_neg nofun]
    by_cases ht : t = id
    · subst ht
      have hnew : (spawned t s).threads t = some { id := t } := by simp [spawned]
      rw [counter_of_none hfree, counter_of_some hnew]
    · simp [counter, spawned, ht]

theorem uthreadTerminate_books {tid : ℤ} (hx : uthreadTerminate tid s = .ok (r, s')) :
    Books n q (.terminate tid) s r s' := by
  unfold uthreadTerminate at hx
  split_ifs at hx with hmain
  split at hx
  · next hth =>
    cases hx
    refine .stays (by simp [givesUp, h.ne_running hth]) (.unchanged ?_)
    intro t e
    rw [← Op.terminate.inj e, hth]
  · next thread hth =>
    have hrun := h.eq_running_iff hth
    split at hx
    · next hstate =>
      obtain ⟨rq, -, hx⟩ := bind_ok.mp hx
      obtain ⟨sl, -, hx⟩ := bind_ok.mp hx
      cases hx
      exact .stays (by simp [givesUp, hrun, hstate]) (.erase rfl rfl)
    · next hstate =>
      rw [setTimerThreads_cancel] at hx
      obtain ⟨s₁, h₁, hx⟩ := bind_ok.mp hx
      cases h₁
      obtain ⟨s₂, h₂, hx⟩ := bind_ok.mp hx
      cases hx
      have hs := h.suspended_selfTerminated hmain hth hstate
      refine .yields (by simpa [givesUp, hrun, hstate] using hmain) ?_ hs (hs.decision h₂)
      exact .erase rfl rfl
    · next hstate =>
      obtain ⟨bl, -, hx⟩ := bind_ok.mp hx
      obtain ⟨sl, -, hx⟩ := bind_ok.mp hx
      cases hx
      exact .stays (by simp [givesUp, hrun, hstate]) (.erase rfl rfl)

theorem uthreadBlock_books {tid : ℤ} (hx : uthreadBlock tid s = .ok (r, s')) :
    Books n q (.block tid) s r s' := by
  unfold uthreadBlock at hx
  split_ifs at hx with hmain
  · cases hx
    exact .stays (by simp [givesUp, hmain]) (.unchanged nofun)
  split at hx
  · next hth =>
    cases hx
    exact .stays (by simp [givesUp, h.ne_running hth]) (.unchanged nofun)
  · next thread hth =>
    have hrun := h.eq_running_iff hth
    split at hx
    · next hstate =>
      cases hx
      exact .stays (by simp [givesUp, hrun, hstate]) (.unchanged nofun)
    · next hstate =>
      obtain ⟨rq, -, hx⟩ := bind_ok.mp hx
      cases hx
      exact .stays (by simp [givesUp, hrun, hstate]) (.update hth nofun rfl rfl rfl)
    · next hstate =>
      dsimp only at hx
      rw [setTimerThreads_cancel] at hx
      obtain ⟨s₁, h₁, hx⟩ := bind_ok.mp hx
      cases h₁
      obtain ⟨s₂, h₂, hx⟩ := bind_ok.mp hx
      cases hx
      have hs := h.suspended_selfBlocked hmain hth hstate
      refine .yields (by simpa [givesUp, hrun, hstate] using hmain) ?_ hs (hs.decision h₂)
      exact .update hth nofun rfl rfl rfl

theorem uthreadSleep_books {k : ℤ} (hx : uthreadSleep k s = .ok (r, s')) :
    Books n q (.sleep k) s r s' := by
  unfold uthreadSleep threadsAt at hx
  split_ifs at hx with hmain
  · cases hx
    exact .stays (by simp [givesUp, hmain]) (.unchanged nofun)
  · obtain ⟨thread, hth, -⟩ := h.running
    rw [hth] at hx
    simp only [setTimerThreads_cancel] at hx
    obtain ⟨s₁, h₁, hx⟩ := bind_ok.mp hx
    cases h₁
    obtain ⟨s₂, h₂, hx⟩ := bind_ok.mp hx
    cases h₂
    obtain ⟨s₃, h₃, hx⟩ := bind_ok.mp hx
    cases hx
    have hs := h.suspended_fellAsleep k hmain hth
    refine .yields (by simpa [givesUp] using hmain) ?_ hs (hs.decision h₃)
    exact .update hth nofun rfl rfl rfl

/-- **What every operation does to the counters.** -/
theorem exec_books (hx : exec op s = .ok (r, s')) : Books n q op s r s' := by
  cases op with
  | spawn e => exact uthreadSpawn_books h hx
  | terminate tid => exact uthreadTerminate_books h hx
  | block tid => exact uthreadBlock_books h hx
  | resume tid => exact uthreadResume_books hx
  | sleep k => exact uthreadSleep_books h hx
  | tick => exact scheduler_books h hx

end books

/-! ## The ledger -/

/-- What an observer of the calls and the switches has written down. -/
structure Ledger where
  /-- The final counters of all threads terminated so far, added up. -/
  retired : ℤ
  /-- How often the thread under an id has been dispatched since it was spawned. -/
  served : ℤ → ℤ

namespace Ledger

/-- The ledger after `uthread_init`. -/
def opened : Ledger := ⟨0, fun _ => 0⟩

/-- A termination enters the final counter of its thread. -/
def retire (op : Op) (s : State) (L : Ledger) : ℤ :=
  match op with
  | .terminate tid => L.retired + counter s tid
  | _ => L.retired

/-- A switch is one more dispatch of the thread that runs then; a thread that has just been spawned
has not been dispatched, whoever had its id before. -/
def serve (op : Op) (r : Reply) (s' : State) (L : Ledger) : ℤ → ℤ :=
  match op, r with
  | _, .switched => Function.update L.served s'.runningThread (L.served s'.runningThread + 1)
  | .spawn _, .returns id _ => if id = failure then L.served else Function.update L.served id 0
  | _, .returns _ _ => L.served

/-- The entries an operation makes that takes `s` to `s'`. -/
def record (op : Op) (s s' : State) (L : Ledger) : Ledger :=
  match exec op s with
  | .ok (r, _) => ⟨L.retire op s, L.serve op r s'⟩
  | .error _ => L

end Ledger

/-- The library with a ledger beside it. -/
def accounted (n : ℕ) (q : ℤ) : Machine (State × Ledger) Op :=
  (library n q).observe Ledger.opened Ledger.record

variable {b b' : State × Ledger}

/-- A step of the library, with the reply. -/
theorem accounted_step (h : (accounted n q).step op b = some b') :
    ∃ r, exec op b.1 = .ok (r, b'.1) ∧ b'.2 = ⟨b.2.retire op b.1, b.2.serve op r b'.1⟩ := by
  obtain ⟨hstep, hL⟩ := Machine.observe_step.mp h
  obtain ⟨r, hx⟩ := library_step hstep
  rw [Ledger.record, hx] at hL
  exact ⟨r, hx, hL⟩

/-- Without its ledger, a run of the library with a ledger is one of the library. -/
theorem library_reachable (h : (accounted n q).Reachable b) : (library n q).Reachable b.1 :=
  Machine.reachableBy_of_observe h

/-- Every run of the library has its ledger. -/
theorem accounted_reachable (h : (library n q).Reachable s) :
    ∃ L, (accounted n q).Reachable (s, L) :=
  Machine.ReachableBy.observe h

/-! ## The counters agree with the ledger -/

/-- The quanta of all live threads: live ids are `0, .., MAX_THREAD_NUM - 1`. -/
def quantaInUse (n : ℕ) (s : State) : ℤ := ∑ i ∈ Finset.range n, counter s i

/-- The counters agree with the ledger. -/
structure Balanced (n : ℕ) (b : State × Ledger) : Prop where
  total : b.1.countTotalQuantums = quantaInUse n b.1 + b.2.retired
  served : ∀ t th, b.1.threads t = some th →
    th.timesUsedInQuantums = b.2.served t + if t = mainThreadId then 1 else 0

/-- A sum over the ids in which one thread only has a share. -/
theorem sum_share {tid : ℤ} (htid : 0 ≤ tid ∧ tid < n) (c : ℤ) :
    ∑ i ∈ Finset.range n, (if (i : ℤ) = tid then c else 0) = c := by
  obtain ⟨k, rfl⟩ := Int.eq_ofNat_of_zero_le htid.1
  have hk : k ∈ Finset.range n := Finset.mem_range.mpr (Int.ofNat_lt.mp htid.2)
  simp only [Nat.cast_inj, Finset.sum_ite_eq', if_pos hk]

/-- A live thread that is removed takes its counter out of the sum. -/
theorem quantaInUse_remove {tid : ℤ} (htid : 0 ≤ tid ∧ tid < n)
    (h : ∀ t, counter p t = if t = tid then 0 else counter s t) :
    quantaInUse n p + counter s tid = quantaInUse n s := by
  rw [quantaInUse, ← sum_share htid (counter s tid), ← Finset.sum_add_distrib]
  apply Finset.sum_congr rfl
  intro i _
  rw [h]
  split_ifs with hi
  · rw [hi, zero_add]
  · rw [add_zero]

/-- A decision adds one quantum to the sum. -/
theorem quantaInUse_decision (hd : Decision s s')
    (hrun : 0 ≤ s'.runningThread ∧ s'.runningThread < n) :
    quantaInUse n s' = quantaInUse n s + 1 := by
  rw [quantaInUse, quantaInUse, Finset.sum_congr rfl fun (i : ℕ) _ => hd.counter_eq i,
    Finset.sum_add_distrib, sum_share hrun]

/-- What an operation takes out of the sum is what it enters into the ledger. -/
theorem Settled.retire (h : Consistent n q s) (hp : Settled op s p) (L : Ledger) :
    quantaInUse n p + L.retire op s = quantaInUse n s + L.retired := by
  by_cases hop : ∃ tid, op = .terminate tid
  · obtain ⟨tid, rfl⟩ := hop
    have hcounters : ∀ t, counter p t = if t = tid then 0 else counter s t := by
      intro t
      rw [hp.counters]
      simp only [Op.terminate.injEq, eq_comm]
    show quantaInUse n p + (L.retired + counter s tid) = _
    cases hth : s.threads tid with
    | none =>
        have hzero := counter_of_none hth
        have hsame : counter p = counter s := by
          funext t
          rw [hcounters]
          split_ifs with ht
          · rw [ht, hzero]
          · rfl
        rw [quantaInUse, hsame, hzero, add_zero]
        rfl
    | some th =>
        have := quantaInUse_remove (h.bounded tid th hth) hcounters
        omega
  · have hsame : counter p = counter s := by
      funext t
      rw [hp.counters, if_neg fun e => hop ⟨t, e⟩]
    have hretire : L.retire op s = L.retired := by
      unfold Ledger.retire
      split
      · next tid => exact absurd ⟨tid, rfl⟩ hop
      · rfl
    rw [quantaInUse, hsame, hretire]
    rfl

/-- A call other than `uthread_spawn` that returns enters no dispatch. -/
theorem Ledger.serve_returns (hop : ∀ e, op ≠ .spawn e) (val : ℤ) (cerr : String) (s' : State)
    (L : Ledger) : L.serve op (.returns val cerr) s' = L.served := by
  unfold Ledger.serve
  split
  · next hr => cases hr
  · exact absurd rfl (hop _)
  · rfl

namespace Balanced

variable (h : Balanced n b)
include h

/-- A thread that an operation other than `uthread_spawn` leaves alive had its counter in the
ledger before. -/
theorem counter_settled (hop : ∀ e, op ≠ .spawn e) (hp : Settled op b.1 p) {t : ℤ}
    (ht : p.threads t ≠ none) : counter p t = b.2.served t + if t = mainThreadId then 1 else 0 := by
  rw [hp.counters, if_neg fun e => ht (hp.erased t e)]
  cases hth : b.1.threads t with
  | none => exact absurd (hp.absent hop t hth) ht
  | some th =>
      rw [counter_of_some hth]
      exact h.served t th hth

/-- The total grows with the sum of the counters and the ledger. -/
theorem total_step (hc : Consistent n q b.1) (hbooks : Books n q op b.1 r s') :
    s'.countTotalQuantums = quantaInUse n s' + b.2.retire op b.1 := by
  have htotal := h.total
  rcases hbooks with ⟨-, hp, hs, hd⟩ | ⟨-, hp⟩
  · have hretire := hp.retire hc b.2
    obtain ⟨th, hth, -⟩ := (hs.consistent hd).running
    have hquanta := quantaInUse_decision hd ((hs.consistent hd).bounded _ th hth)
    rw [hd.count, hp.count, hquanta]
    omega
  · rw [hp.count, htotal, hp.retire hc]

/-- A dispatch raises the counter and the entry of one thread. -/
theorem served_yields (hop : givesUp op b.1 = true) (hp : Settled op b.1 p) (hd : Decision p s')
    {t : ℤ} {th : Thread} (hth : s'.threads t = some th) :
    th.timesUsedInQuantums =
      b.2.serve op .switched s' t + if t = mainThreadId then 1 else 0 := by
  have hspawn : ∀ e, op ≠ .spawn e := by
    rintro e rfl
    cases hop
  have hlive : p.threads t ≠ none := by
    intro hnone
    rw [(hd.threads_none t).mpr hnone] at hth
    cases hth
  have hserve : b.2.serve op .switched s' =
      Function.update b.2.served s'.runningThread (b.2.served s'.runningThread + 1) := by
    cases op <;> rfl
  rw [← counter_of_some hth, hd.counter_eq, h.counter_settled hspawn hp hlive, hserve]
  by_cases ht : t = s'.runningThread
  · rw [if_pos ht, ht, Function.update_self]
    ring
  · rw [if_neg ht, Function.update_of_ne ht, add_zero]

/-- A new thread starts with an empty entry. -/
theorem served_spawned (hc : Consistent n q b.1) {e : ℕ} (hx : uthreadSpawn e b.1 = .ok (r, s'))
    {t : ℤ} {th : Thread} (hth : s'.threads t = some th) :
    th.timesUsedInQuantums =
      b.2.serve (.spawn e) r s' t + if t = mainThreadId then 1 else 0 := by
  rcases uthreadSpawn_cases hc.idsPartition e with ⟨-, cerr, hspawn⟩ | ⟨-, id, htop, hspawn⟩
  · rw [hspawn] at hx
    cases hx
    exact h.served t th hth
  · rw [hspawn] at hx
    cases hx
    have hleast := (hc.idsPartition.isLeast_top htop).1
    have hfail : id ≠ failure := by
      intro hid
      rw [hid] at hleast
      exact absurd hleast.1 (by decide)
    have hserve : b.2.serve (.spawn e) (.returns id "") (spawned id b.1) =
        Function.update b.2.served id 0 := if_neg hfail
    rw [hserve]
    by_cases ht : t = id
    · subst ht
      have hmain : t ≠ mainThreadId := by
        rintro rfl
        obtain ⟨th₀, hth₀⟩ := hc.main_live
        exact hleast.2 (by rw [mem_liveIds, hth₀]; rfl)
      simp only [spawned, State.setThread_threads, Function.update_self] at hth
      cases hth
      rw [Function.update_self, if_neg hmain]
      rfl
    · simp only [spawned, State.setThread_threads, Function.update_of_ne ht] at hth
      rw [Function.update_of_ne ht]
      exact h.served t th hth

/-- **Step.** An operation keeps the counters and the ledger in agreement. -/
theorem step (hc : Consistent n q b.1) (hstep : (accounted n q).step op b = some b') :
    Balanced n b' := by
  obtain ⟨r, hx, hL⟩ := accounted_step hstep
  obtain ⟨s', L⟩ := b'
  obtain rfl : L = ⟨b.2.retire op b.1, b.2.serve op r s'⟩ := hL
  have hbooks := exec_books hc hx
  refine ⟨h.total_step hc hbooks, ?_⟩
  intro t th hth
  by_cases hop : ∃ e, op = .spawn e
  · obtain ⟨e, rfl⟩ := hop
    exact h.served_spawned hc hx hth
  · have hspawn : ∀ e, op ≠ .spawn e := fun e he => hop ⟨e, he⟩
    rcases hbooks with ⟨hgives, hp, -, hd⟩ | ⟨-, hp⟩
    · exact h.served_yields hgives hp hd hth
    · show _ = b.2.serve op _ s' t + _
      rw [Ledger.serve_returns hspawn, ← counter_of_some hth]
      refine h.counter_settled hspawn hp ?_
      intro hnone
      rw [show s'.threads t = some th from hth] at hnone
      cases hnone

end Balanced

/-- **Run rule.** The counters agree with the ledger in every reachable state. -/
theorem reachable_balanced (h : (accounted n q).Reachable b) : Balanced n b := by
  refine Machine.ReachableBy.invariant (P := Balanced n) ?_ ?_ h
  · rintro ⟨s, L⟩ ⟨hinit, hL⟩
    obtain rfl : L = Ledger.opened := hL
    obtain ⟨rfl, hn, -⟩ := library_init.mp hinit
    refine ⟨?_, ?_⟩
    · have hcounter : ∀ t, counter (afterInit n q) t = if t = 0 then 1 else 0 := by
        intro t
        split_ifs with ht
        · rw [ht]
          rfl
        · exact counter_of_none (by simp [afterInit, State.zero, ht])
      show 1 = quantaInUse n (afterInit n q) + 0
      rw [quantaInUse, Finset.sum_congr rfl fun (i : ℕ) _ => hcounter i,
        sum_share ⟨le_rfl, by exact_mod_cast hn⟩, add_zero]
    · intro t th hth
      obtain ⟨rfl, rfl⟩ := afterInit_threads hth
      rfl
  · intro op b b' hb hbal _ hstep
    exact hbal.step (reachable_consistent (library_reachable hb)) hstep

/-- The total grows by one with every operation that gives up the processor, and with no other. -/
theorem total_exec (hc : Consistent n q s) (hx : exec op s = .ok (r, s')) :
    uthreadGetTotalQuantums s' = uthreadGetTotalQuantums s + if givesUp op s then 1 else 0 := by
  unfold uthreadGetTotalQuantums
  rcases exec_books hc hx with ⟨hop, hp, -, hd⟩ | ⟨hop, hp⟩
  · rw [hd.count, hp.count, if_pos hop]
  · rw [hp.count, hop, if_neg Bool.false_ne_true, add_zero]

/-- **Quantum accounting**, with unbounded counters. In every state in which user code runs,
`uthread_get_total_quantums` is the sum of the counters of the live threads and of the final
counters of all threads terminated so far; `uthread_get_quantums` of a live thread is the number of
times it has been dispatched since it was spawned, and one more for the main thread; and the total
grows by one with every tick, self-block, sleep and self-termination, and with no other
operation. -/
theorem quantum_accounting (h : (accounted n q).Reachable b) :
    uthreadGetTotalQuantums b.1 = quantaInUse n b.1 + b.2.retired ∧
    (∀ t th, b.1.threads t = some th → (0 ≤ t ∧ t < n) ∧ uthreadGetQuantums t b.1 =
      .ok (.returns (b.2.served t + if t = mainThreadId then 1 else 0) "", b.1)) ∧
    (∀ op r s', exec op b.1 = .ok (r, s') → uthreadGetTotalQuantums s' =
      uthreadGetTotalQuantums b.1 + if givesUp op b.1 then 1 else 0) := by
  have hbal := reachable_balanced h
  have hc := reachable_consistent (library_reachable h)
  refine ⟨hbal.total, ?_, ?_⟩
  · intro t th hth
    refine ⟨hc.bounded t th hth, ?_⟩
    rw [uthreadGetQuantums, hth, ← hbal.served t th hth]
  · intro op r s' hx
    exact total_exec hc hx

end CoreOS.Uthreads
