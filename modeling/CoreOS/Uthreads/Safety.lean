import CoreOS.Uthreads.Preservation

/-!
# What holds whenever user code runs

* `WellScheduled s`: what a caller of the library may rely on, in terms of the containers, the
  state and the remaining sleep time of each thread.
* `scheduler_consistency`: it holds in every reachable state, and no operation from there runs into
  undefined behaviour or an exception, a termination of a sleeping `READY` thread apart.
* `Removed tid s s'`: everything that terminating another thread should do.
* `terminate_other_iff`: `uthread_terminate` of another thread does that exactly when the thread is
  not `READY` with time left to sleep; there it erases the end iterator of `ready_queue`.
-/

namespace CoreOS.Uthreads

open CoreOS.Lib

variable {n : ℕ} {q : ℤ} {s s' : State}

/-! ## Consistency of the scheduler -/

/-- The scheduler's data are consistent. -/
structure WellScheduled (s : State) : Prop where
  /-- `running_thread` is a thread, and the only one that is `RUNNING`. -/
  running : ∀ t, (∃ th, s.threads t = some th ∧ th.state = .running) ↔ t = s.runningThread
  /-- A `READY` thread is in `ready_queue` once or in `sleeping`, and not in both. -/
  ready : ∀ t th, s.threads t = some th → th.state = .ready →
    (s.readyQueue.count t = 1 ∧ t ∉ s.sleeping) ∨ (t ∉ s.readyQueue ∧ t ∈ s.sleeping)
  /-- `ready_queue` has no duplicates. -/
  queueNodup : s.readyQueue.Nodup
  /-- `ready_queue` holds `READY` threads only. -/
  queue : ∀ t ∈ s.readyQueue, ∃ th, s.threads t = some th ∧ th.state = .ready
  /-- `blocked` holds exactly the `BLOCKED` threads. -/
  blocked : ∀ t, t ∈ s.blocked ↔ ∃ th, s.threads t = some th ∧ th.state = .blocked
  /-- No blocked thread is queued. -/
  blockedNotQueued : ∀ t ∈ s.blocked, t ∉ s.readyQueue
  /-- `sleeping` holds exactly the threads with time left to sleep. -/
  sleeping : ∀ t, t ∈ s.sleeping ↔ ∃ th, s.threads t = some th ∧ th.sleep ≠ ⟨0, 0⟩
  /-- The main thread is `RUNNING` or queued. -/
  main : (∃ th, s.threads 0 = some th ∧ th.state = .running) ∨ 0 ∈ s.readyQueue
  /-- The timer is armed. -/
  armed : s.TimerArmed
  /-- No decision has left the timer to be re-armed. -/
  setTimer : s.setTimer = false

theorem Consistent.running_iff (h : Consistent n q s) (t : ℤ) :
    (∃ th, s.threads t = some th ∧ th.state = .running) ↔ t = s.runningThread :=
  ⟨fun ⟨th, hth, hst⟩ => h.unique t th hth hst, fun ht => ht ▸ h.running⟩

/-- The invariant of the library gives the consistency a caller sees. -/
theorem Consistent.wellScheduled (h : Consistent n q s) : WellScheduled s where
  running := h.running_iff
  ready t th hth hst := by
    have hq := (h.agrees t th hth).queued
    by_cases hs : t ∈ s.sleeping
    · exact .inr ⟨fun hmem => (hq.mp hmem).2 hs, hs⟩
    · exact .inl ⟨List.count_eq_one_of_mem h.readyNodup (hq.mpr ⟨hst, hs⟩), hs⟩
  queueNodup := h.readyNodup
  queue t ht := by
    obtain ⟨th, hth, hst, -⟩ := h.ready_of_queued ht
    exact ⟨th, hth, hst⟩
  blocked t := by
    constructor
    · intro hb
      cases hth : s.threads t with
      | none => exact absurd hb (h.absent t hth).2.1
      | some th => exact ⟨th, rfl, (h.agrees t th hth).blocked.mp hb⟩
    · rintro ⟨th, hth, hst⟩
      exact (h.agrees t th hth).blocked.mpr hst
  blockedNotQueued t hb hq := by
    obtain ⟨th, hth, hst, -⟩ := h.ready_of_queued hq
    rw [(h.agrees t th hth).blocked.mp hb] at hst
    cases hst
  sleeping t := by
    constructor
    · intro hs
      obtain ⟨th, hth⟩ := h.sleepersLive t hs
      exact ⟨th, hth, Thread.checkSleeping_eq_false.mp (h.sleeping t th hth hs)⟩
    · rintro ⟨th, hth, hsl⟩
      by_contra hs
      exact hsl (Thread.checkSleeping_eq_true.mp ((h.agrees t th hth).awake hs))
  main := h.main.imp (fun h0 => (h.running_iff 0).mpr h0.symm) id
  armed := h.armed
  setTimer := h.setTimer

/-- **Scheduler consistency.** In every state in which user code runs the scheduler's data are
consistent, and the next operation returns or switches: no decision erases from an empty
`ready_queue`, no `threads.at` throws and no end iterator is erased. (Terminating the main thread
exits, and terminating a sleeping `READY` thread is excluded.) -/
theorem scheduler_consistency (h : (library n q).Reachable s) :
    WellScheduled s ∧ ∀ op, op ≠ .terminate 0 → ¬ TerminatesSleeper op s →
      ∃ r s', exec op s = .ok (r, s') :=
  have hc := reachable_consistent h
  ⟨hc.wellScheduled, hc.exec_ok⟩

/-- A run with a sleeper: thread 1 runs, sleeps, and is blocked on top of it. -/
theorem scheduler_consistency_run : ∃ s, (library 4 100).run [.spawn 1, .tick, .sleep 2, .block 1]
    (afterInit 4 100) = some s ∧ WellScheduled s ∧ 1 ∈ s.sleeping ∧ 1 ∈ s.blocked := by
  obtain ⟨s, hs⟩ : ∃ s, (library 4 100).run [.spawn 1, .tick, .sleep 2, .block 1]
    (afterInit 4 100) = some s := ⟨_, rfl⟩
  have hw := (scheduler_consistency
    (reachable_afterInit (by decide) (by decide) (by decide) hs)).1
  cases hs
  exact ⟨_, rfl, hw, by decide, by decide⟩

/-! ## Terminating another thread -/

/-- The state after `tid`, and nothing else, has been removed from `s`. -/
structure Removed (tid : ℤ) (s s' : State) : Prop where
  /-- The thread is gone from every container. -/
  gone : s'.threads tid = none ∧ tid ∉ s'.readyQueue ∧ tid ∉ s'.blocked ∧ tid ∉ s'.sleeping
  /-- Its id is free, once, besides the ids that were. -/
  ids : s'.ids.toList.Perm (tid :: s.ids.toList) ∧ s'.ids.toList.count tid = 1
  /-- Every other thread keeps its state, its sleep time and its containers. -/
  others : ∀ t, t ≠ tid → s'.threads t = s.threads t ∧ (t ∈ s'.readyQueue ↔ t ∈ s.readyQueue) ∧
    (t ∈ s'.blocked ↔ t ∈ s.blocked) ∧ (t ∈ s'.sleeping ↔ t ∈ s.sleeping)
  /-- The others keep their order in the queue. -/
  order : s'.readyQueue = s.readyQueue.filter (· ≠ tid)
  /-- The remaining globals are untouched. -/
  frame : s'.runningThread = s.runningThread ∧ s'.countTotalQuantums = s.countTotalQuantums ∧
    s'.quantum = s.quantum ∧ s'.timer = s.timer ∧ s'.setTimer = s.setTimer

/-- A call terminated `tid`: it returned 0, having erased elements that were there only, and
removed `tid`. -/
def RemovesExactly (tid : ℤ) (s : State) (r : Result) : Prop :=
  ∃ s', r = .ok (.returns 0 "", s') ∧ Removed tid s s'

/-- Purging a thread from every container removes it and nothing else. -/
theorem Consistent.removed_purged (h : Consistent n q s) {tid : ℤ} {th : Thread}
    (hth : s.threads tid = some th) : Removed tid s (purged tid s) where
  gone := ⟨by simp [purged, releaseThread],
    by simp [purged, releaseThread, h.readyNodup.mem_erase_iff],
    by simp [purged, releaseThread], by simp [purged, releaseThread]⟩
  ids := by
    have hfree : tid ∉ s.ids := by
      intro hid
      rw [h.free_of_mem_ids tid hid] at hth
      cases hth
    have hperm : (purged tid s).ids.toList.Perm (tid :: s.ids.toList) :=
      MinHeap.perm_pushList tid s.ids.toList
    exact ⟨hperm, by rw [hperm.count_eq, List.count_cons_self, List.count_eq_zero_of_not_mem hfree]⟩
  others t ht := ⟨by simp [purged, releaseThread, ht], by
    simp [purged, releaseThread, List.mem_erase_of_ne ht], by simp [purged, releaseThread, ht],
    by simp [purged, releaseThread, ht]⟩
  order := by
    show s.readyQueue.erase tid = _
    rw [h.readyNodup.erase_eq_filter]
    exact List.filter_congr fun x _ => by by_cases hx : x = tid <;> simp [hx]
  frame := ⟨rfl, rfl, rfl, rfl, rfl⟩

/-- Away from the failing case, the call ends in the purged state. -/
theorem Consistent.uthreadTerminate_purged (h : Consistent n q s) {tid : ℤ} {th : Thread}
    (hmain : tid ≠ 0) (hrun : tid ≠ s.runningThread) (hth : s.threads tid = some th)
    (hop : ¬ (th.state = .ready ∧ th.checkSleeping = false)) :
    uthreadTerminate tid s = .ok (.returns 0 "", purged tid s) := by
  unfold uthreadTerminate
  rw [if_neg (show ¬ tid = mainThreadId from hmain), hth]
  dsimp only
  cases hst : th.state with
  | ready =>
      have hc : th.checkSleeping = true := by simpa [hst] using hop
      have hq : tid ∈ s.readyQueue :=
        (h.agrees _ _ hth).queued.mpr ⟨hst, (h.checkSleeping_iff hth).mp hc⟩
      refine bind_ok.mpr ⟨_, eraseFound_ok.mpr ⟨hq, rfl⟩,
        bind_ok.mpr ⟨_, h.purgeSleeping_ok hth, ?_⟩⟩
      rw [← h.terminatedReady_eq hth hst, terminatedReady, h.purge_sleeping hth]
      rfl
  | running => exact absurd (h.unique tid th hth hst) hrun
  | blocked =>
      have hb : tid ∈ s.blocked := (h.agrees _ _ hth).blocked.mpr hst
      refine bind_ok.mpr ⟨_, eraseKey_ok.mpr ⟨hb, rfl⟩,
        bind_ok.mpr ⟨_, h.purgeSleeping_ok hth, ?_⟩⟩
      rw [← h.terminatedBlocked_eq hth hst, terminatedBlocked, h.purge_sleeping hth]
      rfl

/-- **Terminating another thread** removes exactly that thread if and only if it is not `READY`
with time left to sleep. -/
theorem terminate_other_iff (h : (library n q).Reachable s) {tid : ℤ} {th : Thread}
    (hmain : tid ≠ 0) (hrun : tid ≠ s.runningThread) (hth : s.threads tid = some th) :
    RemovesExactly tid s (uthreadTerminate tid s) ↔
      ¬ (th.state = .ready ∧ th.sleep ≠ ⟨0, 0⟩) := by
  have hc := reachable_consistent h
  rw [← Thread.checkSleeping_eq_false]
  constructor
  · rintro ⟨s', hs', -⟩ ⟨hst, hsl⟩
    have hundef : exec (.terminate tid) s = .error .undefined :=
      hc.exec_undefined ⟨tid, th, rfl, hmain, hth, hst, hsl⟩
    rw [exec, hs'] at hundef
    cases hundef
  · intro hop
    exact ⟨Consistent.purged tid s, hc.uthreadTerminate_purged hmain hrun hth hop,
      hc.removed_purged hth⟩

/-- Thread 1 sleeps and is blocked; the main thread terminates it. -/
theorem terminate_other_blocked : ∃ s th, (library 4 100).run
      [.spawn 1, .tick, .sleep 5, .block 1] (afterInit 4 100) = some s ∧ s.threads 1 = some th ∧
      (RemovesExactly 1 s (uthreadTerminate 1 s) ↔ ¬ (th.state = .ready ∧ th.sleep ≠ ⟨0, 0⟩)) := by
  obtain ⟨s, hs⟩ : ∃ s, (library 4 100).run [.spawn 1, .tick, .sleep 5, .block 1]
    (afterInit 4 100) = some s := ⟨_, rfl⟩
  have hr := reachable_afterInit (by decide) (by decide) (by decide) hs
  cases hs
  exact ⟨_, _, rfl, rfl, terminate_other_iff hr (by decide) (by decide) rfl⟩

/-- Thread 1 sleeps; the main thread terminates it, looking for it in `ready_queue`. -/
theorem terminate_sleeper_undefined : ¬ ∀ (n : ℕ) (q : ℤ) (s : State) (tid : ℤ) (th : Thread),
    (library n q).Reachable s → tid ≠ 0 → tid ≠ s.runningThread → s.threads tid = some th →
      RemovesExactly tid s (uthreadTerminate tid s) := by
  intro hall
  obtain ⟨s, hs⟩ :
      ∃ s, (library 4 100).run [.spawn 1, .tick, .sleep 5] (afterInit 4 100) = some s :=
    ⟨_, rfl⟩
  obtain ⟨s', hs', -⟩ := hall 4 100 s 1 _
    (reachable_afterInit (by decide) (by decide) (by decide) hs)
    (by decide) (by cases hs; decide) (by cases hs; rfl)
  cases hs
  cases hs'

end CoreOS.Uthreads
