import CoreOS.Uthreads.Preservation

/-!
# Steps with and without a scheduling decision

What the temporal results about the library need to know of a step, in two cases.

* `Yields n q s p`: the operation gives up the processor; `p` is the state its scheduling decision
  starts from. Only the running thread has been touched, and only it can have been queued.
* `Stays op s s'`: no decision was made. The queue grew at the back or lost the thread the
  operation is about, and sleep times are unchanged.
* `Effect.yields_or_stays`: every operation does one or the other.
-/

namespace CoreOS.Uthreads

open CoreOS.Lib

variable {n : ℕ} {q : ℤ} {s s' p : State}

/-- An operation in `s` gives up the processor; its scheduling decision starts from `p`. -/
structure Yields (n : ℕ) (q : ℤ) (s p : State) : Prop where
  /-- The decision finds nobody running. -/
  suspended : Suspended n q p
  count : p.countTotalQuantums = s.countTotalQuantums
  /-- The running thread may have been queued. -/
  queue : p.readyQueue = s.readyQueue ∨ p.readyQueue = s.readyQueue ++ [s.runningThread]
  /-- The other threads are as they were. -/
  others : ∀ t, t ≠ s.runningThread → p.threads t = s.threads t ∧ (t ∈ p.sleeping ↔ t ∈ s.sleeping)

/-- An operation that makes no scheduling decision. -/
structure Stays (op : Op) (s s' : State) : Prop where
  count : s'.countTotalQuantums = s.countTotalQuantums
  running : s'.runningThread = s.runningThread
  /-- The queue grew at the back, or lost the thread that was blocked or terminated. -/
  queue : (∃ back, s'.readyQueue = s.readyQueue ++ back) ∨
    ∃ t, (op = .block t ∨ op = .terminate t) ∧ s'.readyQueue = s.readyQueue.erase t
  /-- A thread that was not terminated keeps its sleep time, and its state unless it was blocked
  or resumed. -/
  threads : ∀ t th, op ≠ .terminate t → s.threads t = some th → ∃ th', s'.threads t = some th' ∧
    th'.sleep = th.sleep ∧
    (th'.state = th.state ∨ (op = .block t ∧ th'.state = .blocked) ∨ op = .resume t)

/-! ## Operations without a decision -/

theorem stays_unchanged (op : Op) (s : State) : Stays op s s where
  count := rfl
  running := rfl
  queue := .inl ⟨[], by simp⟩
  threads _ th _ hth := ⟨th, hth, rfl, .inl rfl⟩

theorem stays_spawned {e : ℕ} {id : ℤ} (hfree : s.threads id = none) :
    Stays (.spawn e) s (spawned id s) where
  count := rfl
  running := rfl
  queue := .inl ⟨[id], rfl⟩
  threads t th _ hth := by
    have ht : t ≠ id := fun e => by rw [e, hfree] at hth; cases hth
    exact ⟨th, by simpa [spawned, ht] using hth, rfl, .inl rfl⟩

/-- Releasing a thread keeps the others. -/
theorem releaseThread_threads {tid t : ℤ} (ht : t ≠ tid) :
    (releaseThread tid s).threads t = s.threads t := by
  simp [releaseThread, ht]

theorem stays_terminatedReady {tid : ℤ} {th : Thread} :
    Stays (.terminate tid) s (terminatedReady tid th s) where
  count := rfl
  running := rfl
  queue := .inr ⟨tid, .inr rfl, rfl⟩
  threads t u ht hu := by
    have hne : t ≠ tid := fun e => ht (by rw [e])
    exact ⟨u, by rwa [terminatedReady, releaseThread_threads hne], rfl, .inl rfl⟩

theorem stays_terminatedBlocked {tid : ℤ} {th : Thread} :
    Stays (.terminate tid) s (terminatedBlocked tid th s) where
  count := rfl
  running := rfl
  queue := .inl ⟨[], by simp [terminatedBlocked, releaseThread]⟩
  threads t u ht hu := by
    have hne : t ≠ tid := fun e => ht (by rw [e])
    exact ⟨u, by rwa [terminatedBlocked, releaseThread_threads hne], rfl, .inl rfl⟩

theorem stays_blockedReady {tid : ℤ} {th : Thread} (hth : s.threads tid = some th) :
    Stays (.block tid) s (blockedReady tid th s) where
  count := rfl
  running := rfl
  queue := by
    by_cases hc : th.checkSleeping
    · exact .inr ⟨tid, .inl rfl, by simp [blockedReady, hc]⟩
    · exact .inl ⟨[], by simp [blockedReady, hc]⟩
  threads t u _ hu := by
    by_cases ht : t = tid
    · subst ht
      rw [hth] at hu
      cases hu
      exact ⟨th.changeStateToBlocked, by simp [blockedReady], rfl, .inr (.inl ⟨rfl, rfl⟩)⟩
    · exact ⟨u, by simpa [blockedReady, ht] using hu, rfl, .inl rfl⟩

theorem stays_resumed {tid : ℤ} {th : Thread} (hth : s.threads tid = some th) :
    Stays (.resume tid) s (resumed tid th s) where
  count := rfl
  running := rfl
  queue := by
    by_cases hc : th.checkSleeping
    · exact .inl ⟨[th.id], by simp [resumed, hc]⟩
    · exact .inl ⟨[], by simp [resumed, hc]⟩
  threads t u _ hu := by
    by_cases ht : t = tid
    · subst ht
      rw [hth] at hu
      cases hu
      exact ⟨th.changeStateToReady, by simp [resumed], rfl, .inr (.inr rfl)⟩
    · exact ⟨u, by simpa [resumed, ht] using hu, rfl, .inl rfl⟩

/-! ## Operations with a decision -/

namespace Consistent

variable (h : Consistent n q s) {th : Thread}
include h

theorem yields_preempted (hth : s.threads s.runningThread = some th) :
    Yields n q s (preempted th s) where
  suspended := h.suspended_preempted hth
  count := rfl
  queue := .inr rfl
  others t ht := ⟨by simp [preempted, ht], Iff.rfl⟩

theorem yields_selfBlocked {tid : ℤ} (hmain : tid ≠ 0) (hth : s.threads tid = some th)
    (hst : th.state = .running) : Yields n q s (selfBlocked tid th s) where
  suspended := h.suspended_selfBlocked hmain hth hst
  count := rfl
  queue := .inl rfl
  others t ht := by
    rw [← h.unique tid th hth hst] at ht
    exact ⟨by simp [selfBlocked, ht], Iff.rfl⟩

theorem yields_selfTerminated {tid : ℤ} (hmain : tid ≠ 0) (hth : s.threads tid = some th)
    (hst : th.state = .running) : Yields n q s (selfTerminated tid s) where
  suspended := h.suspended_selfTerminated hmain hth hst
  count := rfl
  queue := .inl rfl
  others t ht := by
    rw [← h.unique tid th hth hst] at ht
    exact ⟨releaseThread_threads ht, Iff.rfl⟩

theorem yields_fellAsleep (k : ℤ) (hmain : s.runningThread ≠ 0)
    (hth : s.threads s.runningThread = some th) : Yields n q s (fellAsleep k th s) where
  suspended := h.suspended_fellAsleep k hmain hth
  count := rfl
  queue := .inl rfl
  others t ht := ⟨by simp [fellAsleep, ht], by simp [fellAsleep, ht]⟩

end Consistent

/-- **Every operation yields or stays.** -/
theorem Effect.yields_or_stays {op : Op} (h : Consistent n q s) (he : Effect op s s') :
    (∃ p, Yields n q s p ∧ Decision p s') ∨ Stays op s s' := by
  cases he with
  | unchanged => exact .inr (stays_unchanged _ _)
  | spawn _ _ hfree => exact .inr (stays_spawned hfree)
  | terminateReady _ _ _ _ _ => exact .inr stays_terminatedReady
  | terminateBlocked _ _ _ _ _ => exact .inr stays_terminatedBlocked
  | terminateSelf hmain hth hst hd =>
      have hy := h.yields_selfTerminated hmain hth hst
      exact .inl ⟨_, hy, hy.suspended.decision hd⟩
  | blockReady _ hth _ _ => exact .inr (stays_blockedReady hth)
  | blockSelf hmain hth hst hd =>
      have hy := h.yields_selfBlocked hmain hth hst
      exact .inl ⟨_, hy, hy.suspended.decision hd⟩
  | resume hth _ _ => exact .inr (stays_resumed hth)
  | sleep hmain hth hd =>
      rename_i k _
      have hy := h.yields_fellAsleep k hmain hth
      exact .inl ⟨_, hy, hy.suspended.decision hd⟩
  | tick hth hd =>
      have hy := h.yields_preempted hth
      exact .inl ⟨_, hy, hy.suspended.decision hd⟩

/-- A decision takes the front of the queue after arrivals at the back. -/
theorem Yields.queue_decision (hy : Yields n q s p) (hd : Decision p s') :
    ∃ back, s'.runningThread :: s'.readyQueue = s.readyQueue ++ back := by
  rcases hy.queue with hq | hq
  · exact ⟨woken p, by rw [hd.queue, hq]⟩
  · exact ⟨s.runningThread :: woken p, by rw [hd.queue, hq]; simp⟩

/-- A decision raises the total by one. -/
theorem Yields.count_decision (hy : Yields n q s p) (hd : Decision p s') :
    s'.countTotalQuantums = s.countTotalQuantums + 1 := by
  rw [hd.count, hy.count]

/-- The total never goes down. -/
theorem count_le_run {ops : List Op} (h : Consistent n q s)
    (hrun : (library n q).run ops s = some s') : s.countTotalQuantums ≤ s'.countTotalQuantums := by
  refine ((library n q).run_relation (R := fun s s' => Consistent n q s' ∧
    s.countTotalQuantums ≤ s'.countTotalQuantums) s ⟨h, le_rfl⟩ (?_)
    ops hrun).2
  intro op u u' hu hstep
  refine ⟨hu.1.step hstep, hu.2.trans ?_⟩
  rcases (hu.1.effect hstep).yields_or_stays hu.1 with ⟨p, hy, hd⟩ | hst
  · have := hy.count_decision hd
    omega
  · exact hst.count.ge

end CoreOS.Uthreads
