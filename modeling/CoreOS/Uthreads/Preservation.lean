import CoreOS.Uthreads.Consistent

/-!
# Every operation keeps the scheduler consistent

The states a decision starts from are suspended (`suspended_preempted`, `suspended_selfBlocked`,
`suspended_selfTerminated`, `suspended_fellAsleep`), the other operations keep consistency
directly, and `Effect.consistent` puts both together. `reachable_consistent` is the run rule for
`library n q`. `exec_defined` bounds what can go wrong: an operation leaves defined behaviour only
when it terminates a `READY` thread that sleeps.
-/

namespace CoreOS.Uthreads

open CoreOS.Lib

variable {n : ℕ} {q : ℤ} {s s' : State}

namespace Consistent

/-! ## The running thread -/

section running

variable (h : Consistent n q s)
include h

/-- The record of the running thread. -/
theorem state_of_running {th : Thread} (hth : s.threads s.runningThread = some th) :
    th.state = .running := by
  obtain ⟨th', hth', hst⟩ := h.running
  rw [hth] at hth'
  cases hth'
  exact hst

theorem running_not_queued : s.runningThread ∉ s.readyQueue := by
  intro hq
  obtain ⟨th, hth, hst, -⟩ := h.ready_of_queued hq
  rw [h.state_of_running hth] at hst
  cases hst

theorem running_not_sleeping : s.runningThread ∉ s.sleeping := by
  intro hs
  obtain ⟨th, hth, hst⟩ := h.running
  exact (h.agrees _ th hth).asleep hs hst

theorem running_not_blocked : s.runningThread ∉ s.blocked := by
  intro hb
  obtain ⟨th, hth, hst⟩ := h.running
  rw [(h.agrees _ th hth).blocked.mp hb] at hst
  cases hst

/-- Where some thread other than the main one runs, the main thread is queued. -/
theorem main_queued (hne : s.runningThread ≠ 0) : (0 : ℤ) ∈ s.readyQueue := h.main.resolve_left hne

/-- A thread that is not the running one does not run. -/
theorem idle_of_ne {t : ℤ} {th : Thread} (hth : s.threads t = some th)
    (hne : t ≠ s.runningThread) : th.state ≠ .running := fun hst => hne (h.unique t th hth hst)

end running

/-! ## The states a decision starts from -/

theorem suspended_preempted (h : Consistent n q s) {th : Thread}
    (hth : s.threads s.runningThread = some th) : Suspended n q (preempted th s) where
  toContainers := h.toContainers.modify hth rfl rfl
    (List.nodup_append.mpr ⟨h.readyNodup, List.nodup_singleton _, fun t ht u hu e =>
      h.running_not_queued (by rw [← List.mem_singleton.mp hu, ← e]; exact ht)⟩)
    (fun t ht => by simp [preempted, ht])
    ⟨(h.agrees _ th hth).id, by simp [preempted, h.running_not_sleeping],
      by simp [preempted, h.running_not_blocked], nofun, (h.agrees _ th hth).awake⟩
  idle t u hu := by
    by_cases ht : t = s.runningThread
    · subst ht
      simp only [preempted, State.setThread_threads, Function.update_self] at hu
      cases hu
      nofun
    · simp only [preempted, State.setThread_threads, Function.update_of_ne ht] at hu
      exact h.idle_of_ne hu ht
  main := by
    rcases h.main with h0 | h0
    · exact List.mem_append_right _ (by simp [h0])
    · exact List.mem_append_left _ h0
  rearm := .inr h.armed
  quantum := ⟨h.quantum.stored, h.quantum.pos, h.quantum.lt⟩

theorem suspended_selfBlocked (h : Consistent n q s) {tid : ℤ} {th : Thread} (hmain : tid ≠ 0)
    (hth : s.threads tid = some th) (hst : th.state = .running) :
    Suspended n q (selfBlocked tid th s) := by
  obtain rfl := h.unique tid th hth hst
  exact
    { toContainers := h.toContainers.modify hth rfl rfl h.readyNodup
        (fun t ht => by simp [selfBlocked, ht])
        ⟨(h.agrees _ th hth).id, by simp [selfBlocked, h.running_not_queued], by simp [selfBlocked],
          nofun, (h.agrees _ th hth).awake⟩
      idle := by
        intro t u hu
        by_cases ht : t = s.runningThread
        · subst ht
          simp only [selfBlocked, State.setThread_threads, Function.update_self] at hu
          cases hu
          nofun
        · simp only [selfBlocked, State.setThread_threads, Function.update_of_ne ht] at hu
          exact h.idle_of_ne hu ht
      main := h.main_queued hmain
      rearm := .inl rfl
      quantum := ⟨h.quantum.stored, h.quantum.pos, h.quantum.lt⟩ }

theorem suspended_selfTerminated (h : Consistent n q s) {tid : ℤ} {th : Thread} (hmain : tid ≠ 0)
    (hth : s.threads tid = some th) (hst : th.state = .running) :
    Suspended n q (selfTerminated tid s) := by
  obtain rfl := h.unique tid th hth hst
  exact
    { toContainers := h.toContainers.release hth rfl rfl h.readyNodup
        (fun t _ => ⟨Iff.rfl, Iff.rfl, Iff.rfl⟩)
        ⟨h.running_not_queued, h.running_not_blocked, h.running_not_sleeping⟩
      idle := by
        intro t u hu
        by_cases ht : t = s.runningThread
        · subst ht
          simp [selfTerminated, releaseThread] at hu
        · simp only [selfTerminated, releaseThread, State.eraseThread_threads,
            Function.update_of_ne ht] at hu
          exact h.idle_of_ne hu ht
      main := h.main_queued hmain
      rearm := .inl rfl
      quantum := ⟨h.quantum.stored, h.quantum.pos, h.quantum.lt⟩ }

theorem suspended_fellAsleep (h : Consistent n q s) (k : ℤ) {th : Thread}
    (hmain : s.runningThread ≠ 0) (hth : s.threads s.runningThread = some th) :
    Suspended n q (fellAsleep k th s) where
  toContainers := h.toContainers.modify hth rfl rfl h.readyNodup
    (fun t ht => by simp [fellAsleep, ht])
    ⟨(h.agrees _ th hth).id, by simp [fellAsleep, h.running_not_queued],
      by simp [fellAsleep, h.running_not_blocked], nofun, by simp [fellAsleep]⟩
  idle t u hu := by
    by_cases ht : t = s.runningThread
    · subst ht
      simp only [fellAsleep, State.setThread_threads, Function.update_self] at hu
      cases hu
      nofun
    · simp only [fellAsleep, State.setThread_threads, Function.update_of_ne ht] at hu
      exact h.idle_of_ne hu ht
  main := h.main_queued hmain
  rearm := .inl rfl
  quantum := ⟨h.quantum.stored, h.quantum.pos, h.quantum.lt⟩

/-! ## The operations that do not switch -/

/-- Changing places of a thread that does not run, without touching who runs, keeps consistency. -/
theorem of_containers (h : Consistent n q s) (hc : Containers n s')
    (hrun : s'.runningThread = s.runningThread)
    (hthreads : ∀ t th', s'.threads t = some th' → th'.state = .running ∨ t ∈ s'.sleeping →
      ∃ th, s.threads t = some th ∧ th'.checkSleeping = th.checkSleeping ∧
        (th'.state = .running → th.state = .running) ∧ (t ∈ s'.sleeping → t ∈ s.sleeping))
    (hrunning : s'.threads s.runningThread = s.threads s.runningThread)
    (hmain : (0 : ℤ) ∈ s.readyQueue → (0 : ℤ) ∈ s'.readyQueue) (htimer : s'.timer = s.timer)
    (hset : s'.setTimer = s.setTimer) (hquantum : s'.quantum = s.quantum) : Consistent n q s' where
  toContainers := hc
  running := by rw [hrun, hrunning]; exact h.running
  unique t th' hth' hst := by
    obtain ⟨th, hth, -, hst', -⟩ := hthreads t th' hth' (.inl hst)
    rw [hrun]
    exact h.unique t th hth (hst' hst)
  sleeping t th' hth' hs := by
    obtain ⟨th, hth, hc, -, hs'⟩ := hthreads t th' hth' (.inr hs)
    rw [hc]
    exact h.sleeping t th hth (hs' hs)
  main := by rw [hrun]; exact h.main.imp id hmain
  armed := by unfold State.TimerArmed; rw [htimer]; exact h.armed
  setTimer := hset.trans h.setTimer
  quantum := ⟨hquantum.trans h.quantum.stored, h.quantum.pos, h.quantum.lt⟩

theorem consistent_spawned (h : Consistent n q s) {id : ℤ} (htop : s.ids.top? = some id)
    (hfree : s.threads id = none) : Consistent n q (spawned id s) := by
  have hrun : s.runningThread ≠ id := by
    intro e
    obtain ⟨th, hth, -⟩ := h.running
    rw [e, hfree] at hth
    cases hth
  refine h.of_containers (h.toContainers.adopt htop) rfl (?_) ?_
    (List.mem_append_left _) rfl rfl rfl
  · intro t th' hth' hor
    by_cases ht : t = id
    · subst ht
      simp only [spawned, State.setThread_threads, Function.update_self] at hth'
      cases hth'
      rcases hor with hst | hs
      · cases hst
      · exact absurd hs (h.absent _ hfree).2.2
    · simp only [spawned, State.setThread_threads, Function.update_of_ne ht] at hth'
      exact ⟨th', hth', rfl, fun hst => hst, fun hs => hs⟩
  · simp [spawned, hrun]

/-- Where sleep time and membership in `sleeping` agree, `check_sleeping` reads the membership. -/
theorem checkSleeping_iff (h : Consistent n q s) {t : ℤ} {th : Thread}
    (hth : s.threads t = some th) :
    th.checkSleeping = true ↔ t ∉ s.sleeping :=
  ⟨fun hc hs => Bool.false_ne_true ((h.sleeping t th hth hs).symm.trans hc),
    (h.agrees t th hth).awake⟩

/-- A thread purged from every container, and its id freed. -/
def purged (tid : ℤ) (s : State) : State :=
  releaseThread tid { s with
    readyQueue := s.readyQueue.erase tid
    blocked := s.blocked.erase tid
    sleeping := s.sleeping.erase tid }

/-- The purge of `sleeping` removes the thread in any case. -/
theorem purge_sleeping (h : Consistent n q s) {tid : ℤ} {th : Thread}
    (hth : s.threads tid = some th) :
    (if th.checkSleeping then s.sleeping else s.sleeping.erase tid) = s.sleeping.erase tid := by
  split_ifs with hc
  · exact (SortedKeys.erase_of_not_mem ((h.checkSleeping_iff hth).mp hc)).symm
  · rfl

theorem terminatedReady_eq (h : Consistent n q s) {tid : ℤ} {th : Thread}
    (hth : s.threads tid = some th) (hst : th.state = .ready) :
    terminatedReady tid th s = purged tid s := by
  have hb : tid ∉ s.blocked := by rw [(h.agrees _ _ hth).blocked, hst]; nofun
  unfold terminatedReady purged
  rw [h.purge_sleeping hth, SortedKeys.erase_of_not_mem hb]

theorem terminatedBlocked_eq (h : Consistent n q s) {tid : ℤ} {th : Thread}
    (hth : s.threads tid = some th) (hst : th.state = .blocked) :
    terminatedBlocked tid th s = purged tid s := by
  have hq : tid ∉ s.readyQueue := by rw [(h.agrees _ _ hth).queued, hst]; nofun
  unfold terminatedBlocked purged
  rw [h.purge_sleeping hth, List.erase_of_not_mem hq]

theorem consistent_purged (h : Consistent n q s) {tid : ℤ} {th : Thread} (hmain : tid ≠ 0)
    (hth : s.threads tid = some th) (hst : th.state ≠ .running) :
    Consistent n q (purged tid s) := by
  have hne : s.runningThread ≠ tid := fun e => hst (h.state_of_running (e ▸ hth))
  refine h.of_containers (h.toContainers.release hth rfl
    rfl (h.readyNodup.erase _) (?_) ?_) rfl (?_) ?_ ?_ rfl rfl rfl
  · intro t ht
    simp [purged, releaseThread, List.mem_erase_of_ne ht, ht]
  · simp [purged, releaseThread, h.readyNodup.mem_erase_iff]
  · intro t u hu _
    by_cases ht : t = tid
    · subst ht; simp [purged, releaseThread] at hu
    · simp only [purged, releaseThread, State.eraseThread_threads, Function.update_of_ne ht] at hu
      exact ⟨u, hu, rfl, fun hst => hst, fun hs => (SortedKeys.mem_erase.mp hs).2⟩
  · simp [purged, releaseThread, hne]
  · exact (List.mem_erase_of_ne hmain.symm).mpr

theorem consistent_blockedReady (h : Consistent n q s) {tid : ℤ} {th : Thread} (hmain : tid ≠ 0)
    (hth : s.threads tid = some th) (hst : th.state = .ready) :
    Consistent n q (blockedReady tid th s) := by
  have hne : s.runningThread ≠ tid := by
    intro e
    rw [h.state_of_running (e ▸ hth)] at hst; cases hst
  have hrq : (blockedReady tid th s).readyQueue = s.readyQueue.erase tid := by
    show (if th.checkSleeping then s.readyQueue.erase tid else s.readyQueue) = _
    split_ifs with hc
    · rfl
    · have hq : tid ∉ s.readyQueue := by
        rw [(h.agrees _ _ hth).queued, ← h.checkSleeping_iff hth]
        exact fun hq => hc hq.2
      exact (List.erase_of_not_mem hq).symm
  refine h.of_containers (h.toContainers.modify hth rfl rfl
    (hrq ▸ h.readyNodup.erase _) (?_) ?_) rfl (?_) ?_ ?_ rfl rfl rfl
  · intro t ht
    rw [hrq, List.mem_erase_of_ne ht]
    simp [blockedReady, ht]
  · exact ⟨(h.agrees _ _ hth).id, by rw [hrq]; simp [h.readyNodup.mem_erase_iff],
      by simp [blockedReady], nofun, (h.agrees _ _ hth).awake⟩
  · intro t u hu hor
    by_cases ht : t = tid
    · subst ht
      simp only [blockedReady, State.setThread_threads, Function.update_self] at hu
      cases hu
      exact ⟨th, hth, rfl, nofun, fun hs => hs⟩
    · simp only [blockedReady, State.setThread_threads, Function.update_of_ne ht] at hu
      exact ⟨u, hu, rfl, fun hst => hst, fun hs => hs⟩
  · simp [blockedReady, hne]
  · rw [hrq]
    exact (List.mem_erase_of_ne hmain.symm).mpr

theorem consistent_resumed (h : Consistent n q s) {tid : ℤ} {th : Thread}
    (hth : s.threads tid = some th) (hst : th.state = .blocked) :
    Consistent n q (resumed tid th s) := by
  have hid := (h.agrees _ _ hth).id
  have hq : tid ∉ s.readyQueue := by rw [(h.agrees _ _ hth).queued, hst]; simp
  have hne : s.runningThread ≠ tid := by
    intro e
    rw [h.state_of_running (e ▸ hth)] at hst; cases hst
  have hrq : (resumed tid th s).readyQueue =
      if th.checkSleeping then s.readyQueue ++ [tid] else s.readyQueue := by
    rw [← hid]; rfl
  refine h.of_containers (h.toContainers.modify hth rfl rfl ?_
    (?_) ?_) rfl (?_) ?_ ?_ rfl rfl rfl
  · rw [hrq]
    split_ifs
    · exact List.nodup_append.mpr ⟨h.readyNodup, List.nodup_singleton _, fun t ht u hu e =>
        hq (by rw [← List.mem_singleton.mp hu, ← e]; exact ht)⟩
    · exact h.readyNodup
  · intro t ht
    rw [hrq]
    refine ⟨?_, by simp [resumed, ht], Iff.rfl⟩
    split_ifs <;> simp [ht]
  · refine ⟨hid, ?_, by simp [resumed], fun _ hr => ?_, (h.agrees _ _ hth).awake⟩
    · rw [hrq]
      show _ ↔ _ ∧ tid ∉ s.sleeping
      rw [← h.checkSleeping_iff hth]
      split_ifs with hc <;> simp [hc, hq]
    · cases hr
  · intro t u hu hor
    by_cases ht : t = tid
    · subst ht
      simp only [resumed, State.setThread_threads, Function.update_self] at hu
      cases hu
      refine ⟨th, hth, rfl, fun hr => ?_, fun hs => hs⟩
      cases hr
    · simp only [resumed, State.setThread_threads, Function.update_of_ne ht] at hu
      exact ⟨u, hu, rfl, fun hst => hst, fun hs => hs⟩
  · simp [resumed, hne]
  · intro h0
    rw [hrq]
    split_ifs
    · exact List.mem_append_left _ h0
    · exact h0

end Consistent

/-! ## Every operation -/

/-- A decision that returns from a suspended state has the effect `Decision` describes. -/
theorem Suspended.decision (h : Suspended n q s) (hd : makeSchedulingDecision s = .ok s') :
    Decision s s' := makeSchedulingDecision_cases h.identified h.sleepersLive hd

/-- **Step rule.** Every operation that returns or switches keeps the scheduler consistent. -/
theorem Effect.consistent {op : Op} (h : Consistent n q s) (he : Effect op s s') :
    Consistent n q s' := by
  cases he with
  | unchanged => exact h
  | spawn _ htop hfree => exact h.consistent_spawned htop hfree
  | terminateReady hmain hth hst _ _ =>
      rw [h.terminatedReady_eq hth hst]
      exact h.consistent_purged hmain hth (hst ▸ nofun)
  | terminateBlocked hmain hth hst _ _ =>
      rw [h.terminatedBlocked_eq hth hst]
      exact h.consistent_purged hmain hth (hst ▸ nofun)
  | terminateSelf hmain hth hst hd =>
      have hs := h.suspended_selfTerminated hmain hth hst
      exact hs.consistent (hs.decision hd)
  | blockReady hmain hth hst _ => exact h.consistent_blockedReady hmain hth hst
  | blockSelf hmain hth hst hd =>
      have hs := h.suspended_selfBlocked hmain hth hst
      exact hs.consistent (hs.decision hd)
  | resume hth hst _ => exact h.consistent_resumed hth hst
  | sleep hmain hth hd =>
      rename_i k thread
      have hs := h.suspended_fellAsleep k hmain hth
      exact hs.consistent (hs.decision hd)
  | tick hth hd =>
      have hs := h.suspended_preempted hth
      exact hs.consistent (hs.decision hd)

/-- A step of the library is an operation that returned or switched. -/
theorem library_step {op : Op} (h : (library n q).step op s = some s') :
    ∃ r, exec op s = .ok (r, s') := by
  simp only [library] at h
  split_ifs at h
  cases he : exec op s with
  | error e => rw [he] at h; cases h
  | ok rs =>
      rw [he] at h
      cases h
      exact ⟨rs.1, rfl⟩

theorem Consistent.effect (h : Consistent n q s) {op : Op}
    (hstep : (library n q).step op s = some s') : Effect op s s' := by
  obtain ⟨r, hr⟩ := library_step hstep
  exact exec_effect h.free_of_mem_ids hr

/-- A step of the library keeps it consistent. -/
theorem Consistent.step (h : Consistent n q s) {op : Op}
    (hstep : (library n q).step op s = some s') : Consistent n q s' := (h.effect hstep).consistent h

/-! ## What can go wrong -/

namespace Suspended

/-- A decision from a suspended state returns: it finds a thread to run, and the timer takes the
quantum. -/
theorem decides (h : Suspended n q s) : ∃ s', makeSchedulingDecision s = .ok s' := by
  refine makeSchedulingDecision_ok h.identified h.sleepersLive (List.ne_nil_of_mem h.main)
    (fun t ht => h.live_of_queued ht) ?_
  have hpos := h.quantum.pos
  have hlt := h.quantum.lt
  rw [h.quantum.stored]
  simp only [quantumOf, Timeval.Valid]
  omega

end Suspended

/-- A call that terminates a `READY` thread with time left to sleep. -/
def TerminatesSleeper (op : Op) (s : State) : Prop :=
  ∃ tid th, op = .terminate tid ∧ tid ≠ 0 ∧ s.threads tid = some th ∧ th.state = .ready ∧
    th.checkSleeping = false

theorem uthreadSpawn_ok (e : ℕ) : ∃ r s', uthreadSpawn e s = .ok (r, s') := by
  unfold uthreadSpawn
  split
  · exact ⟨_, _, rfl⟩
  · split_ifs
    · exact ⟨_, _, rfl⟩
    · exact ⟨_, _, rfl⟩

section defined

variable (h : Consistent n q s)
include h

theorem Consistent.scheduler_ok : ∃ s', scheduler s = .ok (.switched, s') := by
  obtain ⟨th, hth, -⟩ := h.running
  obtain ⟨s', hs'⟩ := (h.suspended_preempted hth).decides
  refine ⟨s', ?_⟩
  unfold scheduler
  rw [hth]
  exact bind_ok.mpr ⟨s', hs', rfl⟩

/-- The purge of `sleeping` finds a thread that has time left to sleep. -/
theorem Consistent.purgeSleeping_ok {tid : ℤ} {th : Thread} (hth : s.threads tid = some th) :
    purgeSleeping tid th s.sleeping = .ok (s.sleeping.erase tid) := by
  refine CoreOS.Uthreads.purgeSleeping_ok.mpr ⟨?_, (h.purge_sleeping hth).symm⟩
  intro hc
  by_contra hs
  rw [(h.checkSleeping_iff hth).mpr hs] at hc
  cases hc

theorem Consistent.uthreadTerminate_ok {tid : ℤ} (hmain : tid ≠ 0)
    (hop : ¬ TerminatesSleeper (.terminate tid) s) :
    ∃ r s', uthreadTerminate tid s = .ok (r, s') := by
  unfold uthreadTerminate
  rw [if_neg (show ¬ tid = mainThreadId from hmain)]
  cases hth : s.threads tid with
  | none => exact ⟨_, _, rfl⟩
  | some th =>
      dsimp only
      cases hst : th.state with
      | ready =>
          have hc : th.checkSleeping = true := by
            by_contra hc
            exact hop ⟨tid, th, rfl, hmain, hth, hst, by simpa using hc⟩
          have hq : tid ∈ s.readyQueue :=
            (h.agrees _ _ hth).queued.mpr ⟨hst, (h.checkSleeping_iff hth).mp hc⟩
          exact ⟨_, _, bind_ok.mpr ⟨_, eraseFound_ok.mpr ⟨hq, rfl⟩,
            bind_ok.mpr ⟨_, h.purgeSleeping_ok hth, rfl⟩⟩⟩
      | running =>
          obtain ⟨s', hs'⟩ := (h.suspended_selfTerminated hmain hth hst).decides
          exact ⟨_, s', bind_ok.mpr ⟨_, setTimerThreads_cancel s, bind_ok.mpr ⟨s', hs', rfl⟩⟩⟩
      | blocked =>
          have hb : tid ∈ s.blocked := (h.agrees _ _ hth).blocked.mpr hst
          exact ⟨_, _, bind_ok.mpr ⟨_, eraseKey_ok.mpr ⟨hb, rfl⟩,
            bind_ok.mpr ⟨_, h.purgeSleeping_ok hth, rfl⟩⟩⟩

theorem Consistent.uthreadBlock_ok (tid : ℤ) : ∃ r s', uthreadBlock tid s = .ok (r, s') := by
  unfold uthreadBlock
  split_ifs with hmain
  · exact ⟨_, _, rfl⟩
  cases hth : s.threads tid with
  | none => exact ⟨_, _, rfl⟩
  | some th =>
      dsimp only
      cases hst : th.state with
      | blocked => exact ⟨_, _, rfl⟩
      | ready =>
          have hq : th.checkSleeping = true → tid ∈ s.readyQueue := fun hc =>
            (h.agrees _ _ hth).queued.mpr ⟨hst, (h.checkSleeping_iff hth).mp hc⟩
          exact ⟨_, _, bind_ok.mpr ⟨_, purgeReadyQueue_ok.mpr ⟨hq, rfl⟩, rfl⟩⟩
      | running =>
          obtain ⟨s', hs'⟩ := (h.suspended_selfBlocked hmain hth hst).decides
          exact ⟨_, s', bind_ok.mpr ⟨_, setTimerThreads_cancel _, bind_ok.mpr ⟨s', hs', rfl⟩⟩⟩

theorem Consistent.uthreadResume_ok (tid : ℤ) : ∃ r s', uthreadResume tid s = .ok (r, s') := by
  unfold uthreadResume
  cases hth : s.threads tid with
  | none => exact ⟨_, _, rfl⟩
  | some th =>
      dsimp only
      by_cases hst : th.state = .blocked
      · rw [if_pos hst]
        have hb : tid ∈ s.blocked := (h.agrees _ _ hth).blocked.mpr hst
        exact ⟨_, _, bind_ok.mpr ⟨_, eraseKey_ok.mpr ⟨hb, rfl⟩, rfl⟩⟩
      · rw [if_neg hst]
        exact ⟨_, _, rfl⟩

theorem Consistent.uthreadSleep_ok (k : ℤ) : ∃ r s', uthreadSleep k s = .ok (r, s') := by
  unfold uthreadSleep
  split_ifs with hmain
  · exact ⟨_, _, rfl⟩
  · obtain ⟨th, hth, -⟩ := h.running
    obtain ⟨s', hs'⟩ := (h.suspended_fellAsleep k hmain hth).decides
    exact ⟨_, s', bind_ok.mpr ⟨th, by rw [threadsAt, hth], bind_ok.mpr
      ⟨_, setTimerThreads_cancel _, bind_ok.mpr ⟨s', hs', rfl⟩⟩⟩⟩

/-- **What can go wrong.** In a consistent state an operation returns or switches, except that
terminating the main thread ends the process, and terminating a sleeping `READY` thread (whose id
is looked for in `ready_queue`) may do anything. -/
theorem Consistent.exec_ok (op : Op) (hmain : op ≠ .terminate 0)
    (hop : ¬ TerminatesSleeper op s) : ∃ r s', exec op s = .ok (r, s') := by
  cases op with
  | spawn e => exact uthreadSpawn_ok e
  | terminate tid => exact h.uthreadTerminate_ok (fun e => hmain (e ▸ rfl)) hop
  | block tid => exact h.uthreadBlock_ok tid
  | resume tid => exact h.uthreadResume_ok tid
  | sleep k => exact h.uthreadSleep_ok k
  | tick =>
      obtain ⟨s', hs'⟩ := h.scheduler_ok
      exact ⟨_, s', hs'⟩

end defined

/-- The failing lookup: a sleeping `READY` thread is not in `ready_queue`. -/
theorem Consistent.exec_undefined (h : Consistent n q s) {op : Op} (hop : TerminatesSleeper op s) :
    exec op s = .error .undefined := by
  obtain ⟨tid, th, rfl, hmain, hth, hst, hc⟩ := hop
  have hq : tid ∉ s.readyQueue := by
    intro hq
    rw [(h.checkSleeping_iff hth).mpr ((h.agrees _ _ hth).queued.mp hq).2] at hc
    cases hc
  show uthreadTerminate tid s = _
  simp only [uthreadTerminate, mainThreadId, if_neg hmain, hth, hst, eraseFound, if_neg hq]
  rfl

/-! ## Runs -/

/-- The globals after a successful `uthread_init`. -/
def afterInit (n : ℕ) (q : ℤ) : State :=
  { State.zero.setThread 0 { id := 0, state := .running, timesUsedInQuantums := 1 } with
    countTotalQuantums := 1
    quantum := quantumOf q
    ids := (initialIds n).pop
    timer := quantumOf q }

theorem initialIds_succ (m : ℕ) :
    (initialIds (m + 1)).toList = 0 :: (List.range m).map fun i : ℕ => (i : ℤ) + 1 := by
  simp [initialIds, List.range_succ_eq_map]

/-- **Initial states.** `uthread_init` succeeds on a quantum below a second only, and then in one
way. -/
theorem library_init : (library n q).init s ↔ s = afterInit n q ∧ 1 ≤ n ∧ 0 < q ∧ q < 1000000 := by
  simp only [library, uthreadInit]
  by_cases hq : q ≤ 0
  · rw [if_pos hq]
    refine ⟨fun h => ?_, fun h => absurd hq (not_le.mpr h.2.2.1)⟩
    cases h
  rw [if_neg hq]
  cases n with
  | zero =>
      refine ⟨fun h => ?_, fun h => absurd h.2.1 (Nat.not_succ_le_zero 0)⟩
      cases h
  | succ m =>
      have htop : (initialIds (m + 1)).top? = some 0 := by simp [MinHeap.top?, initialIds_succ]
      rw [htop]
      have hvalid :
          ((quantumOf q).itInterval.Valid ∧ (quantumOf q).itValue.Valid) ↔ q < 1000000 := by
        simp [Timeval.Valid, quantumOf, (not_le.mp hq).le]
      dsimp only [setTimerThreads]
      simp only [State.setThread_quantum, hvalid]
      by_cases hlt : q < 1000000
      · rw [if_pos hlt]
        refine ⟨?_, ?_⟩
        · intro h
          cases h
          exact ⟨rfl, Nat.succ_pos _, not_le.mp hq, hlt⟩
        · rintro ⟨rfl, -⟩
          rfl
      · rw [if_neg hlt]
        refine ⟨fun h => ?_, fun h => absurd h.2.2.2 hlt⟩
        cases h

/-- The runs from `afterInit` are the runs after a successful `uthread_init`. -/
theorem reachable_afterInit (hn : 1 ≤ n) (hpos : 0 < q) (hlt : q < 1000000) {ops : List Op}
    (h : (library n q).run ops (afterInit n q) = some s) : (library n q).Reachable s :=
  .run (.init (library_init.mpr ⟨rfl, hn, hpos, hlt⟩)) h

/-- At first the main thread is the only one. -/
theorem afterInit_threads {t : ℤ} {th : Thread} (hth : (afterInit n q).threads t = some th) :
    t = 0 ∧ th = { id := 0, state := .running, timesUsedInQuantums := 1 } := by
  by_cases ht : t = 0
  · subst ht
    simp only [afterInit, State.setThread_threads, Function.update_self] at hth
    exact ⟨rfl, (Option.some.inj hth).symm⟩
  · simp [afterInit, State.zero, ht] at hth

/-- The ids that are free at first. -/
theorem initialIds_pop (m : ℕ) :
    (initialIds (m + 1)).pop.toList = (List.range m).map fun i : ℕ => (i : ℤ) + 1 := by
  simp [MinHeap.pop, initialIds_succ]

/-- At first every admissible id but that of the main thread is free. -/
theorem mem_initialIds_pop {m : ℕ} {t : ℤ} :
    t ∈ (initialIds (m + 1)).pop ↔ 1 ≤ t ∧ t < (m + 1 : ℕ) := by
  show t ∈ (initialIds (m + 1)).pop.toList ↔ _
  simp only [initialIds_pop, List.mem_map, List.mem_range]
  constructor
  · rintro ⟨i, hi, rfl⟩
    push_cast
    omega
  · rintro ⟨h1, hm⟩
    exact ⟨(t - 1).toNat, by push_cast at hm; omega, by omega⟩

/-- At first the containers are empty. -/
theorem Containers.init (m : ℕ) : Containers (m + 1) (afterInit (m + 1) q) where
  readyNodup := List.nodup_nil
  agrees t th hth := by
    obtain ⟨rfl, rfl⟩ := afterInit_threads hth
    exact ⟨rfl, by simp [afterInit, State.zero], by simp [afterInit, State.zero],
      fun ht => absurd ht (SortedKeys.not_mem_empty _), fun _ => rfl⟩
  absent t _ := ⟨List.not_mem_nil, SortedKeys.not_mem_empty t, SortedKeys.not_mem_empty t⟩
  idsNodup := by
    show (initialIds (m + 1)).pop.toList.Nodup
    rw [initialIds_pop]
    apply List.nodup_range.map
    intro a b hab
    simpa using hab
  ids t := by
    show t ∈ (initialIds (m + 1)).pop ↔ _
    rw [mem_initialIds_pop]
    by_cases ht : t = 0
    · subst ht
      simp [afterInit]
    · simp only [afterInit, State.setThread_threads, Function.update_of_ne ht, State.zero, and_true]
      omega
  bounded t th hth := by
    obtain ⟨rfl, -⟩ := afterInit_threads hth
    exact ⟨le_rfl, Int.natCast_succ_pos m⟩

/-- The library starts consistent. -/
theorem Consistent.init (h : (library n q).init s) : Consistent n q s := by
  obtain ⟨rfl, hn, hpos, hlt⟩ := library_init.mp h
  obtain ⟨m, rfl⟩ := Nat.exists_eq_add_of_le' hn
  exact
    { toContainers := Containers.init m
      running := ⟨_, rfl, rfl⟩
      unique := fun t th hth _ => (afterInit_threads hth).1
      sleeping := fun t _ _ ht => absurd ht (SortedKeys.not_mem_empty t)
      main := .inl rfl
      armed := by simp [State.TimerArmed, afterInit, quantumOf, hpos.ne']
      setTimer := rfl
      quantum := ⟨rfl, hpos, hlt⟩ }

/-- **Run rule.** Every state in which user code runs is consistent. -/
theorem reachable_consistent (h : (library n q).Reachable s) : Consistent n q s :=
  h.invariant (fun _ h => .init h) fun _ _ _ h hstep => h.step hstep

end CoreOS.Uthreads
