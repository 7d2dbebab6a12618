import CoreOS.Uthreads.Effect

/-!
# Scheduler consistency

The invariant that ties the containers, the state of every thread and its sleep time together.

* `Agrees s t th` is what the containers say of one thread `th` with id `t`;
  `Containers n s` is that
  for every thread, with the facts about ids. It does not depend on who runs, and also holds of the
  states a scheduling decision starts from.
* `Suspended n q s` adds that nobody runs (the input of a decision), `Consistent n q s` that exactly
  `running_thread` does (the states in which user code runs). Here `n` is `MAX_THREAD_NUM` and `q`
  the quantum.
* `Containers.modify` / `Containers.release` / `Containers.adopt`: changing one thread's record and
  its places, removing a thread, adding one. Every operation is an instance of one of them.
* `Suspended.consistent`: a decision takes a suspended state to a consistent one.
-/

namespace CoreOS.Uthreads

open CoreOS.Lib

variable {n : ℕ} {q : ℤ} {s s' : State}

/-! ## The invariants -/

/-- The containers agree with the state and the sleep time of the thread `th` with id `t`. -/
structure Agrees (s : State) (t : ℤ) (th : Thread) : Prop where
  /-- `id_` is the key. -/
  id : th.id = t
  /-- The queue holds the `READY` threads that do not sleep. -/
  queued : t ∈ s.readyQueue ↔ th.state = .ready ∧ t ∉ s.sleeping
  /-- `blocked` holds the `BLOCKED` threads. -/
  blocked : t ∈ s.blocked ↔ th.state = .blocked
  /-- A sleeper does not run. -/
  asleep : t ∈ s.sleeping → th.state ≠ .running
  /-- A thread outside `sleeping` has no time left to sleep. -/
  awake : t ∉ s.sleeping → th.checkSleeping = true

/-- It is about the places of the thread only. -/
theorem Agrees.congr {s s' : State} {t : ℤ} {th : Thread} (h : Agrees s t th)
    (hplaces : (t ∈ s'.readyQueue ↔ t ∈ s.readyQueue) ∧ (t ∈ s'.blocked ↔ t ∈ s.blocked) ∧
      (t ∈ s'.sleeping ↔ t ∈ s.sleeping)) : Agrees s' t th := by
  obtain ⟨hready, hblocked, hsleeping⟩ := hplaces
  exact ⟨h.id, by rw [hready, hsleeping, h.queued], by rw [hblocked, h.blocked],
    fun ht => h.asleep (hsleeping.mp ht), fun ht => h.awake fun hs => ht (hsleeping.mpr hs)⟩

/-- The containers agree with the threads, and the ids with the keys of `threads`. -/
structure Containers (n : ℕ) (s : State) : Prop where
  /-- No thread is queued twice. -/
  readyNodup : s.readyQueue.Nodup
  agrees : ∀ t th, s.threads t = some th → Agrees s t th
  /-- The containers hold threads only. -/
  absent : ∀ t, s.threads t = none → t ∉ s.readyQueue ∧ t ∉ s.blocked ∧ t ∉ s.sleeping
  /-- No id is free twice. -/
  idsNodup : s.ids.toList.Nodup
  /-- The free ids are the admissible ones without a thread. -/
  ids : ∀ t, t ∈ s.ids ↔ (0 ≤ t ∧ t < n) ∧ s.threads t = none
  /-- Ids in use are admissible. -/
  bounded : ∀ t th, s.threads t = some th → 0 ≤ t ∧ t < n

/-- A quantum that `setitimer` accepts, as `uthread_init` stores it. -/
structure ProperQuantum (q : ℤ) (s : State) : Prop where
  stored : s.quantum = quantumOf q
  pos : 0 < q
  lt : q < 1000000

/-- A state a scheduling decision starts from. -/
structure Suspended (n : ℕ) (q : ℤ) (s : State) : Prop extends Containers n s where
  /-- Nobody runs. -/
  idle : ∀ t th, s.threads t = some th → th.state ≠ .running
  /-- The main thread waits its turn. -/
  main : 0 ∈ s.readyQueue
  /-- The decision will leave the timer armed. -/
  rearm : s.setTimer = true ∨ s.TimerArmed
  quantum : ProperQuantum q s

/-- A state in which user code runs. -/
structure Consistent (n : ℕ) (q : ℤ) (s : State) : Prop extends Containers n s where
  /-- `running_thread` exists and is `RUNNING`. -/
  running : ∃ th, s.threads s.runningThread = some th ∧ th.state = .running
  /-- Nobody else is. -/
  unique : ∀ t th, s.threads t = some th → th.state = .running → t = s.runningThread
  /-- A sleeper has time left to sleep. -/
  sleeping : ∀ t th, s.threads t = some th → t ∈ s.sleeping → th.checkSleeping = false
  /-- The main thread runs or waits its turn. -/
  main : s.runningThread = 0 ∨ 0 ∈ s.readyQueue
  armed : s.TimerArmed
  setTimer : s.setTimer = false
  quantum : ProperQuantum q s

/-! ## Reading the invariants -/

namespace Containers

section reading

variable (h : Containers n s)
include h

theorem identified : Identified s := fun t th hth => (h.agrees t th hth).id

theorem live_of_queued {t : ℤ} (ht : t ∈ s.readyQueue) : ∃ th, s.threads t = some th := by
  by_contra hn
  exact (h.absent t (Option.eq_none_iff_forall_ne_some.mpr fun th e => hn ⟨th, e⟩)).1 ht

theorem sleepersLive : SleepersLive s := by
  intro t ht
  by_contra hn
  exact (h.absent t (Option.eq_none_iff_forall_ne_some.mpr fun th e => hn ⟨th, e⟩)).2.2 ht

theorem free_of_mem_ids : ∀ id ∈ s.ids, s.threads id = none := fun id hid => ((h.ids id).mp hid).2

/-- A queued thread is `READY` and does not sleep. -/
theorem ready_of_queued {t : ℤ} (ht : t ∈ s.readyQueue) :
    ∃ th, s.threads t = some th ∧ th.state = .ready ∧ t ∉ s.sleeping := by
  obtain ⟨th, hth⟩ := h.live_of_queued ht
  exact ⟨th, hth, (h.agrees t th hth).queued.mp ht⟩

end reading

/-- Changing the record of one thread and its places keeps the containers in agreement, if they
agree about that thread. -/
theorem modify (h : Containers n s) {tid : ℤ} {th th' : Thread} (hth : s.threads tid = some th)
    (hthreads : s'.threads = Function.update s.threads tid (some th')) (hids : s'.ids = s.ids)
    (hnd : s'.readyQueue.Nodup)
    (hothers : ∀ t, t ≠ tid → (t ∈ s'.readyQueue ↔ t ∈ s.readyQueue) ∧
      (t ∈ s'.blocked ↔ t ∈ s.blocked) ∧ (t ∈ s'.sleeping ↔ t ∈ s.sleeping))
    (hown : Agrees s' tid th') : Containers n s' where
  readyNodup := hnd
  agrees t u hu := by
    by_cases ht : t = tid
    · subst ht
      rw [hthreads, Function.update_self] at hu
      cases hu
      exact hown
    · rw [hthreads, Function.update_of_ne ht] at hu
      exact (h.agrees t u hu).congr (hothers t ht)
  absent t hu := by
    by_cases ht : t = tid
    · subst ht
      rw [hthreads, Function.update_self] at hu
      cases hu
    · rw [hthreads, Function.update_of_ne ht] at hu
      obtain ⟨h1, h2, h3⟩ := hothers t ht
      rw [h1, h2, h3]
      exact h.absent t hu
  idsNodup := hids ▸ h.idsNodup
  ids t := by
    rw [hids, h.ids, hthreads]
    by_cases ht : t = tid
    · subst ht; simp [hth]
    · simp [ht]
  bounded t u hu := by
    by_cases ht : t = tid
    · subst ht; exact h.bounded t th hth
    · rw [hthreads, Function.update_of_ne ht] at hu
      exact h.bounded t u hu

/-- Purging a thread from every container and freeing its id keeps the containers in agreement. -/
theorem release (h : Containers n s) {tid : ℤ} {th : Thread} (hth : s.threads tid = some th)
    (hthreads : s'.threads = Function.update s.threads tid none) (hids : s'.ids = s.ids.push tid)
    (hnd : s'.readyQueue.Nodup)
    (hothers : ∀ t, t ≠ tid → (t ∈ s'.readyQueue ↔ t ∈ s.readyQueue) ∧
      (t ∈ s'.blocked ↔ t ∈ s.blocked) ∧ (t ∈ s'.sleeping ↔ t ∈ s.sleeping))
    (hown : tid ∉ s'.readyQueue ∧ tid ∉ s'.blocked ∧ tid ∉ s'.sleeping) : Containers n s' where
  readyNodup := hnd
  agrees t u hu := by
    have ht : t ≠ tid := fun e => by rw [hthreads, e, Function.update_self] at hu; cases hu
    rw [hthreads, Function.update_of_ne ht] at hu
    exact (h.agrees t u hu).congr (hothers t ht)
  absent t hu := by
    by_cases ht : t = tid
    · exact ht ▸ hown
    · rw [hthreads, Function.update_of_ne ht] at hu
      obtain ⟨h1, h2, h3⟩ := hothers t ht
      rw [h1, h2, h3]
      exact h.absent t hu
  idsNodup := by
    rw [hids, MinHeap.nodup_push]
    refine ⟨?_, h.idsNodup⟩
    intro hmem
    rw [h.free_of_mem_ids tid hmem] at hth
    cases hth
  ids t := by
    rw [hids, MinHeap.mem_push, h.ids, hthreads]
    by_cases ht : t = tid
    · subst ht; simpa using h.bounded t th hth
    · simp [ht]
  bounded t u hu := by
    have ht : t ≠ tid := fun e => by rw [hthreads, e, Function.update_self] at hu; cases hu
    rw [hthreads, Function.update_of_ne ht] at hu
    exact h.bounded t u hu

/-- Giving the least free id to a new `READY` thread at the back of the queue keeps the containers
in agreement. -/
theorem adopt (h : Containers n s) {id : ℤ} (htop : s.ids.top? = some id) :
    Containers n (spawned id s) := by
  have hl := MinHeap.toList_of_top? htop
  have hmem : id ∈ s.ids := by rw [MinHeap.mem_def, hl]; exact List.mem_cons_self
  obtain ⟨hbound, hfree⟩ := (h.ids id).mp hmem
  obtain ⟨hrq, hbl, hsl⟩ := h.absent id hfree
  have hnd := h.idsNodup
  rw [hl] at hnd
  obtain ⟨hnot, hnd⟩ := List.nodup_cons.mp hnd
  exact
    { readyNodup := by
        simpa [spawned] using List.nodup_append.mpr ⟨h.readyNodup, List.nodup_singleton id,
          fun t ht u hu e => hrq (by rw [← List.mem_singleton.mp hu, ← e]; exact ht)⟩
      agrees := by
        intro t th hth
        by_cases ht : t = id
        · subst ht
          simp only [spawned, State.setThread_threads, Function.update_self] at hth
          cases hth
          exact ⟨rfl, by simp [spawned, hsl], by simp [spawned, hbl], by simp [spawned, hsl],
            fun _ => rfl⟩
        · simp only [spawned, State.setThread_threads, Function.update_of_ne ht] at hth
          obtain ⟨hid, hqueued, hblocked, hasleep, hawake⟩ := h.agrees t th hth
          exact ⟨hid, by simpa [spawned, ht] using hqueued, hblocked, hasleep, hawake⟩
      absent := by
        intro t hu
        by_cases ht : t = id
        · subst ht; simp [spawned] at hu
        · simp only [spawned, State.setThread_threads, Function.update_of_ne ht] at hu
          simpa [spawned, ht] using h.absent t hu
      idsNodup := hnd
      ids := by
        intro t
        have ht := h.ids t
        rw [MinHeap.mem_def, hl, List.mem_cons] at ht
        show t ∈ s.ids.pop.toList ↔ _
        by_cases he : t = id
        · subst he; simp [spawned, hnot]
        · simpa [spawned, he] using ht
      bounded := by
        intro t th hth
        by_cases ht : t = id
        · exact ht ▸ hbound
        · simp only [spawned, State.setThread_threads, Function.update_of_ne ht] at hth
          exact h.bounded t th hth }

end Containers

/-! ## The loop over `sleeping` -/

/-- `rested` keeps the threads, up to their sleep time. -/
theorem rested_eq_some {t : ℤ} {th' : Thread} : rested s t = some th' ↔
    ∃ th, s.threads t = some th ∧
      th' = if t ∈ s.sleeping then th.reduceSleeping s.quantum else th := by
  unfold rested
  split_ifs
  · simp [eq_comm]
  · simp

theorem rested_eq_none {t : ℤ} : rested s t = none ↔ s.threads t = none := by
  unfold rested
  split_ifs <;> simp

theorem mem_woken {t : ℤ} {th : Thread} (hth : s.threads t = some th) :
    t ∈ woken s ↔ t ∈ s.sleeping ∧ wakes s t = true ∧ th.state ≠ .blocked := by
  simp [woken, enqueues, wakes, hth, SortedKeys.mem_def]

theorem mem_woken_live {t : ℤ} (ht : t ∈ woken s) : ∃ th, s.threads t = some th := by
  obtain ⟨-, he⟩ := List.mem_filter.mp ht
  cases hth : s.threads t with
  | none => simp [enqueues, hth] at he
  | some th => exact ⟨th, rfl⟩

theorem wakes_eq {t : ℤ} {th : Thread} (hth : s.threads t = some th) :
    wakes s t = (th.reduceSleeping s.quantum).checkSleeping := by
  simp [wakes, hth]

/-! ## Decisions -/

/-- What `dispatched` and `others` say of a single thread. -/
theorem Decision.threads_some (hd : Decision s s') {t : ℤ} {th' : Thread}
    (h : s'.threads t = some th') : ∃ th, s.threads t = some th ∧ th'.id = th.id ∧
      th'.state = (if t = s'.runningThread then .running else th.state) ∧
      th'.checkSleeping = (if t ∈ s.sleeping then wakes s t else th.checkSleeping) := by
  by_cases ht : t = s'.runningThread
  · subst ht
    obtain ⟨th₁, h₁, h₂⟩ := hd.dispatched
    obtain ⟨th, hth, rfl⟩ := rested_eq_some.mp h₁
    rw [h] at h₂
    cases h₂
    refine ⟨th, hth, ?_, by simp, ?_⟩
    · split_ifs <;> simp
    · split_ifs <;> simp [wakes_eq hth]
  · rw [hd.others t ht] at h
    obtain ⟨th, hth, rfl⟩ := rested_eq_some.mp h
    refine ⟨th, hth, ?_, ?_, ?_⟩
    · split_ifs <;> simp
    · split_ifs <;> simp
    · split_ifs <;> simp [wakes_eq hth]

/-- A decision neither creates nor removes a thread. -/
theorem Decision.threads_none (hd : Decision s s') (t : ℤ) :
    s'.threads t = none ↔ s.threads t = none := by
  by_cases ht : t = s'.runningThread
  · subst ht
    obtain ⟨th₁, h₁, h₂⟩ := hd.dispatched
    obtain ⟨th, hth, -⟩ := rested_eq_some.mp h₁
    simp [h₂, hth]
  · rw [hd.others t ht, rested_eq_none]

namespace Suspended

variable (h : Suspended n q s)
include h

/-- The threads the loop wakes were not queued. -/
theorem nodup_queue : (s.readyQueue ++ woken s).Nodup := by
  refine List.nodup_append.mpr ⟨h.readyNodup, s.sleeping.nodup.filter _, ?_⟩
  rintro t ht _ hw rfl
  obtain ⟨hsl, -⟩ := List.mem_filter.mp hw
  obtain ⟨-, -, -, hns⟩ := h.ready_of_queued ht
  exact hns hsl

/-- Membership in the queue after the loop. -/
theorem mem_queue {t : ℤ} {th : Thread} (hth : s.threads t = some th) :
    t ∈ s.readyQueue ++ woken s ↔ th.state = .ready ∧ (t ∈ s.sleeping → wakes s t = true) := by
  have hidle := h.idle t th hth
  rw [List.mem_append, mem_woken hth, (h.agrees t th hth).queued]
  by_cases hs : t ∈ s.sleeping <;> cases hst : th.state <;> simp_all

section Decide

variable (hd : Decision s s')
include hd

/-- Who runs or waits in the queue after the decision. -/
theorem mem_running_queue {t : ℤ} {th : Thread} (hth : s.threads t = some th) :
    t ∈ s'.runningThread :: s'.readyQueue ↔
      th.state = .ready ∧ (t ∈ s.sleeping → wakes s t = true) := by
  rw [hd.queue, h.mem_queue hth]

/-- The queue has no duplicates, and the running thread is not in it. -/
theorem nodup_running_queue : s'.runningThread ∉ s'.readyQueue ∧ s'.readyQueue.Nodup := by
  have hnodup := h.nodup_queue
  rw [← hd.queue] at hnodup
  exact List.nodup_cons.mp hnodup

/-- The thread that was dispatched was `READY`, and has slept enough. -/
theorem ready_of_dispatched {th : Thread} (hth : s.threads s'.runningThread = some th) :
    th.state = .ready ∧ (s'.runningThread ∈ s.sleeping → wakes s s'.runningThread = true) :=
  (h.mem_running_queue hd hth).mp List.mem_cons_self

/-- The containers agree with the thread that was dispatched. -/
theorem agrees_dispatched {th' : Thread} (hth' : s'.threads s'.runningThread = some th') :
    Agrees s' s'.runningThread th' := by
  obtain ⟨th, hth, hid, hst, hc⟩ := hd.threads_some hth'
  have hagrees := h.agrees s'.runningThread th hth
  obtain ⟨hready, hwakes⟩ := h.ready_of_dispatched hd hth
  rw [if_pos rfl] at hst
  have hnotQueued := (h.nodup_running_queue hd).1
  refine ⟨hid.trans hagrees.id, ?_, ?_, ?_, ?_⟩
  · simp [hst, hnotQueued]
  · rw [hd.blocked, hagrees.blocked, hst, hready]
    simp
  · intro hs
    obtain ⟨hs, hw⟩ := (hd.sleeping _).mp hs
    rw [hwakes hs] at hw
    cases hw
  · intro _
    rw [hc]
    split_ifs with hs
    · exact hwakes hs
    · exact hagrees.awake hs

/-- The containers agree with every other thread. -/
theorem agrees_other {t : ℤ} (ht : t ≠ s'.runningThread) {th' : Thread}
    (hth' : s'.threads t = some th') : Agrees s' t th' := by
  obtain ⟨th, hth, hid, hst, hc⟩ := hd.threads_some hth'
  have hagrees := h.agrees t th hth
  rw [if_neg ht] at hst
  have hqueue := h.mem_running_queue hd hth
  rw [List.mem_cons, or_iff_right ht] at hqueue
  refine ⟨hid.trans hagrees.id, ?_, ?_, ?_, ?_⟩
  · rw [hqueue, hst, hd.sleeping]
    simp
  · rw [hd.blocked, hagrees.blocked, hst]
  · intro hs
    rw [hst]
    exact hagrees.asleep ((hd.sleeping t).mp hs).1
  · intro hs
    rw [hd.sleeping] at hs
    rw [hc]
    split_ifs with hsl
    · simpa [hsl] using hs
    · exact hagrees.awake hsl

/-- The containers hold threads only. -/
theorem absent_decided {t : ℤ} (ht : s'.threads t = none) :
    t ∉ s'.readyQueue ∧ t ∉ s'.blocked ∧ t ∉ s'.sleeping := by
  have hnone := (hd.threads_none t).mp ht
  obtain ⟨hqueue, hblocked, hsleeping⟩ := h.absent t hnone
  refine ⟨?_, ?_, ?_⟩
  · intro hq
    have hq' : t ∈ s.readyQueue ++ woken s := hd.queue ▸ List.mem_cons_of_mem _ hq
    rcases List.mem_append.mp hq' with hq' | hq'
    · exact hqueue hq'
    · obtain ⟨th, hth⟩ := mem_woken_live hq'
      rw [hnone] at hth
      cases hth
  · rwa [hd.blocked]
  · intro hs
    exact hsleeping ((hd.sleeping t).mp hs).1

/-- A decision leaves the containers in agreement with the threads. -/
theorem containers_decided : Containers n s' where
  readyNodup := (h.nodup_running_queue hd).2
  agrees t th' hth' := by
    by_cases ht : t = s'.runningThread
    · subst ht
      exact h.agrees_dispatched hd hth'
    · exact h.agrees_other hd ht hth'
  absent t ht := h.absent_decided hd ht
  idsNodup := by
    rw [hd.ids]
    exact h.idsNodup
  ids t := by rw [hd.ids, hd.threads_none, h.ids]
  bounded t th' hth' := by
    obtain ⟨th, hth, -⟩ := hd.threads_some hth'
    exact h.bounded t th hth

/-- A decision leaves the timer armed. -/
theorem armed_decided : s'.TimerArmed := by
  show s'.timer.itValue ≠ ⟨0, 0⟩
  rw [hd.timer]
  split_ifs with hset
  · rw [h.quantum.stored]
    simp [quantumOf, h.quantum.pos.ne']
  · exact h.rearm.resolve_left hset

/-- **A decision makes a suspended state consistent again.** -/
theorem consistent : Consistent n q s' where
  toContainers := h.containers_decided hd
  running := by
    obtain ⟨th, -, hth⟩ := hd.dispatched
    exact ⟨_, hth, rfl⟩
  unique t th' hth' hst := by
    by_contra hne
    obtain ⟨th, hth, -, hst', -⟩ := hd.threads_some hth'
    rw [if_neg hne] at hst'
    exact h.idle t th hth (hst'.symm.trans hst)
  sleeping t th' hth' ht := by
    obtain ⟨th, hth, -, -, hc⟩ := hd.threads_some hth'
    obtain ⟨hs, hw⟩ := (hd.sleeping t).mp ht
    rw [hc, if_pos hs, hw]
  main := by
    have h0 : (0 : ℤ) ∈ s'.runningThread :: s'.readyQueue := by
      rw [hd.queue]
      exact List.mem_append_left _ h.main
    exact (List.mem_cons.mp h0).imp Eq.symm id
  armed := h.armed_decided hd
  setTimer := hd.setTimer
  quantum := ⟨hd.quantum.trans h.quantum.stored, h.quantum.pos, h.quantum.lt⟩

end Decide

end Suspended

end CoreOS.Uthreads
