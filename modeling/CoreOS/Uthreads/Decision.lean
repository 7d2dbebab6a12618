import CoreOS.Uthreads.Library

/-!
# What one scheduling decision does

`make_scheduling_decision` is reached from a tick, a self-block, a sleep and a self-termination.
Its effect is said once, here, and every later module reads it off `Decision`.

* `wakes s t` / `enqueues s t`: the loop takes `t` out of `sleeping` / and puts it at the back of
  `ready_queue`; `woken s` lists the latter in the order of the map.
* `wakeSleeping_eq`: the loop over `sleeping`, in closed form (`afterWaking`).
* `Decision s s'`: the relation between the states before and after a decision, field by field;
  `makeSchedulingDecision_cases` (every decision that returns is one) and
  `makeSchedulingDecision_ok` (when it returns).
-/

namespace CoreOS.Uthreads

open CoreOS.Lib

/-! ## The sleepers -/

/-- The loop over `sleeping` finds no time left for `t`. -/
def wakes (s : State) (t : ℤ) : Bool :=
  (s.threads t).any fun th => (th.reduceSleeping s.quantum).checkSleeping

/-- The loop over `sleeping` appends `t` to `ready_queue`. -/
def enqueues (s : State) (t : ℤ) : Bool :=
  (s.threads t).any fun th =>
    (th.reduceSleeping s.quantum).checkSleeping && decide (th.state ≠ .blocked)

/-- The sleepers the loop appends to `ready_queue`, in the order it meets them. -/
def woken (s : State) : List ℤ := s.sleeping.toList.filter (enqueues s)

/-- The thread under `t` once the loop over `sleeping` has passed. -/
def rested (s : State) (t : ℤ) : Option Thread :=
  if t ∈ s.sleeping then (s.threads t).map (Thread.reduceSleeping s.quantum) else s.threads t

/-- A state after the loop has gone through the keys `ks`. -/
def afterWaking (ks : List ℤ) (s : State) : State :=
  { s with
    threads := fun t =>
      if t ∈ ks then (s.threads t).map (Thread.reduceSleeping s.quantum) else s.threads t
    readyQueue := s.readyQueue ++ ks.filter (enqueues s)
    sleeping := s.sleeping.filter fun t => !(decide (t ∈ ks) && wakes s t) }

/-- One round of the loop. -/
def wakeOne (tid : ℤ) (thread : Thread) (s : State) : State :=
  let thread := thread.reduceSleeping s.quantum
  let s := s.setThread tid thread
  if thread.checkSleeping then
    let s := if thread.state ≠ .blocked then
      { s with readyQueue := s.readyQueue ++ [thread.id] } else s
    { s with sleeping := s.sleeping.erase tid }
  else s

theorem wakeSleeping_cons {tid : ℤ} {ks : List ℤ} {s : State} {th : Thread}
    (h : s.threads tid = some th) :
    wakeSleeping (tid :: ks) s = wakeSleeping ks (wakeOne tid th s) := by
  simp only [wakeSleeping, h, wakeOne]
  split_ifs <;> rfl

section wakeOne

variable {tid : ℤ} {th : Thread} {s : State}

@[simp] theorem wakeOne_quantum : (wakeOne tid th s).quantum = s.quantum := by
  unfold wakeOne; dsimp only; split_ifs <;> rfl

@[simp] theorem wakeOne_threads : (wakeOne tid th s).threads =
    Function.update s.threads tid (some (th.reduceSleeping s.quantum)) := by
  unfold wakeOne; dsimp only; split_ifs <;> rfl

/-- A round appends at most the thread it looks at. -/
theorem wakeOne_readyQueue (hid : th.id = tid) (hth : s.threads tid = some th) :
    (wakeOne tid th s).readyQueue = s.readyQueue ++ [tid].filter (enqueues s) := by
  unfold wakeOne
  simp only [enqueues, hth, Option.any_some, List.filter_cons, List.filter_nil,
    Thread.reduceSleeping_state, Thread.reduceSleeping_id, hid]
  by_cases hc : (th.reduceSleeping s.quantum).checkSleeping <;>
    by_cases hb : th.state = .blocked <;>
    simp [hc, hb]

/-- A round removes at most the thread it looks at. -/
theorem mem_wakeOne_sleeping (hth : s.threads tid = some th) {t : ℤ} :
    t ∈ (wakeOne tid th s).sleeping ↔ t ∈ s.sleeping ∧ ¬ (t = tid ∧ wakes s tid = true) := by
  unfold wakeOne
  simp only [wakes, hth, Option.any_some]
  split_ifs with hc <;> simp [hc, and_comm]

/-- A round leaves the other globals alone. -/
theorem wakeOne_frame (tid : ℤ) (th : Thread) (s : State) :
    (wakeOne tid th s).countTotalQuantums = s.countTotalQuantums ∧
    (wakeOne tid th s).runningThread = s.runningThread ∧ (wakeOne tid th s).blocked = s.blocked ∧
    (wakeOne tid th s).ids = s.ids ∧ (wakeOne tid th s).setTimer = s.setTimer ∧
    (wakeOne tid th s).timer = s.timer := by
  unfold wakeOne
  dsimp only
  split_ifs <;> exact ⟨rfl, rfl, rfl, rfl, rfl, rfl⟩

end wakeOne

/-- The loop over `sleeping` in closed form. -/
theorem wakeSleeping_eq : ∀ (ks : List ℤ) (s : State), ks.Nodup →
    (∀ k ∈ ks, ∃ th, s.threads k = some th ∧ th.id = k) →
    wakeSleeping ks s = .ok (afterWaking ks s)
  | [], s, _, _ => by simp [wakeSleeping, afterWaking, SortedKeys.filter]
  | tid :: ks, s, hnd, hks => by
      obtain ⟨hnot, hnd⟩ := List.nodup_cons.mp hnd
      obtain ⟨th, hth, hid⟩ := hks tid List.mem_cons_self
      have hne : ∀ k ∈ ks, k ≠ tid := fun k hk e => hnot (e ▸ hk)
      have hthreads : ∀ k ∈ ks, (wakeOne tid th s).threads k = s.threads k := by
        intro k hk
        rw [wakeOne_threads, Function.update_of_ne (hne k hk)]
      have hwakes : ∀ k ∈ ks, wakes (wakeOne tid th s) k = wakes s k := by
        intro k hk
        simp only [wakes, hthreads k hk, wakeOne_quantum]
      have henq : ∀ k ∈ ks, enqueues (wakeOne tid th s) k = enqueues s k := by
        intro k hk
        simp only [enqueues, hthreads k hk, wakeOne_quantum]
      rw [wakeSleeping_cons hth, wakeSleeping_eq ks _ hnd fun k hk => by
        rw [hthreads k hk]; exact hks k (List.mem_cons_of_mem _ hk)]
      obtain ⟨hcount, hrun, hblocked, hids, hset, htimer⟩ :=
        wakeOne_frame tid th s
      congr 1
      apply State.ext <;> simp only [afterWaking, wakeOne_quantum, wakeOne_threads, hcount, hrun,
        hblocked, hids, hset, htimer]
      · funext t
        by_cases ht : t = tid
        · subst ht; simp [hnot, hth]
        · simp [ht]
      · rw [wakeOne_readyQueue hid hth, List.filter_congr henq, List.append_assoc,
          ← List.filter_append, List.singleton_append]
      · apply SortedKeys.eq_of_mem_iff
        intro t
        simp only [SortedKeys.mem_filter, mem_wakeOne_sleeping hth, List.mem_cons]
        by_cases ht : t = tid
        · subst ht
          simp [hnot]
        · by_cases hk : t ∈ ks
          · simp [ht, hk, hwakes t hk]
          · simp [ht, hk]

/-! ## The decision -/

/-- What a scheduling decision that starts in `s` and dispatches a thread into `s'` does: the
total grows by one, every sleeper loses a quantum, those with nothing left leave `sleeping` (for
the back of the queue unless blocked), and the front of the resulting queue runs. -/
structure Decision (s s' : State) : Prop where
  count : s'.countTotalQuantums = s.countTotalQuantums + 1
  queue : s'.runningThread :: s'.readyQueue = s.readyQueue ++ woken s
  dispatched : ∃ th, rested s s'.runningThread = some th ∧
    s'.threads s'.runningThread = some th.quantumsUse.changeStateToRunning
  others : ∀ t, t ≠ s'.runningThread → s'.threads t = rested s t
  sleeping : ∀ t, t ∈ s'.sleeping ↔ t ∈ s.sleeping ∧ wakes s t = false
  blocked : s'.blocked = s.blocked
  ids : s'.ids = s.ids
  quantum : s'.quantum = s.quantum
  setTimer : s'.setTimer = false
  timer : s'.timer = if s.setTimer then s.quantum else s.timer

/-- The fields of `Thread` that identify it are those its entry promises. -/
def Identified (s : State) : Prop := ∀ t th, s.threads t = some th → th.id = t

/-- Every key of `sleeping` is a key of `threads`. -/
def SleepersLive (s : State) : Prop := ∀ t ∈ s.sleeping, ∃ th, s.threads t = some th

theorem rested_id {s : State} (hid : Identified s) {t : ℤ} {th : Thread}
    (h : rested s t = some th) : th.id = t := by
  unfold rested at h
  split_ifs at h
  · obtain ⟨th', hth', rfl⟩ := Option.map_eq_some_iff.mp h
    exact hid t th' hth'
  · exact hid t th h

/-- The closed form of a decision up to the choice of the next thread. -/
theorem makeSchedulingDecision_eq {s : State} (hid : Identified s) (hlive : SleepersLive s) :
    makeSchedulingDecision s =
      dispatchFront { s with
        countTotalQuantums := s.countTotalQuantums + 1
        threads := rested s
        readyQueue := s.readyQueue ++ woken s
        sleeping := s.sleeping.filter fun t => !wakes s t } := by
  unfold makeSchedulingDecision
  rw [wakeSleeping_eq _ _ s.sleeping.nodup fun k hk => by
    obtain ⟨th, hth⟩ := hlive k hk
    exact ⟨th, hth, hid k th hth⟩]
  show dispatchFront _ = dispatchFront _
  congr 1
  apply State.ext <;> try rfl
  apply SortedKeys.eq_of_mem_iff
  intro t
  simp only [afterWaking, SortedKeys.mem_filter, ← SortedKeys.mem_def]
  exact and_congr_right fun ht => by simp [ht, wakes]

/-- What running a thread leaves behind. -/
theorem runThread_cases {tid : ℤ} {th : Thread} {s s' : State} (h : runThread tid th s = .ok s') :
    s' = { s with
      threads := Function.update s.threads tid (some th.quantumsUse.changeStateToRunning)
      runningThread := th.id
      setTimer := false
      timer := if s.setTimer then s.quantum else s.timer } := by
  unfold runThread setTimerThreads State.setThread at h
  dsimp only at h
  split_ifs at h with ht hv
  · cases h
    simp [ht]
  · cases h
  · cases h
    simp [ht]

/-- **Every decision that returns is a `Decision`.** -/
theorem makeSchedulingDecision_cases {s s' : State} (hid : Identified s) (hlive : SleepersLive s)
    (h : makeSchedulingDecision s = .ok s') : Decision s s' := by
  rw [makeSchedulingDecision_eq hid hlive] at h
  unfold dispatchFront at h
  split at h
  · cases h
  · next next rest hq =>
    dsimp only at hq
    unfold threadsAt at h
    dsimp only at h
    cases hth : rested s next with
    | none => rw [hth] at h; cases h
    | some th =>
        rw [hth] at h
        have hnext : th.id = next := rested_id hid hth
        obtain rfl := runThread_cases h
        dsimp only
        rw [hnext]
        refine ⟨rfl, hq.symm, ⟨th, hth, by simp⟩, ?_, ?_, rfl, rfl, rfl, rfl, rfl⟩
        · intro t ht
          simp [Function.update_of_ne ht]
        · intro t
          simp

/-- **When a decision returns**: the queue it ends with is not empty, its threads exist, and the
quantum is one that `setitimer` accepts. -/
theorem makeSchedulingDecision_ok {s : State} (hid : Identified s) (hlive : SleepersLive s)
    (hq : s.readyQueue ≠ []) (hqueued : ∀ t ∈ s.readyQueue, ∃ th, s.threads t = some th)
    (hquantum : s.quantum.itInterval.Valid ∧ s.quantum.itValue.Valid) :
    ∃ s', makeSchedulingDecision s = .ok s' := by
  rw [makeSchedulingDecision_eq hid hlive]
  obtain ⟨next, rest, hcons⟩ := List.exists_cons_of_ne_nil hq
  obtain ⟨th, hth⟩ := hqueued next (by rw [hcons]; exact List.mem_cons_self)
  obtain ⟨th', hth'⟩ : ∃ th', rested s next = some th' := by
    unfold rested
    split_ifs
    · exact ⟨_, by rw [hth]; rfl⟩
    · exact ⟨th, hth⟩
  simp only [dispatchFront, hcons, List.cons_append, threadsAt, hth', runThread, setTimerThreads]
  cases s.setTimer
  · exact ⟨_, rfl⟩
  · simp only [State.setThread, hquantum, and_self, if_true]
    exact ⟨_, rfl⟩

end CoreOS.Uthreads
