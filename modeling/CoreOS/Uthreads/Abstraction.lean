import CoreOS.Uthreads.Accounting
import CoreOS.Uthreads.Safety
import CoreOS.Uthreads.Sleep
import CoreOS.Uthreads.Specification

/-!
# The library is a round-robin scheduler

The code, compared with `Specification`.

* `abstraction q s`: the scheduler that the globals `s` stand for, `q` being the quantum. A thread
  that is `BLOCKED` is held; the time left to sleep is counted in quanta.
* `Measured q s`: the invariant of times and counters that the abstraction reads.
* `dispatch_abstraction`: a scheduling decision is the next turn.
* `exec_abstraction`: every operation does to the scheduler what the specification says.
* `ask_abstraction`: the code answers every request as the specification does.
* `ticks_fair`: ticks among threads that do not sleep. The counters are unbounded here;
  `IntCounters` has the results for `int`s.
-/

namespace CoreOS.Uthreads

open CoreOS.Lib Specification

variable {n : ℕ} {q : ℤ} {s s' p : State} {t : ℤ} {th : Thread}

/-! ## The scheduler that the globals stand for -/

/-- What the scheduler knows of a thread. -/
def taskOf (q : ℤ) (s : State) (t : ℤ) (th : Thread) : Task where
  held := th.state = .blocked
  nap := if t ∈ s.sleeping then max 1 (th.sleep.tvUsec / q).toNat else 0
  turns := th.timesUsedInQuantums.toNat

/-- The scheduler. -/
def abstraction (q : ℤ) (s : State) : Scheduler where
  current := s.runningThread
  queue := s.readyQueue
  task t := (s.threads t).map (taskOf q s t)
  total := s.countTotalQuantums.toNat

/-- Times to sleep are whole numbers of quanta, and counters do not fall below zero. -/
structure Measured (q : ℤ) (s : State) : Prop where
  /-- A sleeper sleeps for a number of quanta. -/
  sleep : ∀ t th, s.threads t = some th → t ∈ s.sleeping → ∃ m : ℤ, th.sleep = ⟨0, m * q⟩
  /-- The quanta are counted from zero. -/
  total : 0 ≤ s.countTotalQuantums
  /-- So are those of every thread. -/
  turns : ∀ t th, s.threads t = some th → 0 ≤ th.timesUsedInQuantums

theorem taskOf_nap_sleeping {m : ℤ} (hpos : 0 < q) (ht : t ∈ s.sleeping)
    (hsleep : th.sleep = ⟨0, m * q⟩) : (taskOf q s t th).nap = max 1 m.toNat := by
  rw [taskOf, if_pos ht, hsleep, Int.mul_ediv_cancel _ hpos.ne']

theorem taskOf_nap_awake (ht : t ∉ s.sleeping) : (taskOf q s t th).nap = 0 := if_neg ht

/-- The scheduler sees those sleep that are in `sleeping`. -/
theorem nap_pos_iff : 0 < (taskOf q s t th).nap ↔ t ∈ s.sleeping := by
  unfold taskOf
  dsimp only
  split_ifs with ht
  · exact iff_of_true (by omega) ht
  · exact iff_of_false (lt_irrefl 0) ht

/-! ## A decision is a turn -/

/-- A thread once a decision has passed. -/
def decided (p s' : State) (t : ℤ) (th : Thread) : Thread :=
  let th := if t ∈ p.sleeping then th.reduceSleeping p.quantum else th
  if t = s'.runningThread then th.quantumsUse.changeStateToRunning else th

theorem Decision.thread (hd : Decision p s') (hth : p.threads t = some th) :
    s'.threads t = some (decided p s' t th) := by
  have hrested : rested p t =
      some (if t ∈ p.sleeping then th.reduceSleeping p.quantum else th) :=
    rested_eq_some.mpr ⟨th, hth, rfl⟩
  unfold decided
  by_cases ht : t = s'.runningThread
  · obtain ⟨th', hth', hrun⟩ := hd.dispatched
    rw [← ht, hrested] at hth'
    cases hth'
    rw [if_pos ht, ht]
    exact ht ▸ hrun
  · rw [if_neg ht, hd.others t ht, hrested]

theorem decided_turns (p s' : State) (t : ℤ) (th : Thread) :
    (decided p s' t th).timesUsedInQuantums =
      th.timesUsedInQuantums + if t = s'.runningThread then 1 else 0 := by
  unfold decided
  dsimp only
  split_ifs <;> simp

theorem decided_sleep (p s' : State) (t : ℤ) (th : Thread) : (decided p s' t th).sleep =
    if t ∈ p.sleeping then (th.reduceSleeping p.quantum).sleep else th.sleep := by
  unfold decided
  dsimp only
  split_ifs <;> rfl

theorem decided_state (p s' : State) (t : ℤ) (th : Thread) : (decided p s' t th).state =
    if t = s'.runningThread then .running else th.state := by
  unfold decided
  dsimp only
  split_ifs <;> rfl

section Decision

variable (h : Suspended n q p) (hm : Measured q p)
include h hm

/-- A thread wakes up at the next decision when it has one turn left to sleep through. -/
theorem nap_eq_one_iff (hth : p.threads t = some th) :
    (taskOf q p t th).nap = 1 ↔ t ∈ p.sleeping ∧ wakes p t = true := by
  by_cases ht : t ∈ p.sleeping
  · obtain ⟨m, hsleep⟩ := hm.sleep t th hth ht
    rw [taskOf_nap_sleeping h.quantum.pos ht hsleep, and_iff_right ht]
    by_cases hle : m ≤ 1
    · exact iff_of_true (by omega) (wakes_of_le_one h.quantum hth hsleep hle)
    · have hno := (not_wakes_of_one_lt h.quantum hth hsleep (not_le.mp hle)).1
      rw [hno]
      exact iff_of_false (by omega) (by simp)
  · rw [taskOf_nap_awake ht]
    exact iff_of_false (by simp) fun hn => ht hn.1

/-- The loop over `sleeping` wakes up those that the scheduler wakes up, in its order. -/
theorem waking_abstraction : (abstraction q p).waking (allIds n) = woken p := by
  have hids : ∀ t th, p.threads t = some th → t ∈ allIds n := by
    intro t th hth
    obtain ⟨h0, hn⟩ := h.bounded t th hth
    exact List.mem_map.mpr ⟨t.toNat, List.mem_range.mpr (by omega), by omega⟩
  have hsorted : (allIds n).Pairwise (· < ·) :=
    List.pairwise_map.mpr (List.pairwise_lt_range.imp fun hlt => Int.ofNat_lt.mpr hlt)
  -- both lists are in ascending order
  have heq : SortedKeys.filter (fun t => ((abstraction q p).task t).any fun x =>
      x.nap == 1 && !x.held) ⟨allIds n, hsorted⟩ = p.sleeping.filter (enqueues p) := by
    refine SortedKeys.eq_of_mem_iff fun t => ?_
    rw [SortedKeys.mem_filter, SortedKeys.mem_filter]
    cases hth : p.threads t with
    | none => simp [abstraction, enqueues, hth]
    | some th =>
        have hnap := nap_eq_one_iff h hm hth
        have hwakes : enqueues p t = true ↔ wakes p t = true ∧ th.state ≠ .blocked := by
          simp [enqueues, wakes, hth]
        have htask : (((abstraction q p).task t).any fun x => x.nap == 1 && !x.held) = true ↔
            (taskOf q p t th).nap = 1 ∧ th.state ≠ .blocked := by
          simp [abstraction, hth, taskOf]
        rw [htask, hwakes, hnap]
        simp only [SortedKeys.mem_def, hids t th hth, true_and, and_assoc]
  exact congrArg SortedKeys.toList heq

/-- A decision takes one quantum off the time to sleep. -/
theorem nap_decided (hd : Decision p s') (hth : p.threads t = some th) :
    (taskOf q s' t (decided p s' t th)).nap = (taskOf q p t th).nap - 1 := by
  by_cases ht : t ∈ p.sleeping
  · obtain ⟨m, hsleep⟩ := hm.sleep t th hth ht
    rw [taskOf_nap_sleeping h.quantum.pos ht hsleep]
    by_cases hle : m ≤ 1
    · have hawake : t ∉ s'.sleeping := by
        rw [hd.sleeping, wakes_of_le_one h.quantum hth hsleep hle]
        simp
      rw [taskOf_nap_awake hawake]
      omega
    · obtain ⟨hno, hleft⟩ := not_wakes_of_one_lt h.quantum hth hsleep (not_le.mp hle)
      rw [taskOf_nap_sleeping (m := m - 1) h.quantum.pos ((hd.sleeping t).mpr ⟨ht, hno⟩)
        (by rw [decided_sleep, if_pos ht, hleft])]
      omega
  · rw [taskOf_nap_awake ht, taskOf_nap_awake fun hs => ht ((hd.sleeping t).mp hs).1]

/-- What a decision leaves of a thread is what the turn leaves of it. -/
theorem task_decided (hd : Decision p s') (t : ℤ) : (abstraction q s').task t =
    ((abstraction q p).task t).map fun x => x.rest.more (if t = s'.runningThread then 1 else 0) := by
  cases hth : p.threads t with
  | none => simp [abstraction, hth, (hd.threads_none t).mpr hth]
  | some th =>
      have hheld : (taskOf q s' t (decided p s' t th)).held = (taskOf q p t th).held := by
        simp only [taskOf, decided_state]
        split_ifs with ht
        · -- the thread that is dispatched was not blocked
          have hready := (h.ready_of_dispatched hd (ht ▸ hth)).1
          rw [hready]
          rfl
        · rfl
      have hturns : (taskOf q s' t (decided p s' t th)).turns =
          (taskOf q p t th).turns + if t = s'.runningThread then 1 else 0 := by
        have hpos := hm.turns t th hth
        simp only [taskOf, decided_turns]
        split_ifs <;> omega
      simp only [abstraction, hth, hd.thread hth, Option.map_some, Option.some.injEq]
      exact congr (congr (congrArg Task.mk hheld) (nap_decided h hm hd hth)) hturns

/-- **A decision is a turn.** -/
theorem dispatch_abstraction (hd : Decision p s') :
    (abstraction q p).dispatch (allIds n) = some (abstraction q s') := by
  unfold RoundRobin.dispatch
  rw [waking_abstraction h hm]
  have hqueue : (abstraction q p).queue ++ woken p = s'.runningThread :: s'.readyQueue :=
    hd.queue.symm
  rw [hqueue]
  dsimp only
  have htask : (fun t => ((abstraction q p).task t).map fun x =>
      x.rest.more (if t = s'.runningThread then 1 else 0)) = (abstraction q s').task :=
    funext fun t => (task_decided h hm hd t).symm
  have htotal : (abstraction q p).total + 1 = (abstraction q s').total := by
    simp only [abstraction, hd.count]
    have := hm.total
    omega
  rw [htask, htotal]
  rfl

/-- The invariant is kept. -/
theorem Measured.decided (hd : Decision p s') : Measured q s' := by
  have hold : ∀ t th', s'.threads t = some th' →
      ∃ th, p.threads t = some th ∧ th' = Uthreads.decided p s' t th := by
    intro t th' hth'
    obtain ⟨th, hth, -⟩ := hd.threads_some hth'
    exact ⟨th, hth, Option.some.inj (hth'.symm.trans (hd.thread hth))⟩
  refine ⟨fun t th' hth' ht => ?_, ?_, fun t th' hth' => ?_⟩
  · obtain ⟨th, hth, rfl⟩ := hold t th' hth'
    obtain ⟨hs, hno⟩ := (hd.sleeping t).mp ht
    obtain ⟨m, hsleep⟩ := hm.sleep t th hth hs
    have hlt : 1 < m := by
      by_contra hle
      rw [wakes_of_le_one h.quantum hth hsleep (not_lt.mp hle)] at hno
      cases hno
    refine ⟨m - 1, ?_⟩
    rw [decided_sleep, if_pos hs, (not_wakes_of_one_lt h.quantum hth hsleep hlt).2]
  · rw [hd.count]
    have := hm.total
    omega
  · obtain ⟨th, hth, rfl⟩ := hold t th' hth'
    have hpos := hm.turns t th hth
    rw [decided_turns]
    split_ifs <;> omega

end Decision

/-! ## What the operations do to the scheduler -/

/-- Writing or removing one thread changes one task. -/
theorem task_update (s' : State) {x : Option Thread}
    (hthreads : s'.threads = Function.update s.threads t x)
    (hothers : ∀ u, u ≠ t → (u ∈ s'.sleeping ↔ u ∈ s.sleeping)) :
    (abstraction q s').task =
      Function.update (abstraction q s).task t (x.map (taskOf q s' t)) := by
  funext u
  by_cases hu : u = t
  · subst hu
    rw [Function.update_self]
    simp only [abstraction, hthreads, Function.update_self]
  · rw [Function.update_of_ne hu]
    simp only [abstraction, hthreads, Function.update_of_ne hu]
    refine Option.map_congr fun th _ => ?_
    simp only [taskOf, hothers u hu]

/-- A thread that is purged is removed. -/
theorem abstraction_purged :
    abstraction q (Consistent.purged t s) = (abstraction q s).remove t := by
  refine RoundRobin.ext rfl rfl ?_ rfl
  refine task_update (Consistent.purged t s) (s := s) (t := t) rfl fun u hu => ?_
  simp [Consistent.purged, releaseThread, hu]

section Operations

variable (h : Consistent n q s)
include h

/-- A tick puts the running thread at the back of the queue. -/
theorem abstraction_preempted (hth : s.threads s.runningThread = some th) :
    abstraction q (preempted th s) =
      { abstraction q s with queue := s.readyQueue ++ [s.runningThread] } := by
  refine RoundRobin.ext rfl rfl ?_ rfl
  have hsame : taskOf q (preempted th s) s.runningThread th.changeStateToReady =
      taskOf q s s.runningThread th := by
    simp only [taskOf, h.state_of_running hth, preempted, State.setThread_sleeping,
      Thread.changeStateToReady_state, Thread.changeStateToReady_sleep,
      Thread.changeStateToReady_timesUsedInQuantums]
    rfl
  rw [task_update (preempted th s) (s := s) (t := s.runningThread) rfl fun _ _ => Iff.rfl,
    Option.map_some, hsame]
  exact Function.update_eq_self_iff.mpr (by simp only [abstraction, hth, Option.map_some])

/-- A thread that blocks itself is held. -/
theorem abstraction_selfBlocked (th : Thread) :
    abstraction q (selfBlocked s.runningThread th s) =
      { (abstraction q s).hold s.runningThread (taskOf q s s.runningThread th) with
        current := noThread } := by
  refine RoundRobin.ext rfl (List.erase_of_not_mem h.running_not_queued).symm ?_ rfl
  exact task_update (selfBlocked s.runningThread th s) (s := s) (t := s.runningThread) rfl
    fun _ _ => Iff.rfl

/-- A thread that terminates itself is removed. -/
theorem abstraction_selfTerminated :
    abstraction q (selfTerminated s.runningThread s) =
      { (abstraction q s).remove s.runningThread with current := noThread } := by
  refine RoundRobin.ext rfl (List.erase_of_not_mem h.running_not_queued).symm ?_ rfl
  exact task_update (selfTerminated s.runningThread s) (s := s) (t := s.runningThread) rfl
    fun _ _ => Iff.rfl

/-- A thread that goes to sleep dozes. -/
theorem abstraction_fellAsleep (k : ℤ) (hth : s.threads s.runningThread = some th) :
    abstraction q (fellAsleep k th s) =
      { (abstraction q s).doze s.runningThread (taskOf q s s.runningThread th) k.toNat with
        current := noThread } := by
  refine RoundRobin.ext rfl rfl ?_ rfl
  have hsleep : ((th.setSleeping s.quantum k).changeStateToReady).sleep = ⟨0, k * q⟩ := by
    simp [Thread.setSleeping, Thread.changeStateToReady, h.quantum.stored, quantumOf]
  have htask : taskOf q (fellAsleep k th s) s.runningThread
      (th.setSleeping s.quantum k).changeStateToReady =
        { taskOf q s s.runningThread th with nap := max 1 k.toNat } := by
    have hmem : s.runningThread ∈ (fellAsleep k th s).sleeping :=
      fellAsleep_sleeping.mpr (.inl rfl)
    rw [← taskOf_nap_sleeping h.quantum.pos hmem hsleep]
    simp only [taskOf, h.state_of_running hth]
    rfl
  rw [task_update (fellAsleep k th s) (s := s) (t := s.runningThread) rfl
    fun u hu => by simp [hu], Option.map_some, htask]
  rfl

/-- A new thread is a new task. -/
theorem abstraction_spawned (hfree : s.threads t = none) :
    abstraction q (spawned t s) = (abstraction q s).add t := by
  refine RoundRobin.ext rfl rfl ?_ rfl
  rw [task_update (spawned t s) (s := s) (t := t) rfl fun _ _ => Iff.rfl, Option.map_some]
  have hnap : t ∉ (spawned t s).sleeping := (h.absent t hfree).2.2
  simp only [taskOf, if_neg hnap]
  rfl

/-- A `READY` thread that is blocked is held. -/
theorem abstraction_blockedReady (hth : s.threads t = some th) :
    abstraction q (blockedReady t th s) = (abstraction q s).hold t (taskOf q s t th) := by
  refine RoundRobin.ext rfl ?_ ?_ rfl
  · show (if th.checkSleeping then s.readyQueue.erase t else s.readyQueue) = s.readyQueue.erase t
    split_ifs with hc
    · rfl
    · refine (List.erase_of_not_mem fun hq => hc ?_).symm
      exact (h.checkSleeping_iff hth).mpr ((h.agrees _ _ hth).queued.mp hq).2
  · exact task_update (blockedReady t th s) (s := s) (t := t) rfl fun _ _ => Iff.rfl

/-- A thread that is resumed is released. -/
theorem abstraction_resumed (hth : s.threads t = some th) :
    abstraction q (resumed t th s) = (abstraction q s).release t (taskOf q s t th) := by
  refine RoundRobin.ext rfl ?_ ?_ rfl
  · show (if th.checkSleeping then s.readyQueue ++ [th.id] else s.readyQueue) =
      if (taskOf q s t th).nap = 0 then s.readyQueue ++ [t] else s.readyQueue
    have hnap : (taskOf q s t th).nap = 0 ↔ th.checkSleeping = true := by
      have hpos : 0 < (taskOf q s t th).nap ↔ t ∈ s.sleeping := nap_pos_iff
      rw [h.checkSleeping_iff hth, ← hpos, Nat.pos_iff_ne_zero, not_not]
    rw [(h.agrees _ _ hth).id]
    simp only [hnap]
  · exact task_update (resumed t th s) (s := s) (t := t) rfl fun _ _ => Iff.rfl

/-- The free id on top of the heap is the smallest one. -/
theorem freeId_abstraction : freeId n (abstraction q s) = s.ids.top? := by
  have hall : (allIds n).Pairwise (· < ·) :=
    List.pairwise_map.mpr (List.pairwise_lt_range.imp fun hlt => Int.ofNat_lt.mpr hlt)
  have hids : s.ids.toList.Pairwise (· < ·) :=
    s.ids.sorted.imp₂ (fun _ _ hle hne => lt_of_le_of_ne hle hne) h.idsNodup
  have heq : SortedKeys.filter (fun t => ((abstraction q s).task t).isNone) ⟨allIds n, hall⟩ =
      ⟨s.ids.toList, hids⟩ := by
    refine SortedKeys.eq_of_mem_iff fun t => ?_
    rw [SortedKeys.mem_filter]
    show t ∈ allIds n ∧ _ ↔ t ∈ s.ids
    have hmem : t ∈ allIds n ↔ 0 ≤ t ∧ t < n := by
      simp only [allIds, List.mem_map, List.mem_range]
      exact ⟨fun ⟨i, hi, he⟩ => by omega, fun ht => ⟨t.toNat, by omega, by omega⟩⟩
    rw [h.ids t, hmem]
    simp [abstraction]
  have hlist := congrArg (fun m => m.toList.head?) heq
  exact List.head?_filter.symm.trans hlist

end Operations

/-! ## The invariant along the operations -/

/-- Writing or removing one thread keeps the invariant, if the thread keeps it. -/
theorem Measured.update (hm : Measured q s) {x : Option Thread}
    (htotal : s'.countTotalQuantums = s.countTotalQuantums)
    (hthreads : s'.threads = Function.update s.threads t x)
    (hothers : ∀ u, u ≠ t → u ∈ s'.sleeping → u ∈ s.sleeping)
    (hx : ∀ th, x = some th →
      (t ∈ s'.sleeping → ∃ m : ℤ, th.sleep = ⟨0, m * q⟩) ∧ 0 ≤ th.timesUsedInQuantums) :
    Measured q s' := by
  refine ⟨fun u th hth hu => ?_, htotal ▸ hm.total, fun u th hth => ?_⟩
  · by_cases hut : u = t
    · subst hut
      rw [hthreads, Function.update_self] at hth
      exact (hx th hth).1 hu
    · rw [hthreads, Function.update_of_ne hut] at hth
      exact hm.sleep u th hth (hothers u hut hu)
  · by_cases hut : u = t
    · subst hut
      rw [hthreads, Function.update_self] at hth
      exact (hx th hth).2
    · rw [hthreads, Function.update_of_ne hut] at hth
      exact hm.turns u th hth

/-- A thread that keeps its times keeps the invariant. -/
theorem Measured.rewrite (hm : Measured q s) {th' : Thread} (hth : s.threads t = some th)
    (htotal : s'.countTotalQuantums = s.countTotalQuantums)
    (hthreads : s'.threads = Function.update s.threads t (some th'))
    (hsleeping : ∀ u ∈ s'.sleeping, u ∈ s.sleeping)
    (htimes : th'.sleep = th.sleep ∧ th'.timesUsedInQuantums = th.timesUsedInQuantums) :
    Measured q s' := by
  refine hm.update htotal hthreads (fun u _ => hsleeping u) ?_
  rintro _ ⟨⟩
  rw [htimes.1, htimes.2]
  exact ⟨fun ht => hm.sleep t th hth (hsleeping t ht), hm.turns t th hth⟩

/-- A thread that goes to sleep keeps the invariant. -/
theorem Measured.fellAsleep (hm : Measured q s) (h : Consistent n q s) (k : ℤ)
    (hth : s.threads s.runningThread = some th) : Measured q (fellAsleep k th s) := by
  refine hm.update rfl (t := s.runningThread) rfl (fun u hu => by simp [hu]) ?_
  rintro _ ⟨⟩
  refine ⟨fun _ => ⟨k, ?_⟩, hm.turns _ th hth⟩
  simp [Thread.setSleeping, Thread.changeStateToReady, h.quantum.stored, quantumOf]

/-- A thread that goes away keeps the invariant. -/
theorem Measured.erase (hm : Measured q s) (htotal : s'.countTotalQuantums = s.countTotalQuantums)
    (hthreads : s'.threads = Function.update s.threads t none)
    (hsleeping : ∀ u ∈ s'.sleeping, u ∈ s.sleeping) : Measured q s' :=
  hm.update htotal hthreads (fun u _ => hsleeping u) (by rintro _ ⟨⟩)

/-- **Step rule.** Every operation keeps the invariant. -/
theorem Effect.measured {op : Op} (h : Consistent n q s) (hm : Measured q s)
    (he : Effect op s s') : Measured q s' := by
  cases he with
  | unchanged => exact hm
  | spawn hentry htop hfree =>
      rename_i id
      refine hm.update rfl (t := id) rfl (fun _ _ hu => hu) ?_
      rintro _ ⟨⟩
      exact ⟨fun ht => absurd ht (h.absent id hfree).2.2, le_rfl⟩
  | terminateReady hmain hth hst _ _ =>
      rw [h.terminatedReady_eq hth hst]
      exact hm.erase rfl rfl fun u hu => (SortedKeys.mem_erase.mp hu).2
  | terminateBlocked hmain hth hst _ _ =>
      rw [h.terminatedBlocked_eq hth hst]
      exact hm.erase rfl rfl fun u hu => (SortedKeys.mem_erase.mp hu).2
  | terminateSelf hmain hth hst hd =>
      have hs := h.suspended_selfTerminated hmain hth hst
      exact Measured.decided hs (hm.erase rfl rfl fun _ hu => hu) (hs.decision hd)
  | blockReady hmain hth hst _ => exact hm.rewrite hth rfl rfl (fun _ hu => hu) ⟨rfl, rfl⟩
  | blockSelf hmain hth hst hd =>
      have hs := h.suspended_selfBlocked hmain hth hst
      exact Measured.decided hs (hm.rewrite hth rfl rfl (fun _ hu => hu) ⟨rfl, rfl⟩)
        (hs.decision hd)
  | resume hth hst _ => exact hm.rewrite hth rfl rfl (fun _ hu => hu) ⟨rfl, rfl⟩
  | sleep hmain hth hd =>
      rename_i k thread
      have hs := h.suspended_fellAsleep k hmain hth
      exact Measured.decided hs (hm.fellAsleep h k hth) (hs.decision hd)
  | tick hth hd =>
      have hs := h.suspended_preempted hth
      exact Measured.decided hs (hm.rewrite hth rfl rfl (fun _ hu => hu) ⟨rfl, rfl⟩)
        (hs.decision hd)

/-! ## Every operation -/

/-- A decision from a state that stands for the scheduler, whoever ran, is its next turn. -/
theorem giveUp_abstraction {a : Scheduler} {c : ℤ} (hp : Suspended n q p) (hm : Measured q p)
    (ha : abstraction q p = { a with current := c }) (hd : makeSchedulingDecision p = .ok s') :
    giveUp n a = .ok (.switched, abstraction q s') := by
  have hdispatch := dispatch_abstraction hp hm (hp.decision hd)
  rw [ha] at hdispatch
  have hturn : a.dispatch (allIds n) = some (abstraction q s') := hdispatch
  rw [giveUp, hturn]

theorem task_none (hth : s.threads t = none) : (abstraction q s).task t = none := by
  simp only [abstraction, hth, Option.map_none]

theorem task_some (hth : s.threads t = some th) :
    (abstraction q s).task t = some (taskOf q s t th) := by
  simp only [abstraction, hth, Option.map_some]

section Perform

variable (h : Consistent n q s)
include h

/-- What `uthread_spawn` does. -/
theorem spawn_abstraction (e : ℕ) : (uthreadSpawn e s).map (Prod.map id (abstraction q)) =
    Specification.spawn n e (abstraction q s) := by
  unfold uthreadSpawn Specification.spawn
  rw [freeId_abstraction h]
  cases htop : s.ids.top? with
  | none => rfl
  | some id =>
      have hfree : s.threads id = none := by
        refine h.free_of_mem_ids id ?_
        rw [MinHeap.mem_def, MinHeap.toList_of_top? htop]
        exact List.mem_cons_self
      dsimp only
      split_ifs with he hsome
      · rfl
      · rw [hfree] at hsome
        cases hsome
      · rw [← abstraction_spawned h hfree]
        rfl

/-- What `uthread_resume` does. -/
theorem resume_abstraction (tid : ℤ) : (uthreadResume tid s).map (Prod.map id (abstraction q)) =
    Specification.resume tid (abstraction q s) := by
  unfold uthreadResume Specification.resume
  cases hth : s.threads tid with
  | none =>
      rw [task_none hth]
      rfl
  | some th =>
      rw [task_some hth]
      dsimp only
      by_cases hst : th.state = .blocked
      · have hb : tid ∈ s.blocked := (h.agrees _ _ hth).blocked.mpr hst
        have hheld : (taskOf q s tid th).held = true := decide_eq_true hst
        rw [if_pos hst, if_pos hheld, ← abstraction_resumed h hth, eraseKey, if_pos hb]
        show Except.ok (Reply.returns success "", abstraction q (if th.checkSleeping then _ else _)) =
          Except.ok (Reply.returns success "", abstraction q (resumed tid th s))
        congr 3
        unfold resumed
        split_ifs <;> rfl
      · have hheld : ¬ (taskOf q s tid th).held = true := by simpa [taskOf] using hst
        rw [if_neg hst, if_neg hheld]
        rfl

variable (hm : Measured q s)
include hm

/-- What a tick does. -/
theorem tick_abstraction : (scheduler s).map (Prod.map id (abstraction q)) =
    perform n .tick (abstraction q s) := by
  obtain ⟨th, hth, -⟩ := h.running
  have hp := h.suspended_preempted hth
  obtain ⟨s', hs'⟩ := hp.decides
  have hcall : scheduler s = .ok (.switched, s') := by
    unfold scheduler
    rw [hth]
    exact bind_ok.mpr ⟨s', hs', rfl⟩
  rw [hcall]
  exact (giveUp_abstraction hp (hm.rewrite hth rfl rfl (fun _ hu => hu) ⟨rfl, rfl⟩)
    (abstraction_preempted h hth) hs').symm

/-- What `uthread_sleep` does. -/
theorem sleep_abstraction (k : ℤ) : (uthreadSleep k s).map (Prod.map id (abstraction q)) =
    Specification.sleep n k (abstraction q s) := by
  obtain ⟨th, hth, -⟩ := h.running
  by_cases hmain : s.runningThread = mainThreadId
  · rw [uthreadSleep, if_pos hmain, Specification.sleep,
      if_pos (show (abstraction q s).current = mainThreadId from hmain)]
    rfl
  have hp := h.suspended_fellAsleep k hmain hth
  obtain ⟨s', hs'⟩ := hp.decides
  have hcall : uthreadSleep k s = .ok (.switched, s') := by
    unfold uthreadSleep
    rw [if_neg hmain]
    exact bind_ok.mpr ⟨th, by rw [threadsAt, hth], bind_ok.mpr
      ⟨_, setTimerThreads_cancel _, bind_ok.mpr ⟨s', hs', rfl⟩⟩⟩
  have htask : (abstraction q s).task (abstraction q s).current = _ := task_some hth
  rw [hcall, Specification.sleep, if_neg (show ¬ (abstraction q s).current = _ from hmain), htask]
  exact (giveUp_abstraction hp (hm.fellAsleep h k hth) (abstraction_fellAsleep h k hth) hs').symm

/-- What `uthread_block` does. -/
theorem block_abstraction (tid : ℤ) : (uthreadBlock tid s).map (Prod.map id (abstraction q)) =
    Specification.block n tid (abstraction q s) := by
  unfold Specification.block
  by_cases hmain : tid = mainThreadId
  · rw [uthreadBlock, if_pos hmain, if_pos hmain]
    rfl
  rw [if_neg hmain]
  cases hth : s.threads tid with
  | none =>
      rw [uthreadBlock, if_neg hmain, task_none hth, hth]
      rfl
  | some th =>
      rw [task_some hth]
      dsimp only
      cases hst : th.state with
      | blocked =>
          have hheld : (taskOf q s tid th).held = true := decide_eq_true hst
          rw [uthreadBlock, if_neg hmain, hth, if_pos hheld]
          simp only [hst]
          rfl
      | ready =>
          have hheld : ¬ (taskOf q s tid th).held = true := by simp [taskOf, hst]
          have hrun : ¬ tid = (abstraction q s).current := by
            rintro rfl
            rw [h.state_of_running hth] at hst
            cases hst
          have hcall : uthreadBlock tid s = .ok (.returns success "", blockedReady tid th s) := by
            have hq : th.checkSleeping = true → tid ∈ s.readyQueue := fun hc =>
              (h.agrees _ _ hth).queued.mpr ⟨hst, (h.checkSleeping_iff hth).mp hc⟩
            unfold uthreadBlock
            rw [if_neg hmain, hth]
            simp only [hst]
            exact bind_ok.mpr ⟨_, purgeReadyQueue_ok.mpr ⟨hq, rfl⟩, rfl⟩
          rw [hcall, if_neg hheld, if_neg hrun, ← abstraction_blockedReady h hth]
          rfl
      | running =>
          obtain rfl := h.unique tid th hth hst
          have hheld : ¬ (taskOf q s s.runningThread th).held = true := by simp [taskOf, hst]
          have hp := h.suspended_selfBlocked hmain hth hst
          obtain ⟨s', hs'⟩ := hp.decides
          have hcall : uthreadBlock s.runningThread s = .ok (.switched, s') := by
            unfold uthreadBlock
            rw [if_neg hmain, hth]
            simp only [hst]
            exact bind_ok.mpr ⟨_, setTimerThreads_cancel _, bind_ok.mpr ⟨s', hs', rfl⟩⟩
          rw [hcall, if_neg hheld, if_pos (show s.runningThread = (abstraction q s).current from rfl)]
          exact (giveUp_abstraction hp (hm.rewrite hth rfl rfl (fun _ hu => hu) ⟨rfl, rfl⟩)
            (abstraction_selfBlocked h th) hs').symm

/-- What `uthread_terminate` does. -/
theorem terminate_abstraction (tid : ℤ) :
    (uthreadTerminate tid s).map (Prod.map id (abstraction q)) =
      Specification.terminate n tid (abstraction q s) := by
  unfold Specification.terminate
  by_cases hmain : tid = mainThreadId
  · rw [uthreadTerminate, if_pos hmain, if_pos hmain]
    rfl
  rw [if_neg hmain]
  cases hth : s.threads tid with
  | none =>
      rw [uthreadTerminate, if_neg hmain, task_none hth, hth]
      rfl
  | some th =>
      rw [task_some hth]
      dsimp only
      by_cases hrun : tid = s.runningThread
      · subst hrun
        have hst := h.state_of_running hth
        have hp := h.suspended_selfTerminated hmain hth hst
        obtain ⟨s', hs'⟩ := hp.decides
        have hcall : uthreadTerminate s.runningThread s = .ok (.switched, s') := by
          unfold uthreadTerminate
          rw [if_neg hmain, hth]
          simp only [hst]
          exact bind_ok.mpr ⟨_, setTimerThreads_cancel s, bind_ok.mpr ⟨s', hs', rfl⟩⟩
        rw [hcall, if_pos (show s.runningThread = (abstraction q s).current from rfl)]
        exact (giveUp_abstraction hp (hm.erase rfl rfl fun _ hu => hu)
          (abstraction_selfTerminated h) hs').symm
      · rw [if_neg (show ¬ tid = (abstraction q s).current from hrun)]
        have hidle := h.idle_of_ne hth hrun
        have hsleeps : (taskOf q s tid th).held = false ∧ 0 < (taskOf q s tid th).nap ↔
            th.state = .ready ∧ th.checkSleeping = false := by
          rw [nap_pos_iff, ← not_not (a := tid ∈ s.sleeping), ← h.checkSleeping_iff hth,
            Bool.not_eq_true]
          cases hst : th.state <;> simp_all [taskOf]
        by_cases hop : th.state = .ready ∧ th.checkSleeping = false
        · have hcall : exec (.terminate tid) s = .error .undefined :=
            h.exec_undefined ⟨tid, th, rfl, hmain, hth, hop⟩
          rw [if_pos (hsleeps.mpr hop)]
          rw [exec] at hcall
          rw [hcall]
          rfl
        · rw [if_neg fun hno => hop (hsleeps.mp hno),
            h.uthreadTerminate_purged hmain hrun hth hop, ← abstraction_purged]
          rfl

/-- **Every operation** does to the scheduler what the specification says, and answers the same. -/
theorem exec_abstraction (op : Op) : (exec op s).map (Prod.map id (abstraction q)) =
    perform n op (abstraction q s) := by
  cases op with
  | spawn e => exact spawn_abstraction h e
  | terminate tid => exact terminate_abstraction h hm tid
  | block tid => exact block_abstraction h hm tid
  | resume tid => exact resume_abstraction h tid
  | sleep k => exact sleep_abstraction h hm k
  | tick => exact tick_abstraction h hm

/-- Every request is answered as the specification says. -/
theorem ask_abstraction (r : Request) : (ask r s).map (Prod.map id (abstraction q)) =
    respond n r (abstraction q s) := by
  cases r with
  | op op => exact exec_abstraction h hm op
  | getTid => rfl
  | getTotalQuantums =>
      show Except.ok (Reply.returns s.countTotalQuantums "", abstraction q s) =
        Except.ok (Reply.returns (s.countTotalQuantums.toNat : ℤ) "", abstraction q s)
      rw [Int.toNat_of_nonneg hm.total]
  | getQuantums tid =>
      unfold ask uthreadGetQuantums respond
      dsimp only
      cases hth : s.threads tid with
      | none =>
          rw [task_none hth]
          rfl
      | some th =>
          rw [task_some hth]
          show Except.ok (Reply.returns th.timesUsedInQuantums "", abstraction q s) =
            Except.ok (Reply.returns (th.timesUsedInQuantums.toNat : ℤ) "", abstraction q s)
          rw [Int.toNat_of_nonneg (hm.turns tid th hth)]

/-- Every request keeps the invariants. -/
theorem ask_keeps {r : Request} {reply : Reply} (hask : ask r s = .ok (reply, s')) :
    Consistent n q s' ∧ Measured q s' := by
  cases r with
  | op op =>
      have he := exec_effect h.free_of_mem_ids hask
      exact ⟨he.consistent h, he.measured h hm⟩
  | getTid =>
      cases hask
      exact ⟨h, hm⟩
  | getTotalQuantums =>
      cases hask
      exact ⟨h, hm⟩
  | getQuantums tid =>
      unfold ask uthreadGetQuantums at hask
      dsimp only at hask
      split at hask <;> cases hask <;> exact ⟨h, hm⟩

end Perform

/-! ## Runs -/

/-- After `uthread_init` the main thread has its first turn. -/
theorem abstraction_init (n : ℕ) : abstraction q (afterInit n q) = start := by
  refine RoundRobin.ext rfl rfl ?_ rfl
  exact task_update (afterInit n q) (s := State.zero) (t := 0) rfl fun _ _ => Iff.rfl

theorem Measured.init (hinit : (library n q).init s) : Measured q s := by
  obtain ⟨rfl, -, -, -⟩ := library_init.mp hinit
  refine ⟨fun t th hth ht => ?_, Int.one_nonneg, fun t th hth => ?_⟩
  · exact absurd ht (SortedKeys.not_mem_empty t)
  · obtain ⟨-, rfl⟩ := afterInit_threads hth
    exact Int.one_nonneg

theorem reachable_measured (hr : (library n q).Reachable s) : Measured q s := by
  have h : Consistent n q s ∧ Measured q s := by
    refine hr.invariant (P := fun s => Consistent n q s ∧ Measured q s)
      (fun s hinit => ⟨.init hinit, .init hinit⟩) ?_
    rintro op s s' ⟨h, hm⟩ hstep
    exact ⟨h.step hstep, (h.effect hstep).measured h hm⟩
  exact h.2

/-- Where giving up succeeds, somebody has the next turn. -/
theorem dispatch_of_giveUp {a b : Scheduler} {r : Reply} (h : giveUp n a = .ok (r, b)) :
    a.dispatch (allIds n) = some b := by
  unfold giveUp at h
  split at h
  · next c hc =>
      cases h
      exact hc
  · cases h

/-- Ticks are turns. -/
theorem ticks_abstraction {b : Scheduler} {k : ℕ} (h : Consistent n q s) (hm : Measured q s)
    (hb : RoundRobin.preempts (allIds n) k (abstraction q s) = some b) :
    ∃ s', (library n q).run (List.replicate k .tick) s = some s' ∧ abstraction q s' = b ∧
      Consistent n q s' ∧ Measured q s' := by
  induction k generalizing s with
  | zero => exact ⟨s, rfl, Option.some.inj hb, h, hm⟩
  | succ k ih =>
      obtain ⟨s', hs'⟩ := h.scheduler_ok
      have hstep : (library n q).step .tick s = some s' := by
        simp only [library, exec, hs', h.armed, not_true_eq_false, and_false, if_false]
        rfl
      have htick := tick_abstraction h hm
      rw [hs'] at htick
      have hturn : (abstraction q s).preempt (allIds n) = some (abstraction q s') :=
        dispatch_of_giveUp htick.symm
      rw [RoundRobin.preempts, hturn, Option.bind_some] at hb
      obtain ⟨s'', hrun, hview, h', hm'⟩ :=
        ih (h.step hstep) ((h.effect hstep).measured h hm) hb
      exact ⟨s'', (Machine.run_cons _).mpr ⟨s', hstep, hrun⟩, hview, h', hm'⟩

/-- A thread that does not sleep is known by its task. -/
theorem Consistent.thread_of_task {x : Thread} {k : ℕ} (h : Consistent n q s)
    (h' : Consistent n q s') (hm : Measured q s) (hm' : Measured q s')
    (hrun : s'.runningThread = s.runningThread) (hth : s.threads t = some th)
    (hx : s'.threads t = some x) (hawake : t ∉ s.sleeping)
    (htask : taskOf q s' t x = (taskOf q s t th).more k) :
    x = { th with timesUsedInQuantums := th.timesUsedInQuantums + k } := by
  have hheld : x.state = .blocked ↔ th.state = .blocked := by
    have := congrArg Task.held htask
    simpa [taskOf] using this
  have hawake' : t ∉ s'.sleeping := by
    have hpos : 0 < (taskOf q s' t x).nap ↔ t ∈ s'.sleeping := nap_pos_iff
    rw [← hpos, htask, Task.more_nap, nap_pos_iff]
    exact hawake
  have hrunning : x.state = .running ↔ th.state = .running := by
    rw [← h'.eq_running_iff hx, ← h.eq_running_iff hth, hrun]
  have hstate : x.state = th.state := by
    cases hsx : x.state <;> cases hst : th.state <;> simp_all
  have hid : x.id = th.id := (h'.agrees t x hx).id.trans (h.agrees t th hth).id.symm
  have hsleep : x.sleep = th.sleep :=
    (Thread.checkSleeping_eq_true.mp ((h'.agrees t x hx).awake hawake')).trans
      (Thread.checkSleeping_eq_true.mp ((h.agrees t th hth).awake hawake)).symm
  have hturns : x.timesUsedInQuantums = th.timesUsedInQuantums + k := by
    have hnat : x.timesUsedInQuantums.toNat = th.timesUsedInQuantums.toNat + k :=
      congrArg Task.turns htask
    have := hm.turns t th hth
    have := hm'.turns t x hx
    omega
  obtain ⟨_, _, _, _⟩ := x
  exact Thread.mk.injEq .. |>.mpr ⟨hstate, hid, hsleep, hturns⟩

/-- **Fairness**, with unbounded counters. While nobody sleeps, `m` laps of ticks give each thread
that runs or is queued exactly `m` quanta and no other thread any, and leave the running thread, the
order of the queue and the rest of every thread as they were. -/
theorem ticks_fair (h : (library n q).Reachable s) (hawake : ∀ t, t ∉ s.sleeping) (m : ℕ) :
    ∃ s', (library n q).run (List.replicate (m * (s.readyQueue.length + 1)) .tick) s = some s' ∧
      s'.runningThread = s.runningThread ∧ s'.readyQueue = s.readyQueue ∧
      s'.countTotalQuantums = s.countTotalQuantums + m * (s.readyQueue.length + 1) ∧
      ∀ t, s'.threads t = (s.threads t).map fun th =>
        { th with
          timesUsedInQuantums := th.timesUsedInQuantums +
            if t = s.runningThread ∨ t ∈ s.readyQueue then (m : ℤ) else 0 } := by
  have hc := reachable_consistent h
  have hm := reachable_measured h
  have hnap : (abstraction q s).Awake := by
    intro t x hx
    obtain ⟨th, -, rfl⟩ := Option.map_eq_some_iff.mp hx
    exact taskOf_nap_awake (hawake t)
  obtain ⟨b, hb, -, hcurrent, hqueue, htotal, htask⟩ := hnap.laps (allIds n) m
  obtain ⟨s', hrun, rfl, hc', hm'⟩ := ticks_abstraction hc hm hb
  refine ⟨s', hrun, hcurrent, hqueue, ?_, fun t => ?_⟩
  · rw [← Int.toNat_of_nonneg hm.total, ← Int.toNat_of_nonneg hm'.total]
    exact_mod_cast htotal
  · -- the ring holds every thread once
    have hring : (s.readyQueue ++ [s.runningThread]).Nodup :=
      List.nodup_append.mpr ⟨hc.readyNodup, List.nodup_singleton _, fun a ha b hb hab =>
        hc.running_not_queued (List.mem_singleton.mp hb ▸ hab ▸ ha)⟩
    have hturns : m * (s.readyQueue ++ [s.runningThread]).count t =
        if t = s.runningThread ∨ t ∈ s.readyQueue then m else 0 := by
      have hmem : t ∈ s.readyQueue ++ [s.runningThread] ↔
          t = s.runningThread ∨ t ∈ s.readyQueue := by
        rw [List.mem_append, List.mem_singleton, or_comm]
      rw [hring.count]
      simp only [hmem, mul_ite, mul_one, mul_zero]
    have ht := htask t
    cases hth : s.threads t with
    | none =>
        rw [task_none hth, Option.map_none] at ht
        exact Option.map_eq_none_iff.mp ht
    | some th =>
        rw [task_some hth, Option.map_some] at ht
        obtain ⟨x, hx, hmore⟩ := Option.map_eq_some_iff.mp ht
        rw [hx, hc.thread_of_task hc' hm hm' hcurrent hth hx (hawake t) hmore]
        rw [show (abstraction q s).queue ++ [(abstraction q s).current] =
          s.readyQueue ++ [s.runningThread] from rfl, hturns, Option.map_some]
        push_cast
        rfl

end CoreOS.Uthreads
