import CoreOS.Uthreads.Step

/-!
# How long a thread sleeps

Sleep is kept as time left, `numQuantums` quanta at first and one less after every decision.
Measured against the total number of quanta it is a wake-up time.

* `Dozing q t w s`: thread `t` has time left to sleep until the total is `w`.
* `Dozing.step`: every step keeps it so, or is the decision that raises the total to `w`; that
  decision wakes the thread (`Awakened`).
* `Parked t s`: `t` is blocked and does not sleep. It stays so until it is resumed
  (`Parked.waitsForResume`).
* `sleep_duration`: what `uthread_sleep` promises, over every later run.
-/

namespace CoreOS.Uthreads

open CoreOS.Lib

variable {n : ℕ} {q : ℤ} {s s' s₁ p : State} {op : Op} {t w : ℤ} {th : Thread}

/-! ## Sleepers at a decision -/

/-- A thread with at most one quantum left to sleep wakes up at the next decision. -/
theorem wakes_of_le_one (hq : ProperQuantum q p) (hth : p.threads t = some th) {m : ℤ}
    (hsleep : th.sleep = ⟨0, m * q⟩) (hm : m ≤ 1) : wakes p t = true := by
  have hle : m * q - q ≤ 0 := by nlinarith [hq.pos]
  simp [wakes_eq hth, Thread.checkSleeping, hsleep, hq.stored, quantumOf, hle]

/-- A thread with more than one quantum left to sleep goes on sleeping. -/
theorem not_wakes_of_one_lt (hq : ProperQuantum q p) (hth : p.threads t = some th) {m : ℤ}
    (hsleep : th.sleep = ⟨0, m * q⟩) (hm : 1 < m) :
    wakes p t = false ∧ (th.reduceSleeping p.quantum).sleep = ⟨0, (m - 1) * q⟩ := by
  have hlt : 0 < (m - 1) * q := mul_pos (by omega) hq.pos
  have hred : (th.reduceSleeping p.quantum).sleep = ⟨0, (m - 1) * q⟩ := by
    simp only [Thread.reduceSleeping, hsleep, hq.stored, quantumOf, sub_zero, max_self,
      Timeval.mk.injEq, true_and]
    rw [show m * q - q = (m - 1) * q by ring, max_eq_right hlt.le]
  exact ⟨by rw [wakes_eq hth, Thread.checkSleeping_eq_false, hred]; simp [hlt.ne'], hred⟩

/-! ## Sleeping until a given total -/

/-- The thread `t` has time left to sleep until the total number of quanta is `w`. -/
structure Dozing (q : ℤ) (t w : ℤ) (s : State) : Prop where
  early : s.countTotalQuantums < w
  left : ∃ th, s.threads t = some th ∧ th.sleep = ⟨0, (w - s.countTotalQuantums) * q⟩

section dozing

variable (h : Consistent n q s) (hd : Dozing q t w s)
include h hd

theorem Dozing.mem_sleeping : t ∈ s.sleeping := by
  obtain ⟨th, hth, hsl⟩ := hd.left
  by_contra hs
  have hz := Thread.checkSleeping_eq_true.mp ((h.agrees t th hth).awake hs)
  rw [hsl, Timeval.mk.injEq] at hz
  exact (mul_pos (sub_pos.mpr hd.early) h.quantum.pos).ne' hz.2

/-- A sleeper does not run. -/
theorem Dozing.ne_running : t ≠ s.runningThread := fun e =>
  h.running_not_sleeping (e ▸ hd.mem_sleeping h)

/-- A sleeper is not queued. -/
theorem Dozing.not_queued : t ∉ s.readyQueue := by
  intro hq
  obtain ⟨-, -, -, hns⟩ := h.ready_of_queued hq
  exact hns (hd.mem_sleeping h)

end dozing

/-! ## Blocked after waking up -/

/-- The thread `t` is blocked and does not sleep. -/
def Parked (t : ℤ) (s : State) : Prop :=
  t ∉ s.sleeping ∧ ∃ th, s.threads t = some th ∧ th.state = .blocked

/-- As long as nobody resumes or terminates `t` it neither runs nor is queued, and the first
`uthread_resume` appends it to the queue. -/
def WaitsForResume (n : ℕ) (q : ℤ) (t : ℤ) (s : State) : Prop :=
  ∀ ops s', (library n q).run ops s = some s' →
    (∀ op ∈ ops, op ≠ .terminate t ∧ op ≠ .resume t) →
    t ∉ s'.readyQueue ∧ t ≠ s'.runningThread ∧
      ∀ s'', (library n q).step (.resume t) s' = some s'' → s''.readyQueue = s'.readyQueue ++ [t]

/-- A blocked thread that does not run is no concern of a decision. -/
theorem Parked.step (h : Consistent n q s) (hp : Parked t s)
    (hop : op ≠ .terminate t ∧ op ≠ .resume t) (hstep : (library n q).step op s = some s') :
    Parked t s' := by
  obtain ⟨hns, th, hth, hst⟩ := hp
  have hc' := h.step hstep
  have hne : t ≠ s.runningThread := by
    intro e
    rw [e] at hth
    rw [h.state_of_running hth] at hst
    cases hst
  rcases (h.effect hstep).yields_or_stays h with ⟨p, hy, hd⟩ | hstay
  · obtain ⟨hothers, hsleeping⟩ := hy.others t hne
    have hth' : p.threads t = some th := hothers.trans hth
    obtain ⟨th', hth''⟩ : ∃ th', s'.threads t = some th' := by
      rw [← Option.ne_none_iff_exists', Ne, hd.threads_none, hth']
      nofun
    obtain ⟨u, hu, -, hstate, -⟩ := hd.threads_some hth''
    rw [hth'] at hu
    cases hu
    refine ⟨fun hs => hns (hsleeping.mp ((hd.sleeping t).mp hs).1), th', hth'', ?_⟩
    have hrun : t ≠ s'.runningThread := by
      intro e
      have hmem : t ∈ p.readyQueue ++ woken p := by
        rw [← hd.queue, e]
        exact List.mem_cons_self
      rw [(hy.suspended.mem_queue hth').mp hmem |>.1] at hst
      cases hst
    rw [hstate, if_neg hrun, hst]
  · obtain ⟨th', hth', hsl, hstate⟩ := hstay.threads t th hop.1 hth
    have hstate' : th'.state = .blocked := by
      rcases hstate with e | ⟨-, e⟩ | e
      · rw [e, hst]
      · exact e
      · exact absurd e hop.2
    refine ⟨?_, th', hth', hstate'⟩
    intro hs
    have hz := Thread.checkSleeping_eq_true.mp ((h.agrees t th hth).awake hns)
    exact Thread.checkSleeping_eq_false.mp (hc'.sleeping t th' hth' hs) (hsl.trans hz)

/-- **Run rule.** A parked thread waits for its resume. -/
theorem Parked.waitsForResume (h : Consistent n q s) (hp : Parked t s) :
    WaitsForResume n q t s := by
  intro ops
  induction ops generalizing s with
  | nil =>
      intro s' hrun _
      cases hrun
      obtain ⟨hns, th, hth, hst⟩ := hp
      have hag := h.agrees t th hth
      refine ⟨?_, ?_, ?_⟩
      · intro hq
        rw [(hag.queued.mp hq).1] at hst
        cases hst
      · intro e
        rw [e] at hth
        rw [h.state_of_running hth] at hst
        cases hst
      · intro s'' hstep
        obtain ⟨r, hr⟩ := library_step hstep
        simp only [exec, uthreadResume, hth, if_pos hst] at hr
        obtain ⟨bl, -, hr⟩ := bind_ok.mp hr
        rw [if_pos (hag.awake hns)] at hr
        cases hr
        simp [hag.id]
  | cons op ops ih =>
      intro s' hrun hops
      obtain ⟨s₁, hstep, hrun⟩ := (Machine.run_cons _).mp hrun
      exact ih (h.step hstep) (hp.step h (hops op List.mem_cons_self) hstep) s' hrun
        fun o ho => hops o (List.mem_cons_of_mem _ ho)

/-! ## Waking up -/

/-- The decision of the step from `s` to `s'` wakes `t` up: it leaves `sleeping` and, unless it is
blocked, is appended once to the queue (whose front that same decision dispatches). -/
structure Awakened (n : ℕ) (q : ℤ) (t : ℤ) (s s' : State) : Prop where
  /-- It no longer sleeps. -/
  awake : t ∉ s'.sleeping
  /-- It does not run yet. -/
  waits : t ≠ s'.runningThread
  /-- Unless it is blocked, it has been appended exactly once. -/
  appended : ∀ th, s'.threads t = some th → th.state ≠ .blocked →
    s'.readyQueue.count t = 1 ∧ ∃ front back, s'.runningThread :: s'.readyQueue = front ++ back ∧
      (front = s.readyQueue ∨ front = s.readyQueue ++ [s.runningThread]) ∧
      t ∉ front ∧ back.count t = 1
  /-- If it is blocked, it enters the queue when it is resumed, and not before. -/
  blocked : ∀ th, s'.threads t = some th → th.state = .blocked →
    t ∉ s'.readyQueue ∧ WaitsForResume n q t s'

/-- A decision that wakes a sleeper up does all of that. -/
theorem Yields.awakened (hy : Yields n q s p) (hd : Decision p s') (hth : p.threads t = some th)
    (hs : t ∈ p.sleeping) (hw : wakes p t = true) : Awakened n q t s s' := by
  have hc' := hy.suspended.consistent hd
  have hfront : t ∉ p.readyQueue := by
    intro hq
    obtain ⟨-, -, -, hns⟩ := hy.suspended.ready_of_queued hq
    exact hns hs
  have hwait : t ≠ s'.runningThread := by
    intro e
    obtain ⟨x, l, hl⟩ := List.exists_cons_of_ne_nil (List.ne_nil_of_mem hy.suspended.main)
    have hq := hd.queue
    rw [hl, List.cons_append] at hq
    rw [hl, ← (List.cons.inj hq).1, ← e] at hfront
    exact hfront List.mem_cons_self
  have hasleep : t ∉ s'.sleeping := by
    intro hs'
    rw [((hd.sleeping t).mp hs').2] at hw
    cases hw
  have hstate : ∀ th', s'.threads t = some th' → th'.state = th.state := by
    intro th' hth'
    obtain ⟨u, hu, -, hst, -⟩ := hd.threads_some hth'
    rw [hth] at hu
    cases hu
    rw [hst, if_neg hwait]
  refine ⟨hasleep, hwait, ?_, ?_⟩
  · intro th' hth' hst
    have hback : t ∈ woken p := (mem_woken hth).mpr ⟨hs, hw, hstate th' hth' ▸ hst⟩
    have hmem : t ∈ s'.runningThread :: s'.readyQueue := by
      rw [hd.queue]
      exact List.mem_append_right _ hback
    exact ⟨List.count_eq_one_of_mem hc'.readyNodup ((List.mem_cons.mp hmem).resolve_left hwait),
      p.readyQueue, woken p, hd.queue, hy.queue, hfront,
      List.count_eq_one_of_mem (p.sleeping.nodup.filter _) hback⟩
  · intro th' hth' hst
    have hpark : Parked t s' := ⟨hasleep, th', hth', hst⟩
    have hwaits := hpark.waitsForResume hc'
    exact ⟨(hwaits [] s' rfl nofun).1, hwaits⟩

/-- **Step rule.** A step keeps a sleeper asleep, or is the decision that raises the total to its
wake-up time and wakes it up. -/
theorem Dozing.step (h : Consistent n q s) (hd : Dozing q t w s) (hop : op ≠ .terminate t)
    (hstep : (library n q).step op s = some s') :
    (s'.countTotalQuantums < w → Dozing q t w s') ∧
      (s'.countTotalQuantums = w → Awakened n q t s s') := by
  obtain ⟨th, hth, hsl⟩ := hd.left
  have hearly := hd.early
  rcases (h.effect hstep).yields_or_stays h with ⟨p, hy, hdec⟩ | hstay
  · obtain ⟨hothers, hsleeping⟩ := hy.others t (hd.ne_running h)
    have hth' : p.threads t = some th := hothers.trans hth
    have hs := hsleeping.mpr (hd.mem_sleeping h)
    have hcount := hy.count_decision hdec
    refine ⟨fun hlt => ⟨hlt, ?_⟩, ?_⟩
    · obtain ⟨hw, hred⟩ := not_wakes_of_one_lt hy.suspended.quantum hth' hsl (by omega)
      have hs' : t ∈ s'.sleeping := (hdec.sleeping t).mpr ⟨hs, hw⟩
      have hne : t ≠ s'.runningThread := by
        intro e
        exact (hy.suspended.consistent hdec).running_not_sleeping (e ▸ hs')
      refine ⟨th.reduceSleeping p.quantum, ?_, ?_⟩
      · rw [hdec.others t hne, rested, if_pos hs, hth']
        rfl
      · rw [hred, hcount]
        congr 2
        ring
    · intro he
      exact hy.awakened hdec hth' hs
        (wakes_of_le_one hy.suspended.quantum hth' hsl (by omega))
  · rw [hstay.count]
    obtain ⟨th', hth', hsl', -⟩ := hstay.threads t th hop hth
    exact ⟨fun hlt => ⟨hstay.count ▸ hlt, th', hth', by rw [hsl', hsl, hstay.count]⟩,
      fun he => absurd he hearly.ne⟩

/-- **Run rule.** A sleeper sleeps as long as the total is below its wake-up time. -/
theorem Dozing.run {ops : List Op} (h : Consistent n q s) (hd : Dozing q t w s)
    (hops : ∀ op ∈ ops, op ≠ .terminate t) (hrun : (library n q).run ops s = some s')
    (hlt : s'.countTotalQuantums < w) : Dozing q t w s' := by
  induction ops generalizing s with
  | nil => cases hrun; exact hd
  | cons op ops ih =>
      obtain ⟨s₁, hstep, hrun⟩ := (Machine.run_cons _).mp hrun
      have hmono : s₁.countTotalQuantums ≤ s'.countTotalQuantums := count_le_run (h.step hstep) hrun
      exact ih (h.step hstep) ((hd.step h (hops op List.mem_cons_self) hstep).1 (by omega))
        (fun o ho => hops o (List.mem_cons_of_mem _ ho)) hrun

/-! ## The promise of `uthread_sleep` -/

/-- A call of `uthread_sleep` by a thread other than the main one gives up the processor. -/
theorem yields_sleep (h : Consistent n q s) (hmain : s.runningThread ≠ 0) {k : ℤ}
    (hstep : (library n q).step (.sleep k) s = some s') :
    ∃ th, s.threads s.runningThread = some th ∧ Yields n q s (fellAsleep k th s) ∧
      Decision (fellAsleep k th s) s' := by
  obtain ⟨r, hr⟩ := library_step hstep
  obtain ⟨th, hth, -⟩ := h.running
  simp only [exec, uthreadSleep, if_neg (show ¬ s.runningThread = mainThreadId from hmain),
    threadsAt, hth, setTimerThreads_cancel] at hr
  obtain ⟨_, h₁, hr⟩ := bind_ok.mp hr
  cases h₁
  obtain ⟨_, h₂, hr⟩ := bind_ok.mp hr
  cases h₂
  obtain ⟨_, h₃, hr⟩ := bind_ok.mp hr
  cases hr
  have hy := h.yields_fellAsleep k hmain hth
  exact ⟨th, hth, hy, hy.suspended.decision h₃⟩

section sleeper

variable {k : ℤ}

@[simp] theorem fellAsleep_sleeping : t ∈ (fellAsleep k th s).sleeping ↔
    t = s.runningThread ∨ t ∈ s.sleeping := by simp [fellAsleep]

theorem fellAsleep_self (k : ℤ) (th : Thread) (hq : ProperQuantum q s) :
    ∃ th', (fellAsleep k th s).threads s.runningThread = some th' ∧ th'.state = .ready ∧
      th'.sleep = ⟨0, k * q⟩ :=
  ⟨(th.setSleeping s.quantum k).changeStateToReady, by simp [fellAsleep], rfl, by
    simp [Thread.setSleeping, Thread.changeStateToReady, hq.stored, quantumOf]⟩

/-- A thread that sleeps for no quantum joins those that wake up anyway. -/
theorem woken_fellAsleep (h : Consistent n q s) (hk : k ≤ 0) :
    (woken (fellAsleep k th s)).Perm (s.runningThread :: woken s) := by
  have hns : s.runningThread ∉ woken s := fun hw =>
    h.running_not_sleeping (List.mem_of_mem_filter hw)
  refine (List.perm_ext_iff_of_nodup ((fellAsleep k th s).sleeping.nodup.filter _)
    (List.nodup_cons.mpr ⟨hns, s.sleeping.nodup.filter _⟩)).mpr ?_
  intro u
  obtain ⟨th', hth', hst, hsl⟩ := fellAsleep_self k th h.quantum
  by_cases hu : u = s.runningThread
  · subst hu
    show s.runningThread ∈ woken (fellAsleep k th s) ↔ _
    rw [mem_woken hth', hst]
    simp [wakes_of_le_one (p := fellAsleep k th s)
      ⟨h.quantum.stored, h.quantum.pos, h.quantum.lt⟩ hth' hsl (by omega)]
  · have henq : enqueues (fellAsleep k th s) u = enqueues s u := by
      simp [enqueues, fellAsleep, hu]
    simp only [woken, List.mem_filter, ← SortedKeys.mem_def, fellAsleep_sleeping, henq,
      List.mem_cons, hu, false_or]

/-- Falling asleep for at least two quanta leads to dozing; for at most one, to waking up. -/
theorem sleep_cases (h : Consistent n q s) (hmain : s.runningThread ≠ 0)
    (hstep : (library n q).step (.sleep k) s = some s') :
    (1 < k → Dozing q s.runningThread (s.countTotalQuantums + k) s') ∧
      (k ≤ 1 → Awakened n q s.runningThread s s') := by
  obtain ⟨th, hth, hy, hd⟩ := yields_sleep h hmain hstep
  obtain ⟨th', hth', hst, hsl⟩ := fellAsleep_self k th h.quantum
  have hs : s.runningThread ∈ (fellAsleep k th s).sleeping := fellAsleep_sleeping.mpr (.inl rfl)
  have hcount := hy.count_decision hd
  refine ⟨fun hk => ⟨by omega, ?_⟩, ?_⟩
  · obtain ⟨hw, hred⟩ := not_wakes_of_one_lt hy.suspended.quantum hth' hsl hk
    have hs' : s.runningThread ∈ s'.sleeping := (hd.sleeping _).mpr ⟨hs, hw⟩
    have hne : s.runningThread ≠ s'.runningThread := fun e =>
      (hy.suspended.consistent hd).running_not_sleeping (e ▸ hs')
    refine ⟨th'.reduceSleeping (fellAsleep k th s).quantum, ?_, ?_⟩
    · rw [hd.others _ hne, rested, if_pos hs, hth']
      rfl
    · rw [hred, hcount]
      congr 2
      ring
  · intro hk
    exact hy.awakened hd hth' hs (wakes_of_le_one hy.suspended.quantum hth' hsl hk)

/-- Sleeping for no quantum is a yield: the thread is `READY` with no time left to sleep, at the
end of the queue together with the threads that wake up anyway. -/
theorem sleep_nonpos (h : Consistent n q s) (hmain : s.runningThread ≠ 0)
    (hstep : (library n q).step (.sleep k) s = some s') (hk : k ≤ 0) :
    (∃ th, s'.threads s.runningThread = some th ∧ th.state = .ready ∧ th.sleep = ⟨0, 0⟩) ∧
      ∃ back, s'.runningThread :: s'.readyQueue = s.readyQueue ++ back ∧
        back.Perm (s.runningThread :: woken s) := by
  obtain ⟨th, hth, hy, hd⟩ := yields_sleep h hmain hstep
  have hwake := (sleep_cases h hmain hstep).2 (by omega)
  refine ⟨?_, woken (fellAsleep k th s), hd.queue, woken_fellAsleep h hk⟩
  obtain ⟨th', hth', hst, hsl⟩ := fellAsleep_self k th h.quantum
  obtain ⟨u, hu⟩ : ∃ u, s'.threads s.runningThread = some u := by
    rw [← Option.ne_none_iff_exists', Ne, hd.threads_none, hth']
    nofun
  obtain ⟨v, hv, -, hstate, -⟩ := hd.threads_some hu
  rw [hth'] at hv
  cases hv
  have hc' := hy.suspended.consistent hd
  refine ⟨u, hu, by rw [hstate, if_neg hwake.waits, hst], ?_⟩
  exact Thread.checkSleeping_eq_true.mp ((hc'.agrees _ u hu).awake hwake.awake)

end sleeper

/-- **How long a thread sleeps.** Let a thread `t` other than the main one call `uthread_sleep(k)`
when the total is `c`. For `k ≥ 1` and along every later run that does not terminate `t`: as long
as the total is below `c + k` the thread sleeps, neither running nor queued; the decision that
raises the total to `c + k` (for `k = 1` the one the call itself makes) wakes it up. For `k ≤ 0`
the call is a yield to the end of the queue. -/
theorem sleep_duration (h : (library n q).Reachable s) {k : ℤ} (hmain : s.runningThread ≠ 0)
    (hstep : (library n q).step (.sleep k) s = some s₁) :
    (1 ≤ k → ((s₁.countTotalQuantums = s.countTotalQuantums + k →
        Awakened n q s.runningThread s s₁) ∧
      ∀ ops s₂, (library n q).run ops s₁ = some s₂ →
        (∀ op ∈ ops, op ≠ .terminate s.runningThread) →
        s₂.countTotalQuantums < s.countTotalQuantums + k →
        s.runningThread ∈ s₂.sleeping ∧ s.runningThread ≠ s₂.runningThread ∧
          (∀ th, s₂.threads s.runningThread = some th → th.state ≠ .running) ∧
          s.runningThread ∉ s₂.readyQueue ∧
          ∀ op s₃, op ≠ .terminate s.runningThread → (library n q).step op s₂ = some s₃ →
            s₃.countTotalQuantums = s.countTotalQuantums + k →
            Awakened n q s.runningThread s₂ s₃)) ∧
    (k ≤ 0 → Awakened n q s.runningThread s s₁ ∧
      (∃ th, s₁.threads s.runningThread = some th ∧ th.state = .ready ∧ th.sleep = ⟨0, 0⟩) ∧
      ∃ back, s₁.runningThread :: s₁.readyQueue = s.readyQueue ++ back ∧
        back.Perm (s.runningThread :: woken s)) := by
  have hc := reachable_consistent h
  have hc₁ := hc.step hstep
  obtain ⟨_, _, hy, hd⟩ := yields_sleep hc hmain hstep
  have hcount := hy.count_decision hd
  obtain ⟨hdoze, hwake⟩ := sleep_cases hc hmain hstep
  refine ⟨fun hk => ⟨fun he => hwake (by omega), ?_⟩,
    fun hk => ⟨hwake (by omega), sleep_nonpos hc hmain hstep hk⟩⟩
  intro ops s₂ hrun hops hlt
  have hmono := count_le_run hc₁ hrun
  have hc₂ := reachable_consistent ((h.step hstep).run hrun)
  have hd₂ := (hdoze (by omega)).run hc₁ hops hrun hlt
  exact ⟨hd₂.mem_sleeping hc₂, hd₂.ne_running hc₂, fun th hth => hc₂.idle_of_ne hth
    (hd₂.ne_running hc₂), hd₂.not_queued hc₂, fun op s₃ hop hstep₃ => (hd₂.step hc₂ hop hstep₃).2⟩

/-- Thread 1 sleeps for two quanta while thread 2 runs one of them. -/
theorem sleep_duration_run : ∃ s s₁ s₂, (library 4 100).run [.spawn 1, .spawn 1, .tick]
      (afterInit 4 100) = some s ∧ (library 4 100).step (.sleep 2) s = some s₁ ∧
    (library 4 100).step .tick s₁ = some s₂ ∧ 1 ∈ s₁.sleeping ∧ Awakened 4 100 1 s₁ s₂ := by
  obtain ⟨s, s₁, s₂, hs, hs₁, hs₂⟩ : ∃ s s₁ s₂,
      (library 4 100).run [.spawn 1, .spawn 1, .tick] (afterInit 4 100) = some s ∧
      (library 4 100).step (.sleep 2) s = some s₁ ∧ (library 4 100).step .tick s₁ = some s₂ :=
    ⟨_, _, _, rfl, rfl, rfl⟩
  have hr := reachable_afterInit (by decide) (by decide) (by decide) hs
  have hrunning : s.runningThread = 1 := by cases hs; rfl
  have hcount : s.countTotalQuantums = 2 ∧ s₁.countTotalQuantums = 3 ∧
      s₂.countTotalQuantums = 4 := by
    cases hs; cases hs₁; cases hs₂
    exact ⟨rfl, rfl, rfl⟩
  obtain ⟨hasleep, -, -, -, hwake⟩ := ((sleep_duration hr (by rw [hrunning]; decide) hs₁).1
    (by decide)).2 [] s₁ rfl nofun (by omega)
  rw [hrunning] at hasleep hwake
  exact ⟨s, s₁, s₂, hs, hs₁, hs₂, hasleep, hwake .tick s₂ nofun hs₂ (by omega)⟩

end CoreOS.Uthreads
