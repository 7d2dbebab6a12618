import CoreOS.Uthreads.Contexts

/-!
# Coming back

What a thread that is interrupted finds when its turn comes again.

* `Tickable`: no thread has blocked `SIGVTALRM`; `tickable_run`.
* `turn`: a tick and the handler.
* `ticks_return`: **a thread comes back to where it was**, with the signal mask it had, after as
  many ticks as threads are queued, and one.
* `tick_at_jump_fatal`: so does one that is interrupted at the jump, but its environment has been
  written over, and there is nothing to jump to.
-/

namespace CoreOS.Uthreads

open CoreOS.Lib Function

variable {n : ℕ} {q : ℤ} {s s' : System}

/-! ## Signals -/

/-- The environment does not block `SIGVTALRM`. -/
def Context.Tickable : Context → Prop
  | .handler _ m | .blocking m | .sleeping m => m.vtalrm = false
  | .dead | .entry => True

/-- `SIGVTALRM` is not blocked, outside the handler. -/
def Control.Tickable (mask : SignalSet) : Control → Prop
  | .at _ => mask.vtalrm = false
  | .scheduler _ m => m.vtalrm = false

/-- No thread has blocked `SIGVTALRM`. -/
structure Tickable (s : System) : Prop where
  current : s.control.Tickable s.mask
  saved : ∀ id, (s.env id).Tickable

theorem tickable_update {env : ℤ → Context} (h : ∀ id, (env id).Tickable) (id : ℤ) {c : Context}
    (hc : c.Tickable) (i : ℤ) : (update env id c i).Tickable := by
  by_cases hi : i = id
  · rw [hi, update_self]
    exact hc
  · rw [update_of_ne hi]
    exact h i

theorem tickable_jumpTo {id : ℤ} (hsaved : ∀ i, (s.env i).Tickable) (h : jumpTo id s = some s') :
    Tickable s' := by
  have hid := hsaved id
  unfold jumpTo at h
  split at h
  · cases h
  · cases h
    exact ⟨rfl, hsaved⟩
  all_goals
    next heq =>
      rw [heq] at hid
      cases h
      exact ⟨hid, tickable_update hsaved id trivial⟩

theorem tickable_effect (st : Statement) (hmask : s.mask.vtalrm = false)
    (hsaved : ∀ id, (s.env id).Tickable) :
    (st.effect s).mask.vtalrm = false ∧ ∀ id, ((st.effect s).env id).Tickable := by
  cases st with
  | construct id => exact ⟨hmask, tickable_update hsaved id trivial⟩
  | block => exact ⟨(blockSignals_vtalrm _).trans hmask, hsaved⟩
  | _ => exact ⟨hmask, hsaved⟩

/-- A step of a thread. -/
theorem Tickable.point_step {p : Point} (ht : Tickable s) (hs : s.control = .at p)
    (h : p.step n s = some s') : Tickable s' := by
  have hmask := ht.current
  rw [hs] at hmask
  change s.mask.vtalrm = false at hmask
  have hsaved := ht.saved
  cases p with
  | user => cases h
  | query tid r =>
      cases r with
      | find =>
          cases h
          exact ⟨hmask, hsaved⟩
      | block =>
          cases h
          exact ⟨(blockSignals_vtalrm _).trans hmask, hsaved⟩
      | miss | hit =>
          cases h
          exact ⟨(unblockSignals_vtalrm _).trans hmask, hsaved⟩
      | read k =>
          obtain ⟨-, h⟩ := Option.ite_none_right_eq_some.mp h
          obtain ⟨thread, -, h⟩ := Option.bind_eq_some_iff.mp h
          cases h
          exact ⟨hmask, hsaved⟩
  | start c =>
      obtain ⟨env, henv, h⟩ := Option.bind_eq_some_iff.mp h
      cases h
      unfold saveEnv at henv
      split_ifs at henv
      cases henv
      refine ⟨hmask, tickable_update hsaved _ ?_⟩
      split <;> exact hmask
  | block c =>
      cases h
      exact ⟨(blockSignals_vtalrm _).trans hmask, hsaved⟩
  | inspect c =>
      obtain ⟨p', -, h⟩ := Option.bind_eq_some_iff.mp h
      cases h
      exact ⟨hmask, hsaved⟩
  | test c k =>
      obtain ⟨p', -, h⟩ := Option.bind_eq_some_iff.mp h
      cases h
      exact ⟨hmask, hsaved⟩
  | body code tail =>
      cases code with
      | cons st code =>
          obtain ⟨g, -, h⟩ := Option.bind_eq_some_iff.mp h
          cases h
          have heffect := tickable_effect (s := { s with
            globals := g, control := .at (.body code tail) }) st hmask hsaved
          refine ⟨?_, heffect.2⟩
          rw [effect_control]
          exact heffect.1
      | nil =>
          obtain ⟨p', -, h⟩ := Option.bind_eq_some_iff.mp h
          cases h
          refine ⟨?_, hsaved⟩
          show (if tail.unblocks then unblockSignals s.mask else s.mask).vtalrm = false
          split
          · exact (unblockSignals_vtalrm _).trans hmask
          · exact hmask
  | resumed =>
      cases h
      exact ⟨(blockSignals_vtalrm _).trans hmask, hsaved⟩
  | jump id => exact tickable_jumpTo hsaved h
  | ret val cerr =>
      cases h
      refine ⟨hmask, ?_⟩
      dsimp only
      split
      · exact tickable_update hsaved _ trivial
      · exact tickable_update hsaved _ trivial
      · exact hsaved

/-- A process that starts with `SIGVTALRM` unblocked never blocks it. -/
theorem tickable_act {a : Act} (ht : Tickable s) (h : s.act n a = some s') : Tickable s' := by
  have hact := h
  have hcurrent := ht.current
  unfold System.act at h
  split at h
  · next c hs =>
    cases h
    rw [hs] at hcurrent
    exact ⟨hcurrent, ht.saved⟩
  · next tid hs =>
    cases h
    rw [hs] at hcurrent
    exact ⟨hcurrent, ht.saved⟩
  · next p hs => exact ht.point_step hs h
  · next p m hs =>
    rw [hs] at hcurrent
    obtain ⟨env, henv, h⟩ := Option.bind_eq_some_iff.mp h
    obtain ⟨⟨r, g⟩, -, h⟩ := Option.bind_eq_some_iff.mp h
    unfold saveEnv at henv
    split_ifs at henv
    cases henv
    exact tickable_jumpTo (tickable_update ht.saved _ (c := .handler p m) hcurrent) h
  · obtain ⟨p, hs, -, rfl⟩ := tick_cases hact
    rw [hs] at hcurrent
    exact ⟨hcurrent, ht.saved⟩
  · cases h

/-- So is every state of a run. -/
theorem tickable_run {g : State} {m : SignalSet} {acts : List Act} (hm : m.vtalrm = false)
    (hrun : (preemptive n q).run acts (launched g m) = some s) : Tickable s :=
  (preemptive n q).run_invariant (P := Tickable) (fun _ _ _ ht h => tickable_act ht h) acts
    (s := launched g m) ⟨hm, fun _ => trivial⟩ hrun

/-! ## A tick and the handler -/

/-- A tick can come, and the handler has somebody to jump to. -/
structure Interruptible (n : ℕ) (q : ℤ) (s : System) : Prop where
  consistent : Consistent n q s.globals
  others : Others s.globals s.env
  tickable : Tickable s
  point : ∃ p, s.control = .at p

/-- A tick and the handler, when the thread is at `p`. -/
structure Turn (n : ℕ) (q : ℤ) (p : Point) (s s' : System) : Prop extends
    Interruptible n q s' where
  /-- The thread queues up, and the front of the queue is next. -/
  queue : ∃ back, s'.globals.runningThread :: s'.globals.readyQueue =
    s.globals.readyQueue ++ s.globals.runningThread :: back
  /-- Its environment is saved; the others keep theirs. -/
  saved : ∀ i, i ≠ s'.globals.runningThread →
    s'.env i = update s.env s.globals.runningThread (.handler p s.mask) i
  /-- A thread that was interrupted goes on from there. -/
  resumes : ∀ p' m,
    update s.env s.globals.runningThread (.handler p s.mask) s'.globals.runningThread =
      .handler p' m →
    s'.control = .at p' ∧ s'.mask = m ∧ s'.env s'.globals.runningThread = .dead

/-- What a jump does. -/
theorem exists_jumpTo {id : ℤ} (h : s.env id ≠ .dead) : ∃ s', jumpTo id s = some s' ∧
    s'.globals = s.globals ∧ (∃ p, s'.control = .at p) ∧ (∀ i, i ≠ id → s'.env i = s.env i) ∧
    ∀ p m, s.env id = .handler p m → s'.control = .at p ∧ s'.mask = m ∧ s'.env id = .dead := by
  unfold jumpTo
  cases henv : s.env id with
  | dead => exact absurd henv h
  | entry => exact ⟨_, rfl, rfl, ⟨_, rfl⟩, fun _ _ => rfl, fun _ _ heq => by cases heq⟩
  | handler p m =>
      refine ⟨_, rfl, rfl, ⟨_, rfl⟩, fun i hi => update_of_ne hi _ _, fun p' m' heq => ?_⟩
      cases heq
      exact ⟨rfl, rfl, update_self ..⟩
  | blocking m | sleeping m =>
      exact ⟨_, rfl, rfl, ⟨_, rfl⟩, fun i hi => update_of_ne hi _ _, fun _ _ heq => by cases heq⟩

/-- **A turn.** -/
theorem Interruptible.turn (h : Interruptible n q s) {p : Point} (hs : s.control = .at p) :
    ∃ s', (preemptive n q).run [.tick, .step] s = some s' ∧ Turn n q p s s' := by
  obtain ⟨hc, hothers, htickable, -⟩ := h
  obtain ⟨running, hrunning, -⟩ := hc.running
  obtain ⟨g, hg⟩ := hc.scheduler_ok
  obtain ⟨th, -, hd⟩ := hc.decision_of_scheduler hg
  obtain ⟨next, hnext, -⟩ := (hc.scheduled hg).running
  have hmask := htickable.current
  rw [hs] at hmask
  have hlive := hc.live_scheduled hg hothers p s.mask
  -- the tick enters the handler, which jumps
  obtain ⟨s₁, hs₁, htick⟩ : ∃ s₁, s₁ = { s with
      mask := { s.mask with vtalrm := true }, control := .scheduler p s.mask } ∧
      (preemptive n q).step .tick s = some s₁ := by
    refine ⟨_, rfl, ?_⟩
    show s.act n .tick = _
    unfold System.act
    rw [hs]
    exact if_pos ⟨hc.armed, hmask⟩
  obtain ⟨s', hjump, hglobals, hpoint, hsaved, hresumes⟩ := exists_jumpTo (s := { s₁ with
    globals := g, env := update s.env s.globals.runningThread (.handler p s.mask) })
    (hlive g.runningThread (Option.isSome_iff_exists.mpr ⟨next, hnext⟩))
  have hstep : (preemptive n q).step .step s₁ = some s' := by
    rw [hs₁] at hjump ⊢
    show handle n p s.mask _ = some s'
    unfold handle saveEnv
    dsimp only
    rw [if_pos (hc.bounded _ running hrunning), hg]
    exact hjump
  have hrun : (preemptive n q).run [.tick, .step] s = some s' :=
    (Machine.run_cons _).mpr ⟨s₁, htick, (Machine.run_singleton _).mpr hstep⟩
  change s'.globals = g at hglobals
  refine ⟨s', hrun, ⟨hglobals ▸ hc.scheduled hg, ?_,
    tickable_act (tickable_act htickable htick) hstep, hpoint⟩, ?_, ?_, ?_⟩
  · intro tid hthere hne
    rw [hglobals] at hthere hne
    rw [hsaved tid hne]
    exact hlive tid hthere
  · rw [hglobals]
    exact ⟨woken (preempted th s.globals), by simpa [preempted] using hd.queue⟩
  · rw [hglobals]
    exact hsaved
  · rw [hglobals]
    exact hresumes

/-! ## Coming back -/

/-- `k` times a tick and the handler. -/
def turns (k : ℕ) : List Act := (List.replicate k [.tick, .step]).flatten

/-- A thread that waits where it was interrupted comes back to it when it is dispatched. -/
theorem Interruptible.returns {id : ℤ} {p : Point} {m : SignalSet} (h : Interruptible n q s)
    {ahead : List ℤ} (hne : id ≠ s.globals.runningThread) (henv : s.env id = .handler p m)
    (hahead : Ahead ahead id s.globals.readyQueue) :
    ∃ s', (preemptive n q).run (turns (ahead.length + 1)) s = some s' ∧ s'.control = .at p ∧
      s'.mask = m ∧ s'.globals.runningThread = id ∧ s'.env id = .dead := by
  induction ahead generalizing s with
  | nil =>
      obtain ⟨p', hp'⟩ := h.point
      obtain ⟨s', hrun, hturn⟩ := h.turn hp'
      obtain ⟨back, hback⟩ := hturn.queue
      rcases (hahead.append _).front hback with ⟨-, hrunning⟩ | ⟨_, hcons, -⟩
      · obtain ⟨hcontrol, hmask, hdead⟩ := hturn.resumes p m (by
          rw [hrunning, update_of_ne hne, henv])
        exact ⟨s', hrun, hcontrol, hmask, hrunning, hrunning ▸ hdead⟩
      · cases hcons
  | cons a ahead ih =>
      obtain ⟨p', hp'⟩ := h.point
      obtain ⟨s', hrun, hturn⟩ := h.turn hp'
      obtain ⟨back, hback⟩ := hturn.queue
      rcases (hahead.append _).front hback with ⟨hnil, -⟩ | ⟨ahead', hcons, hahead'⟩
      · cases hnil
      · obtain ⟨ha, rfl⟩ := List.cons.inj hcons
        have hne' : id ≠ s'.globals.runningThread := fun heq =>
          hturn.consistent.running_not_queued (heq ▸ hahead'.mem)
        have henv' : s'.env id = .handler p m := by
          rw [hturn.saved id hne', update_of_ne hne, henv]
        obtain ⟨s'', hrun', hback'⟩ := ih hturn.toInterruptible hne' henv' hahead'
        exact ⟨s'', (Machine.run_append _).mpr ⟨s', hrun, hrun'⟩, hback'⟩

/-- So does the thread that runs, after the first tick. -/
theorem Interruptible.comes_back {p : Point} (h : Interruptible n q s) (hs : s.control = .at p) :
    ∃ s', (preemptive n q).run (turns (s.globals.readyQueue.length + 1)) s = some s' ∧
      s'.control = .at p ∧ s'.mask = s.mask ∧
      s'.globals.runningThread = s.globals.runningThread ∧
      s'.env s.globals.runningThread = .dead := by
  obtain ⟨s₁, hrun, hturn⟩ := h.turn hs
  obtain ⟨back, hback⟩ := hturn.queue
  have hahead : Ahead s.globals.readyQueue s.globals.runningThread
      (s.globals.readyQueue ++ s.globals.runningThread :: back) := ⟨back, rfl⟩
  rcases hahead.front hback with ⟨hnil, hrunning⟩ | ⟨ahead, hcons, hahead'⟩
  · obtain ⟨hcontrol, hmask, hdead⟩ := hturn.resumes p s.mask (by rw [hrunning, update_self])
    rw [hrunning] at hdead
    rw [hnil]
    exact ⟨s₁, hrun, hcontrol, hmask, hrunning, hdead⟩
  · have hne : s.globals.runningThread ≠ s₁.globals.runningThread := fun heq =>
      hturn.consistent.running_not_queued (heq ▸ hahead'.mem)
    obtain ⟨s', hrun', hback'⟩ := hturn.toInterruptible.returns hne
      ((hturn.saved _ hne).trans (update_self ..)) hahead'
    rw [hcons]
    exact ⟨s', (Machine.run_append _).mpr ⟨s₁, hrun, hrun'⟩, hback'⟩

section Process

variable {g : State} {m : SignalSet} {acts : List Act}

theorem interruptible_of_runBy (hinit : (library n q).init g) (hm : m.vtalrm = false)
    (hrun : (preemptive n q).runBy Punctual acts (launched g m) = some s) {p : Point}
    (hs : s.control = .at p) (hcrit : p.critical = false) : Interruptible n q s := by
  have hreach : (preemptive n q).ReachableBy Punctual s :=
    Machine.ReachableBy.runBy (.init ⟨g, m, hinit, rfl⟩) hrun
  obtain ⟨t, ht, hf⟩ := ReachableBy.follows (Punctual.of_reachableBy hreach)
  have hkept := (kept_of_reachable hreach).control
  rw [hs] at hkept
  have hglobals : s.globals = t := hf.calm (by rw [hs]; exact hcrit)
  exact ⟨hglobals ▸ reachable_consistent ht, Point.Kept.others hkept hcrit,
    tickable_run hm (Machine.run_of_runBy hrun), p, hs⟩

/-- **Preemption is transparent.** A thread that is interrupted outside a critical section, and
then every thread as soon as it is resumed: after as many ticks as threads are queued, and one, it
goes on at the same point and with the same signal mask. -/
theorem ticks_return (hinit : (library n q).init g) (hm : m.vtalrm = false)
    (hrun : (preemptive n q).runBy Punctual acts (launched g m) = some s) {p : Point}
    (hs : s.control = .at p) (hcrit : p.critical = false) :
    ∃ s', (preemptive n q).run (turns (s.globals.readyQueue.length + 1)) s = some s' ∧
      s'.control = s.control ∧ s'.mask = s.mask ∧
      s'.globals.runningThread = s.globals.runningThread := by
  obtain ⟨s', hrun', hcontrol, hmask, hrunning, -⟩ :=
    (interruptible_of_runBy hinit hm hrun hs hcrit).comes_back hs
  exact ⟨s', hrun', hcontrol.trans hs.symm, hmask, hrunning⟩

/-- The main thread is interrupted between the `sigsetjmp` and the `block_signals` of
`uthread_block`, with two threads queued. -/
theorem ticks_return_run : ∃ s s', (preemptive 4 100).runBy Punctual
      (.call (.spawn 1) :: steps 8 ++ .call (.spawn 1) :: steps 8 ++ [.call (.block 1), .step])
      smallProcess = some s ∧ s.globals.readyQueue = [1, 2] ∧
    (preemptive 4 100).run (turns 3) s = some s' ∧ s'.control = .at (.block (.block 1)) ∧
    s'.globals.runningThread = 0 := by
  obtain ⟨s, hs⟩ : ∃ s, (preemptive 4 100).runBy Punctual
      (.call (.spawn 1) :: steps 8 ++ .call (.spawn 1) :: steps 8 ++ [.call (.block 1), .step])
      smallProcess = some s := ⟨_, rfl⟩
  have hfacts : s.control = .at (.block (.block 1)) ∧ s.globals.readyQueue = [1, 2] ∧
      s.globals.runningThread = 0 := by
    cases hs
    exact ⟨rfl, rfl, rfl⟩
  obtain ⟨hcontrol, hqueue, hrunning⟩ := hfacts
  obtain ⟨s', hrun, hcontrol', -, hrunning'⟩ := ticks_return
    (library_init.mpr ⟨rfl, by decide, by decide, by decide⟩) rfl hs hcontrol rfl
  rw [hqueue] at hrun
  exact ⟨s, s', hs, hqueue, hrun, hcontrol'.trans hcontrol, hrunning'.trans hrunning⟩

/-- **A tick at the jump is fatal.** `run_thread` has unblocked the signals and is about to jump;
the ticks come as before. The handler writes over the environment of the thread that
`run_thread` has chosen, and when the turn of that thread comes there is nothing to jump to. -/
theorem tick_at_jump_fatal (hinit : (library n q).init g) (hm : m.vtalrm = false)
    (hrun : (preemptive n q).runBy Punctual acts (launched g m) = some s) {id : ℤ}
    (hs : s.control = .at (.jump id)) :
    ∃ s', (preemptive n q).run (turns (s.globals.readyQueue.length + 1)) s = some s' ∧
      s'.control = .at (.jump id) ∧ (preemptive n q).step .step s' = none := by
  obtain ⟨s', hrun', hcontrol, -, -, hdead⟩ :=
    (interruptible_of_runBy hinit hm hrun hs rfl).comes_back hs
  have hreach : (preemptive n q).ReachableBy Punctual s :=
    Machine.ReachableBy.runBy (.init ⟨g, m, hinit, rfl⟩) hrun
  have hkept := (kept_of_reachable hreach).control
  rw [hs] at hkept
  rw [hkept.1] at hdead
  refine ⟨s', hrun', hcontrol, ?_⟩
  show s'.act n .step = none
  unfold System.act
  rw [hcontrol]
  show jumpTo id s' = none
  rw [jumpTo, hdead]

/-- Thread 1 sleeps, and the main thread is about to run. -/
theorem tick_at_jump_fatal_run : ∃ s s', (preemptive 4 100).runBy Punctual
      (.call (.spawn 1) :: steps 8 ++ [.tick, .step, .call (.sleep 5)] ++ steps 23)
      smallProcess = some s ∧ s.control = .at (.jump 0) ∧
    (preemptive 4 100).run (turns 1) s = some s' ∧ (preemptive 4 100).step .step s' = none := by
  obtain ⟨s, hs⟩ : ∃ s, (preemptive 4 100).runBy Punctual
      (.call (.spawn 1) :: steps 8 ++ [.tick, .step, .call (.sleep 5)] ++ steps 23)
      smallProcess = some s := ⟨_, rfl⟩
  have hfacts : s.control = .at (.jump 0) ∧ s.globals.readyQueue = [] := by
    cases hs
    exact ⟨rfl, rfl⟩
  obtain ⟨hcontrol, hqueue⟩ := hfacts
  obtain ⟨s', hrun, -, hstuck⟩ := tick_at_jump_fatal
    (library_init.mpr ⟨rfl, by decide, by decide, by decide⟩) rfl hs hcontrol
  rw [hqueue] at hrun
  exact ⟨s, s', hs, hcontrol, hrun, hstuck⟩

end Process

end CoreOS.Uthreads
