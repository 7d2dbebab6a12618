import CoreOS.Uthreads.Contexts

/-!
# The signal mask at the start

For which signal masks of the process that calls `uthread_init` the library calls are atomic.

* `Point.Stays`: a point from which the main thread does not give up the processor.
* `Held`: the invariant while `SIGVTALRM` is blocked. No tick arrives, and the main thread can
  neither sleep nor block itself, so no other thread ever runs; `Held.step`, `held_of_run`.
* `preemption_safe_iff`: **the calls are atomic in every run exactly if `SIGVTALRM` is blocked from
  the start**, which the library does not do itself; `preemption_unsafe` shows what happens then.
-/

namespace CoreOS.Uthreads

open CoreOS.Lib

variable {n : ℕ} {q : ℤ} {g : State} {m : SignalSet} {s s' : System} {c : Call} {k : ℕ} {p : Point}

/-! ## A thread that stays -/

/-- From here the main thread, which runs, does not give up the processor. -/
def Point.Stays : Point → Prop
  | .test c _ => ∀ b ∈ c.branches, b.1 = .running → c.target ≠ mainThreadId
  | .body code tail => tail.returns = true ∧ ∀ st ∈ code, st.switches = false
  | .jump _ => False
  | .user | .query _ _ | .start _ | .block _ | .inspect _ | .resumed | .ret _ _ => True

/-- The first checks send the main thread to no code that gives up the processor. -/
theorem check_stays (hrun : g.runningThread = mainThreadId) (h : c.check g = .ok p) : p.Stays := by
  cases c with
  | spawn entryPoint =>
      unfold Call.check at h
      dsimp only at h
      split at h
      · cases h
        exact ⟨rfl, by simp⟩
      · split_ifs at h <;> cases h
        · exact ⟨rfl, by simp⟩
        · exact ⟨rfl, by simp [Statement.switches]⟩
  | terminate tid | block tid =>
      unfold Call.check at h
      dsimp only at h
      split_ifs at h with hmain <;> cases h
      all_goals first | exact ⟨rfl, by simp⟩ | exact fun _ _ _ => hmain
  | resume tid =>
      unfold Call.check at h
      dsimp only at h
      split_ifs at h <;> cases h
      · exact ⟨rfl, by simp⟩
      · simp [Point.Stays, Call.branches]
  | sleep numQuantums =>
      -- the main thread is refused
      unfold Call.check at h
      dsimp only at h
      rw [if_pos hrun] at h
      cases h
      exact ⟨rfl, by simp⟩

/-- The code for a thread that is not `RUNNING` returns. -/
theorem branch_stays {b : ThreadState × Code} (hb : b ∈ c.branches) (hstate : b.1 ≠ .running) :
    (Point.ofCode b.2).Stays := by
  cases c with
  | spawn | sleep => cases hb
  | terminate tid | block tid | resume tid =>
      simp only [Call.branches, List.mem_cons, List.not_mem_nil, or_false] at hb
      rcases hb with rfl | rfl | rfl <;>
        first
          | exact absurd rfl hstate
          | exact ⟨rfl, by simp [Statement.switches, releaseStatements]⟩

/-- The tests find no thread `RUNNING` but the main thread, for which there is no test. -/
theorem decide_stays (hc : Consistent n q g) (hrun : g.runningThread = mainThreadId)
    (hp : (Point.test c k).Stays) (h : c.decide k g = .ok p) : p.Stays := by
  unfold Call.decide at h
  obtain ⟨thread, hthread, h⟩ := bind_ok.mp h
  split at h
  · next state code hbranch =>
    have hmem := List.mem_of_getElem? hbranch
    split_ifs at h with hstate <;> cases h
    · refine branch_stays hmem fun hrunning => hp _ hmem hrunning ?_
      rw [← hrun]
      exact hc.unique _ thread (deref_eq_ok.mp hthread) (hstate.trans hrunning)
    · exact hp
  · cases h
    cases c <;> exact ⟨rfl, by simp [Call.otherwise, releaseStatements, Statement.switches]⟩

/-! ## The invariant -/

/-- The main thread runs, has `SIGVTALRM` blocked and does not give up the processor. -/
structure Held (s : System) : Prop where
  mask : s.mask.vtalrm = true
  running : s.globals.runningThread = mainThreadId
  point : ∃ p, s.control = .at p ∧ p.Stays

/-- No tick arrives. -/
theorem Held.no_tick (h : Held s) : s.act n .tick = none := by
  obtain ⟨p, hs, -⟩ := h.point
  simp [System.act, hs, h.mask]

/-- A step of the main thread. -/
theorem Held.point_step (h : Held s) (hs : s.control = .at p) (hp : p.Stays)
    (hc : p.observes = true → Consistent n q s.globals) (hstep : p.step n s = some s') :
    Held s' := by
  have hmask := h.mask
  cases p with
  | user => cases hstep
  | query tid r =>
      cases r with
      | block =>
          cases hstep
          exact ⟨(blockSignals_vtalrm _).trans hmask, h.running, _, rfl, trivial⟩
      | find =>
          cases hstep
          exact ⟨hmask, h.running, _, rfl, trivial⟩
      | miss | hit =>
          cases hstep
          exact ⟨(unblockSignals_vtalrm _).trans hmask, h.running, _, rfl, trivial⟩
      | read k =>
          obtain ⟨-, hstep⟩ := Option.ite_none_right_eq_some.mp hstep
          obtain ⟨thread, -, hstep⟩ := Option.bind_eq_some_iff.mp hstep
          cases hstep
          exact ⟨hmask, h.running, _, rfl, trivial⟩
  | start c =>
      obtain ⟨env, -, hstep⟩ := Option.bind_eq_some_iff.mp hstep
      cases hstep
      exact ⟨hmask, h.running, _, rfl, trivial⟩
  | block c =>
      cases hstep
      exact ⟨(blockSignals_vtalrm _).trans hmask, h.running, _, rfl, trivial⟩
  | inspect c =>
      obtain ⟨p, hcheck, hstep⟩ := Option.bind_eq_some_iff.mp hstep
      cases hstep
      exact ⟨hmask, h.running, p, rfl, check_stays h.running (toOption_eq_some.mp hcheck)⟩
  | test c k =>
      obtain ⟨p, hdecide, hstep⟩ := Option.bind_eq_some_iff.mp hstep
      cases hstep
      exact ⟨hmask, h.running, p, rfl,
        decide_stays (hc rfl) h.running hp (toOption_eq_some.mp hdecide)⟩
  | body code tail =>
      obtain ⟨htail, hcode⟩ := hp
      cases code with
      | cons st code =>
          obtain ⟨g, hexec, hstep⟩ := Option.bind_eq_some_iff.mp hstep
          cases hstep
          have hrun := exec_running (toOption_eq_some.mp hexec) (hcode st List.mem_cons_self)
          refine ⟨(effect_vtalrm _ _).trans hmask, ?_, .body code tail, ?_, htail, ?_⟩
          · rw [effect_globals, hrun, h.running]
          · rw [effect_control]
          · exact fun st hst => hcode st (List.mem_cons_of_mem _ hst)
      | nil =>
          obtain ⟨p, hfollow, hstep⟩ := Option.bind_eq_some_iff.mp hstep
          cases hstep
          have hret : p.Stays := by
            cases tail with
            | leave | unblock =>
                cases hfollow
                exact trivial
            | _ => cases htail
          refine ⟨?_, h.running, p, rfl, hret⟩
          show (if tail.unblocks then unblockSignals s.mask else s.mask).vtalrm = true
          split_ifs
          · exact (unblockSignals_vtalrm _).trans hmask
          · exact hmask
  | resumed =>
      cases hstep
      exact ⟨(blockSignals_vtalrm _).trans hmask, h.running, _, rfl, trivial⟩
  | jump id => exact hp.elim
  | ret val cerr =>
      cases hstep
      exact ⟨hmask, h.running, _, rfl, trivial⟩

/-- **Step.** -/
theorem Held.step {a : Act} (h : Held s)
    (hc : ∀ p, s.control = .at p → p.observes = true → Consistent n q s.globals)
    (hstep : (preemptive n q).step a s = some s') : Held s' := by
  change s.act n a = some s' at hstep
  unfold System.act at hstep
  obtain ⟨p, hs, hp⟩ := h.point
  split at hstep
  · next c _ =>
    cases hstep
    exact ⟨h.mask, h.running, c.entry, rfl, by cases c <;> exact trivial⟩
  · cases hstep
    exact ⟨h.mask, h.running, _, rfl, trivial⟩
  · next p' hs' =>
    rw [hs] at hs'
    cases hs'
    exact h.point_step hs hp (hc p hs) hstep
  · next hs' =>
    rw [hs] at hs'
    cases hs'
  · rw [if_neg (by simp [h.mask])] at hstep
    cases hstep
  · cases hstep

/-- **Run.** No tick has arrived, so ticks were in time. -/
theorem held_of_run (hinit : (library n q).init g) (hm : m.vtalrm = true) {acts : List Act}
    (hrun : (preemptive n q).run acts (launched g m) = some s) :
    (preemptive n q).ReachableBy Honoured s ∧ Held s := by
  have hstart : Held (launched g m) := by
    obtain ⟨rfl, -, -, -⟩ := library_init.mp hinit
    exact ⟨hm, rfl, _, rfl, trivial⟩
  refine (preemptive n q).run_invariant
    (P := fun s => (preemptive n q).ReachableBy Honoured s ∧ Held s) ?_ acts
    ⟨.init ⟨g, m, hinit, rfl⟩, hstart⟩ hrun
  rintro a s s' ⟨hreach, hheld⟩ hstep
  have hok : Honoured s a := by
    rintro ⟨rfl, -⟩
    have hnone : (preemptive n q).step .tick s = none := hheld.no_tick
    rw [hnone] at hstep
    cases hstep
  obtain ⟨t, ht, hf⟩ := ReachableBy.follows hreach
  refine ⟨hreach.step hok hstep, hheld.step (fun p hs hobs => ?_) hstep⟩
  rw [hf.observing p hs hobs]
  exact reachable_consistent ht

/-! ## Atomicity -/

/-- Where `SIGVTALRM` is not blocked a tick can arrive in the first call, after its
`block_signals`. -/
theorem exists_run_scheduler (hinit : (library n q).init g) (hm : m.vtalrm = false) :
    ∃ acts s p m', (preemptive n q).run acts (launched g m) = some s ∧
      s.control = .scheduler p m' ∧ p.critical = true := by
  have harmed : g.TimerArmed := (Consistent.init hinit).armed
  -- `block_signals` has been executed, and blocks `SIGALRM` only
  have htick : (preemptive n q).step .tick { launched g m with
      mask := blockSignals m, control := .at (.inspect (.spawn 0)) } = some { launched g m with
      mask := { blockSignals m with vtalrm := true }
      control := .scheduler (.inspect (.spawn 0)) (blockSignals m) } :=
    if_pos ⟨harmed, (blockSignals_vtalrm m).trans hm⟩
  have hrun : (preemptive n q).run [.call (.spawn 0), .step, .tick] (launched g m) = _ :=
    (Machine.run_cons _).mpr ⟨_, rfl, (Machine.run_cons _).mpr
      ⟨_, rfl, (Machine.run_singleton _).mpr htick⟩⟩
  exact ⟨_, _, _, _, hrun, rfl, rfl⟩

/-- **Atomicity.** For a process that calls `uthread_init` with the mask `m`, the calls are atomic
in every run, wherever the ticks arrive, if and only if `m` blocks `SIGVTALRM`; and the same is true
of `scheduler` not entering a critical section alone. -/
theorem preemption_safe_iff (hinit : (library n q).init g) (m : SignalSet) :
    ((∀ acts s, (preemptive n q).run acts (launched g m) = some s → Atomic n q s) ↔
      m.vtalrm = true) ∧
    ((∀ acts s, (preemptive n q).run acts (launched g m) = some s →
      ∀ p m', s.control = .scheduler p m' → p.critical = false) ↔ m.vtalrm = true) := by
  have hsafe : m.vtalrm = true → ∀ acts s,
      (preemptive n q).run acts (launched g m) = some s → Atomic n q s := by
    intro hm acts s hrun
    exact atomic_of_reachable (held_of_run hinit hm hrun).1
  have hunsafe : (∀ acts s, (preemptive n q).run acts (launched g m) = some s →
      ∀ p m', s.control = .scheduler p m' → p.critical = false) → m.vtalrm = true := by
    intro hall
    by_contra hm
    obtain ⟨acts, s, p, m', hrun, hs, hcrit⟩ :=
      exists_run_scheduler hinit (Bool.eq_false_of_not_eq_true hm)
    rw [hall acts s hrun p m' hs] at hcrit
    cases hcrit
  exact ⟨⟨fun h => hunsafe fun acts s hrun => (h acts s hrun).scheduler, hsafe⟩,
    hunsafe, fun hm acts s hrun => (hsafe hm acts s hrun).scheduler⟩

/-- With `SIGVTALRM` unblocked some run is not atomic; with it blocked every run is. -/
theorem preemption_safe_iff_small :
    (¬ ∀ acts s, (preemptive 4 100).run acts smallProcess = some s → Atomic 4 100 s) ∧
    ∀ acts s, (preemptive 4 100).run acts (launched (afterInit 4 100) ⟨false, true⟩) = some s →
      Atomic 4 100 s := by
  have hinit : (library 4 100).init (afterInit 4 100) :=
    library_init.mpr ⟨rfl, by decide, by decide, by decide⟩
  refine ⟨fun h => ?_, (preemption_safe_iff hinit ⟨false, true⟩).1.mpr rfl⟩
  have hblocked := (preemption_safe_iff hinit SignalSet.empty).1.mp h
  cases hblocked

/-- The main thread is interrupted in `uthread_spawn`, after `block_signals` and `ids.pop()`. -/
def tickInSpawn : List Act := .call (.spawn 1) :: steps 3 ++ [.tick]

/-- Thread 1 is interrupted in `uthread_sleep`, after `running_thread = NO_THREAD` and before the
timer is cancelled. -/
def tickInSleep : List Act :=
  .call (.spawn 1) :: steps 8 ++ [.tick, .step, .call (.sleep 5)] ++ steps 7 ++ [.tick]

/-- The main thread is interrupted in `uthread_terminate` of thread 1, after it has taken it from
`ready_queue`; thread 2 blocks thread 1. -/
def tickInTerminate : List Act :=
  .call (.spawn 1) :: steps 8 ++ .call (.spawn 1) :: steps 8 ++ .call (.terminate 1) :: steps 4 ++
    [.tick, .step, .call (.block 1)] ++ steps 3

set_option maxRecDepth 2000 in
/-- **No atomicity.** `block_signals` does not block `SIGVTALRM`: `scheduler` enters a critical
section, with a `running_thread` that is no key of `threads`, and a call finds a `READY` thread in
no container. -/
theorem preemption_unsafe : (preemptive 4 100).init smallProcess ∧
    (∃ s, (preemptive 4 100).run tickInSpawn smallProcess = some s ∧
      ∃ p m, s.control = .scheduler p m ∧ p.critical = true) ∧
    (∃ s, (preemptive 4 100).run tickInSleep smallProcess = some s ∧
      ∃ p m, s.control = .scheduler p m ∧
        s.globals.threads s.globals.runningThread = none) ∧
    ∃ s, (preemptive 4 100).run tickInTerminate smallProcess = some s ∧
      ∃ p thread, s.control = .at p ∧ p.observes = true ∧ s.globals.threads 1 = some thread ∧
        thread.state = .ready ∧ 1 ∉ s.globals.readyQueue ∧ 1 ∉ s.globals.sleeping := by
  refine ⟨smallProcess_init, ?_, ?_, ?_⟩
  · exact ⟨_, rfl, _, _, rfl, rfl⟩
  · exact ⟨_, rfl, _, _, rfl, rfl⟩
  · exact ⟨_, rfl, _, _, rfl, rfl, rfl, rfl, by decide, by decide⟩

end CoreOS.Uthreads
