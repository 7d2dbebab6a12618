import CoreOS.Uthreads.Preemption
import CoreOS.Uthreads.Safety

/-!
# The library calls and preemption

What the rest of a call between `block_signals` and `unblock_signals` would do if no tick arrived,
and what follows for runs in which none does.

* `Point.finish`: what is left of a call, as a function of the globals; `finish_inspect` says that
  for a whole call it is the call of `Library`, and `step_critical` that one statement leaves the
  same rest.
* `Honoured`: the ticks that the calls expect, which do not find `SIGALRM` blocked in the middle of
  one.
* `Follows s t`: the simulation relation; `preemptive_simulation`.
* `Atomic`: what the blocking of signals is for; `atomic_of_reachable`: while all ticks are honoured
  the calls are atomic. For which processes they always are is said in `InitialMask`.
-/

namespace CoreOS.Uthreads

open CoreOS.Lib Function

/-! ## The rest of a call -/

/-- Executes a sequence of statements. -/
def runAll (code : List Statement) (s : State) : Except Stop State :=
  code.foldlM (fun s st => st.exec s) s

/-- What is left at `if (set_timer)`. -/
def finishArm (s : State) : Except Stop State := runAll (armStatements s.setTimer) s

/-- What is left at `run_thread`. -/
def finishRun (next : ℤ) (s : State) : Except Stop State := do
  let _ ← threadsAt next s
  let s ← runAll (runStatements next) s
  finishArm s

/-- What is left at the choice of the next thread. -/
def finishDispatch (s : State) : Except Stop State :=
  match s.readyQueue with
  | [] => .error .undefined
  | next :: _ => do
      let s ← runAll [.eraseFront] s
      finishRun next s

/-- What is left at the loop over `sleeping`. -/
def finishWake (s : State) : Except Stop State := do
  let s ← runAll (s.sleeping.toList.map .wake) s
  finishDispatch s

/-- What is left after a sequence of statements. -/
def Tail.finish (s : State) : Tail → Except Stop State
  | .wakeLoop => finishWake s
  | .dispatch => finishDispatch s
  | .run next => finishRun next s
  | .arm _ => finishArm s
  | .leave _ _ | .unblock _ _ | .resume _ => .ok s

/-- What is left at a sequence of statements. -/
def finishCode (c : Code) (s : State) : Except Stop State := do
  let s ← runAll c.1 s
  c.2.finish s

/-- The branch that a call takes from the test number `k` on. -/
def Call.pick (c : Call) (k : ℕ) (state : ThreadState) : Code :=
  ((c.branches.drop k).find? fun b => b.1 = state).elim c.otherwise Prod.snd

/-- What is left at a point after the first checks. -/
def Point.settle (s : State) : Point → Except Stop State
  | .body code tail => finishCode (code, tail) s
  | .test c k => do
      let thread ← deref c.target s
      finishCode (c.pick k thread.state) s
  | _ => .ok s

/-- What is left at a point. -/
def Point.finish (s : State) : Point → Except Stop State
  | .inspect c => do
      let p ← c.check s
      p.settle s
  | p => p.settle s

/-! ### Statement by statement -/

variable {s s' : State}

theorem runAll_cons (st : Statement) (code : List Statement) (s : State) :
    runAll (st :: code) s = st.exec s >>= runAll code := rfl

/-- Statements that succeed can be taken off the front. -/
theorem runAll_cons_ok {st : Statement} {code : List Statement} (h : st.exec s = .ok s') :
    runAll (st :: code) s = runAll code s' := by
  rw [runAll_cons, h]
  rfl

theorem deref_ok {tid : ℤ} {x : Thread} (h : s.threads tid = some x) : deref tid s = .ok x := by
  rw [deref, h]

theorem threadsAt_ok {tid : ℤ} {x : Thread} (h : s.threads tid = some x) :
    threadsAt tid s = .ok x := by
  rw [threadsAt, h]

/-- The timer can always be cancelled. -/
theorem exec_cancel (s : State) :
    Statement.exec .cancel s = .ok { s with timer := cancelTimer } := setTimerThreads_cancel s

/-- An object that was just written. -/
theorem threads_setThread (s : State) (tid : ℤ) (th : Thread) :
    (s.setThread tid th).threads tid = some th := update_self ..

/-! ### The rest of a scheduling decision -/

/-- The loop over `sleeping` is its turns, one after the other. -/
theorem runAll_wake (keys : List ℤ) (s : State) :
    runAll (keys.map .wake) s = wakeSleeping keys s := by
  induction keys generalizing s with
  | nil => rfl
  | cons tid keys ih =>
      have hcons : wakeSleeping (tid :: keys) s = wakeSleeping [tid] s >>= wakeSleeping keys := by
        simp only [wakeSleeping]
        rcases s.threads tid with _ | thread
        · rfl
        · dsimp only
          split_ifs <;> rfl
      rw [hcons, List.map_cons, runAll_cons]
      exact congrArg _ (funext ih)

/-- `if (set_timer)` of `run_thread`. -/
theorem finishArm_eq (s : State) :
    finishArm s = if s.setTimer then
      (setTimerThreads s.quantum s).map fun s => { s with setTimer := false } else .ok s := by
  unfold finishArm armStatements
  split_ifs
  · rw [runAll_cons]
    show setTimerThreads s.quantum s >>= runAll [.setFlag false] = _
    rcases setTimerThreads s.quantum s with e | u <;> rfl
  · rfl

/-- Running a thread statement by statement. -/
theorem finishRun_eq (next : ℤ) (s : State) :
    finishRun next s = threadsAt next s >>= fun thread => runThread next thread s := by
  unfold finishRun
  rcases h : s.threads next with _ | thread
  · rw [threadsAt, h]
    rfl
  · rw [threadsAt_ok h]
    have hrun : runAll (runStatements next) s = .ok
        { s.setThread next thread.quantumsUse.changeStateToRunning with
          runningThread := thread.id } := by
      have huse : Statement.exec (.useQuantum next) s =
          .ok (s.setThread next thread.quantumsUse) := by
        rw [Statement.exec, deref_ok h]
        rfl
      have hid : Statement.exec (.setRunning next) (s.setThread next thread.quantumsUse) = .ok
          { s.setThread next thread.quantumsUse with runningThread := thread.id } := by
        rw [Statement.exec, deref_ok (threads_setThread ..)]
        rfl
      have hmark : Statement.exec (.markRunning next)
          { s.setThread next thread.quantumsUse with runningThread := thread.id } = .ok
            { s.setThread next thread.quantumsUse.changeStateToRunning with
              runningThread := thread.id } := by
        rw [Statement.exec, deref_ok (x := thread.quantumsUse) (update_self ..)]
        simp only [State.setThread, update_idem]
        rfl
      have hblock : Statement.exec .block s = .ok s := rfl
      unfold runStatements
      rw [runAll_cons_ok hblock, runAll_cons_ok huse, runAll_cons_ok hid, runAll_cons_ok hmark]
      rfl
    rw [hrun]
    exact finishArm_eq _

/-- Choosing and running the next thread statement by statement. -/
theorem finishDispatch_eq (s : State) : finishDispatch s = dispatchFront s := by
  unfold finishDispatch dispatchFront
  rcases h : s.readyQueue with _ | ⟨next, rest⟩
  · rfl
  · have hfront : Statement.exec .eraseFront s = .ok { s with readyQueue := rest } := by
      rw [Statement.exec, h]
      rfl
    dsimp only
    rw [runAll_cons_ok hfront]
    exact finishRun_eq next { s with readyQueue := rest }

/-- A scheduling decision statement by statement. -/
theorem finishCode_count (s : State) :
    finishCode ([.countQuantum], .wakeLoop) s = makeSchedulingDecision s := by
  show finishWake { s with countTotalQuantums := s.countTotalQuantums + 1 } = _
  unfold finishWake makeSchedulingDecision
  rw [runAll_wake]
  exact congrArg _ (funext finishDispatch_eq)

/-! ### The calls -/

/-- The globals that an operation leaves. -/
def outcome (r : Result) : Except Stop State := r.map Prod.snd

/-- A statement in front of others. -/
theorem finishCode_cons (st : Statement) (code : List Statement) (tail : Tail) (s : State) :
    finishCode (st :: code, tail) s = st.exec s >>= finishCode (code, tail) := by
  unfold finishCode
  rw [runAll_cons, bind_assoc]

/-- A statement that succeeds can be taken off the front. -/
theorem finishCode_cons_ok {st : Statement} {code : List Statement} {tail : Tail}
    (h : st.exec s = .ok s') : finishCode (st :: code, tail) s = finishCode (code, tail) s' := by
  rw [finishCode_cons, h]
  rfl

/-- The end of a call that gives up the processor. -/
theorem finishCode_decision (r : Reply) (s : State) :
    finishCode ([.countQuantum], .wakeLoop) s =
      outcome (makeSchedulingDecision s >>= fun s => return (r, s)) := by
  rw [finishCode_count]
  rcases makeSchedulingDecision s with e | u <;> rfl

/-- `uthread_spawn` after `block_signals`. -/
theorem finish_spawn (entryPoint : ℕ) (s : State) :
    (Point.inspect (.spawn entryPoint)).finish s = outcome (uthreadSpawn entryPoint s) := by
  show Call.check s (.spawn entryPoint) >>= _ = _
  unfold Call.check uthreadSpawn
  rcases s.ids.top? with _ | id
  · rfl
  · by_cases h0 : entryPoint = 0
    · simp only [h0, if_true]
      rfl
    · simp only [h0, if_false]
      rfl

/-- The statements for a queued or blocked thread that is terminated. -/
theorem purge_eq {tid : ℤ} {thread : Thread} (hth : s.threads tid = some thread) :
    finishCode ([.purgeSleeping tid] ++ releaseStatements tid, .unblock success "") s =
      purgeSleeping tid thread s.sleeping >>= fun sleeping =>
        .ok (releaseThread tid { s with sleeping := sleeping }) := by
  rw [List.singleton_append, finishCode_cons, Statement.exec, deref_ok hth]
  show (purgeSleeping tid thread s.sleeping >>= _) >>= _ = _
  rcases purgeSleeping tid thread s.sleeping with e | sleeping <;> rfl

/-- `uthread_terminate` after the test of the state. -/
theorem finish_terminate_branch {tid : ℤ} {thread : Thread} (hmain : tid ≠ mainThreadId)
    (hth : s.threads tid = some thread) :
    finishCode ((Call.terminate tid).pick 0 thread.state) s =
      outcome (uthreadTerminate tid s) := by
  unfold uthreadTerminate
  rw [if_neg hmain, hth]
  dsimp only
  rcases thread.state
  · show finishCode (.eraseReady tid :: ([.purgeSleeping tid] ++ releaseStatements tid), _) s = _
    rw [finishCode_cons]
    show (eraseFound tid s.readyQueue >>= _) >>= _ = _
    rcases eraseFound tid s.readyQueue with e | readyQueue
    · rfl
    · refine (purge_eq (s := { s with readyQueue := readyQueue }) hth).trans ?_
      show purgeSleeping tid thread s.sleeping >>= _ =
        outcome (purgeSleeping tid thread s.sleeping >>= _)
      rcases purgeSleeping tid thread s.sleeping with e | sleeping <;> rfl
  · show finishCode (.eraseBlocked tid :: ([.purgeSleeping tid] ++ releaseStatements tid), _) s = _
    rw [finishCode_cons]
    show (eraseKey tid s.blocked >>= _) >>= _ = _
    rcases eraseKey tid s.blocked with e | blocked
    · rfl
    · refine (purge_eq (s := { s with blocked := blocked }) hth).trans ?_
      show purgeSleeping tid thread s.sleeping >>= _ =
        outcome (purgeSleeping tid thread s.sleeping >>= _)
      rcases purgeSleeping tid thread s.sleeping with e | sleeping <;> rfl
  · show finishCode (.cancel :: ([.setFlag true, .clearRunning] ++ releaseStatements tid ++
      [.countQuantum]), .wakeLoop) s = _
    rw [finishCode_cons_ok (exec_cancel _), setTimerThreads_cancel]
    exact finishCode_decision .switched _

/-- `uthread_block` after the test of the state. -/
theorem finish_block_branch {tid : ℤ} {thread : Thread} (hmain : tid ≠ mainThreadId)
    (hth : s.threads tid = some thread) :
    finishCode ((Call.block tid).pick 0 thread.state) s = outcome (uthreadBlock tid s) := by
  have hmark : Statement.exec (.markBlocked tid) s =
      .ok (s.setThread tid thread.changeStateToBlocked) := by
    rw [Statement.exec, deref_ok hth]
    rfl
  unfold uthreadBlock
  rw [if_neg hmain, hth]
  dsimp only
  rcases thread.state
  · show finishCode (.markBlocked tid :: [.purgeReady tid, .markBlocked tid, .insertBlocked tid], _)
      s = _
    rw [finishCode_cons_ok hmark, finishCode_cons, Statement.exec,
      deref_ok (threads_setThread s tid _)]
    show (purgeReadyQueue tid thread s.readyQueue >>= _) >>= _ =
      outcome (purgeReadyQueue tid thread s.readyQueue >>= _)
    rcases purgeReadyQueue tid thread s.readyQueue with e | readyQueue
    · rfl
    · have hagain : Statement.exec (.markBlocked tid)
          { s.setThread tid thread.changeStateToBlocked with readyQueue := readyQueue } =
            .ok { s.setThread tid thread.changeStateToBlocked with readyQueue := readyQueue } := by
        rw [Statement.exec, deref_ok (x := thread.changeStateToBlocked) (update_self ..)]
        simp only [State.setThread, update_idem]
        rfl
      show finishCode (.markBlocked tid :: [.insertBlocked tid], _)
        { s.setThread tid thread.changeStateToBlocked with readyQueue := readyQueue } = _
      rw [finishCode_cons_ok hagain]
      rfl
  · rfl
  · show finishCode (.markBlocked tid :: .insertBlocked tid :: .cancel ::
      [.setFlag true, .clearRunning, .countQuantum], .wakeLoop) s = _
    rw [finishCode_cons_ok hmark, finishCode_cons_ok rfl, finishCode_cons_ok (exec_cancel _),
      setTimerThreads_cancel]
    exact finishCode_decision .switched _

/-- `uthread_resume` after the test of the state. -/
theorem finish_resume_branch {tid : ℤ} {thread : Thread} (hth : s.threads tid = some thread) :
    finishCode ((Call.resume tid).pick 0 thread.state) s = outcome (uthreadResume tid s) := by
  unfold uthreadResume
  rw [hth]
  dsimp only
  rcases hstate : thread.state
  · rfl
  · show finishCode (.eraseBlocked tid :: [.markReady tid, .requeue tid], _) s = _
    rw [finishCode_cons, if_pos rfl]
    show (eraseKey tid s.blocked >>= _) >>= _ = outcome (eraseKey tid s.blocked >>= _)
    rcases eraseKey tid s.blocked with e | blocked
    · rfl
    · show finishCode (.markReady tid :: [.requeue tid], _) { s with blocked := blocked } = _
      have hmark : Statement.exec (.markReady tid) { s with blocked := blocked } =
          .ok ({ s with blocked := blocked }.setThread tid thread.changeStateToReady) := by
        show deref tid s >>= _ = _
        rw [deref_ok hth]
        rfl
      rw [finishCode_cons_ok hmark, finishCode_cons, Statement.exec,
        deref_ok (threads_setThread ..)]
      rfl
  · rfl

/-- `uthread_sleep` after `block_signals`. -/
theorem finish_sleep (numQuantums : ℤ) (s : State) :
    (Point.inspect (.sleep numQuantums)).finish s = outcome (uthreadSleep numQuantums s) := by
  show Call.check s (.sleep numQuantums) >>= _ = _
  rw [Call.check, uthreadSleep]
  by_cases hmain : s.runningThread = mainThreadId
  · rw [if_pos hmain, if_pos hmain]
    rfl
  · rw [if_neg hmain, if_neg hmain]
    show finishCode (.setSleeping numQuantums :: .insertSleeping :: .markSelfReady ::
      .clearRunning :: .cancel :: .setFlag true :: [.countQuantum], .wakeLoop) s = _
    rcases hth : s.threads s.runningThread with _ | thread
    · rw [finishCode_cons, Statement.exec, threadsAt, hth]
      rfl
    · have hset : Statement.exec (.setSleeping numQuantums) s =
          .ok (s.setThread s.runningThread (thread.setSleeping s.quantum numQuantums)) := by
        rw [Statement.exec, threadsAt_ok hth]
        rfl
      have hinsert : Statement.exec .insertSleeping
          (s.setThread s.runningThread (thread.setSleeping s.quantum numQuantums)) =
            .ok { s.setThread s.runningThread (thread.setSleeping s.quantum numQuantums) with
              sleeping := s.sleeping.insert s.runningThread } := by
        rw [Statement.exec, State.setThread_runningThread, threadsAt_ok (threads_setThread ..)]
        rfl
      have hmark : Statement.exec .markSelfReady
          { s.setThread s.runningThread (thread.setSleeping s.quantum numQuantums) with
            sleeping := s.sleeping.insert s.runningThread } =
              .ok { s.setThread s.runningThread
                  (thread.setSleeping s.quantum numQuantums).changeStateToReady with
                sleeping := s.sleeping.insert s.runningThread } := by
        rw [Statement.exec,
          threadsAt_ok (x := thread.setSleeping s.quantum numQuantums) (update_self ..)]
        simp only [State.setThread, update_idem]
        rfl
      rw [finishCode_cons_ok hset, finishCode_cons_ok hinsert, finishCode_cons_ok hmark,
        finishCode_cons_ok rfl, finishCode_cons_ok (exec_cancel _), threadsAt_ok hth]
      simp only [setTimerThreads_cancel]
      exact finishCode_decision .switched _

/-- **A whole call.** What is left of a call after `block_signals` is what the call of `Library`
does. -/
theorem finish_inspect (c : Call) (s : State) :
    (Point.inspect c).finish s = outcome (exec c.op s) := by
  rcases c with entryPoint | tid | tid | tid | numQuantums
  · exact finish_spawn entryPoint s
  · show Call.check s (.terminate tid) >>= _ = outcome (uthreadTerminate tid s)
    rw [Call.check]
    by_cases hmain : tid = mainThreadId
    · rw [if_pos hmain, uthreadTerminate, if_pos hmain]
      rfl
    · rw [if_neg hmain]
      rcases hth : s.threads tid with _ | thread
      · rw [uthreadTerminate, if_neg hmain, hth]
        rfl
      · rw [← finish_terminate_branch hmain hth]
        show deref tid s >>= _ = _
        rw [deref_ok hth]
        rfl
  · show Call.check s (.block tid) >>= _ = outcome (uthreadBlock tid s)
    rw [Call.check]
    by_cases hmain : tid = mainThreadId
    · rw [if_pos hmain, uthreadBlock, if_pos hmain]
      rfl
    · rw [if_neg hmain]
      rcases hth : s.threads tid with _ | thread
      · rw [uthreadBlock, if_neg hmain, hth]
        rfl
      · rw [← finish_block_branch hmain hth]
        show deref tid s >>= _ = _
        rw [deref_ok hth]
        rfl
  · show Call.check s (.resume tid) >>= _ = outcome (uthreadResume tid s)
    rw [Call.check]
    rcases hth : s.threads tid with _ | thread
    · rw [uthreadResume, hth]
      rfl
    · rw [← finish_resume_branch hth]
      show deref tid s >>= _ = _
      rw [deref_ok hth]
      rfl
  · exact finish_sleep numQuantums s

/-! ## Critical sections -/

/-- Between `block_signals` and the end of the critical section. -/
def Point.critical : Point → Bool
  | .inspect _ | .test _ _ | .body _ _ => true
  | .user | .query _ _ | .start _ | .block _ | .resumed | .jump _ | .ret _ _ => false

/-- After `block_signals` and before the call returns or jumps. -/
def Point.entered : Point → Bool
  | .inspect _ | .test _ _ | .body _ _ | .jump _ => true
  | .user | .query _ _ | .start _ | .block _ | .resumed | .ret _ _ => false

/-- Where a call looks at the state of a thread. -/
def Point.observes : Point → Bool
  | .inspect _ | .test _ _ => true
  | .body _ _ | .user | .query _ _ | .start _ | .block _ | .resumed | .jump _ | .ret _ _ => false

/-- The processor is in a critical section. -/
def Control.critical : Control → Bool
  | .at p => p.critical
  | .scheduler _ _ => false

/-- The processor is in a call, after its `block_signals`. -/
def Control.entered : Control → Bool
  | .at p => p.entered
  | .scheduler _ _ => false

/-- The calls take for granted that a tick does not find `SIGALRM`, the one signal that
`block_signals` blocks, blocked in a call that has executed its `block_signals`. Nothing makes it
true; it is the guard of the runs in which the calls can be followed. -/
def Honoured (s : System) (a : Act) : Prop :=
  ¬ (a = .tick ∧ s.control.entered = true ∧ s.mask.alrm = true)

instance (s : System) (a : Act) : Decidable (Honoured s a) := inferInstanceAs (Decidable (¬ _))

/-- Outside a critical section nothing is left. -/
theorem finish_of_calm {p : Point} (hp : p.critical = false) (s : State) : p.finish s = .ok s := by
  cases p with
  | inspect _ => cases hp
  | test _ _ => cases hp
  | body _ _ => cases hp
  | user => rfl
  | query _ _ => rfl
  | start _ => rfl
  | block _ => rfl
  | resumed => rfl
  | jump _ => rfl
  | ret _ _ => rfl

/-! ## One statement -/

section Step

variable {n : ℕ} {p p' : Point}

/-- The first checks lead to where the rest of the call is decided. -/
theorem check_finish {c : Call} {g : State} (h : c.check g = .ok p) :
    (Point.inspect c).finish g = p.finish g ∧ p.entered = p.critical := by
  have hp : p.finish g = p.settle g ∧ p.entered = p.critical := by
    unfold Call.check at h
    split at h
    · split at h
      · cases h
        exact ⟨rfl, rfl⟩
      · split_ifs at h <;> cases h <;> exact ⟨rfl, rfl⟩
    all_goals split_ifs at h <;> cases h <;> exact ⟨rfl, rfl⟩
  refine ⟨?_, hp.2⟩
  show c.check g >>= _ = _
  rw [h, hp.1]
  rfl

/-- A test leads to where the rest of the call is decided. -/
theorem decide_finish {c : Call} {k : ℕ} {g : State} (h : c.decide k g = .ok p) :
    (Point.test c k).finish g = p.finish g ∧ p.entered = p.critical := by
  show (deref c.target g >>= _) = _ ∧ _
  unfold Call.decide at h
  rcases hth : deref c.target g with e | thread
  · rw [hth] at h
    cases h
  · rw [hth] at h
    dsimp only [Bind.bind, Except.bind, pure, Except.pure] at h
    show finishCode (c.pick k thread.state) g = p.finish g ∧ _
    unfold Call.pick
    rcases hk : c.branches[k]? with _ | ⟨state, code⟩
    · rw [hk] at h
      cases h
      have hlen : c.branches.length ≤ k := List.getElem?_eq_none_iff.mp hk
      rw [List.drop_eq_nil_of_le hlen]
      exact ⟨rfl, rfl⟩
    · rw [hk] at h
      obtain ⟨hlt, hget⟩ := List.getElem?_eq_some_iff.mp hk
      rw [List.drop_eq_getElem_cons hlt, hget, List.find?_cons]
      by_cases heq : thread.state = state
      · simp only [heq, if_true] at h
        cases h
        simp only [heq, decide_true, Option.elim_some]
        exact ⟨rfl, rfl⟩
      · simp only [heq, if_false] at h
        cases h
        have hne : decide (state = thread.state) = false := decide_eq_false (Ne.symm heq)
        simp only [hne]
        refine ⟨?_, rfl⟩
        show _ = deref c.target g >>= _
        rw [hth]
        rfl

/-- What follows a sequence of statements is what is left of it. -/
theorem follow_finish {tail : Tail} {g : State} (h : tail.follow g = .ok p) :
    (Point.body [] tail).finish g = p.finish g ∧ p.observes = false ∧
      (p.entered = true → (p.critical = true ↔ tail.unblocks = false)) := by
  show tail.finish g = _ ∧ _
  unfold Tail.follow at h
  split at h
  · cases h
    exact ⟨rfl, rfl, fun _ => by simp [Point.critical, Tail.unblocks]⟩
  · split at h
    · cases h
    · next hq =>
      cases h
      refine ⟨?_, rfl, fun _ => by simp [Point.critical, Tail.unblocks]⟩
      show finishDispatch g = _
      rw [finishDispatch, hq]
      rfl
  · next next =>
    obtain ⟨thread, hth, h⟩ := bind_ok.mp h
    cases h
    refine ⟨?_, rfl, fun _ => by simp [Point.critical, Tail.unblocks]⟩
    show finishRun next g = _
    rw [finishRun, hth]
    rfl
  · cases h
    refine ⟨?_, rfl, fun _ => by simp [Point.critical, Tail.unblocks]⟩
    show runAll _ g = runAll _ g >>= _
    rcases runAll (armStatements g.setTimer) g <;> rfl
  · cases h
    exact ⟨rfl, rfl, fun _ => by simp [Point.critical, Tail.unblocks]⟩
  · cases h
    exact ⟨rfl, rfl, nofun⟩
  · cases h
    exact ⟨rfl, rfl, nofun⟩

/-! ## One statement of the machine -/

/-- A saved context does not lie in a critical section. -/
def Context.Calm : Context → Prop
  | .handler p m => p.critical = false ∧ (p.entered = true → m.alrm = false)
  | .dead | .entry | .blocking _ | .sleeping _ => True

/-- No thread waits in a critical section. -/
def Calm (env : ℤ → Context) : Prop := ∀ id, (env id).Calm

theorem Calm.update {env : ℤ → Context} (h : Calm env) (id : ℤ) {c : Context} (hc : c.Calm) :
    Calm (update env id c) := by
  intro i
  by_cases hi : i = id
  · rw [hi, update_self]
    exact hc
  · rw [update_of_ne hi]
    exact h i

theorem Calm.saveEnv {env env' : ℤ → Context} (h : Calm env) {id : ℤ} {c : Context} (hc : c.Calm)
    (hsave : saveEnv n id c env = some env') : Calm env' := by
  unfold CoreOS.Uthreads.saveEnv at hsave
  split_ifs at hsave
  cases hsave
  exact h.update id hc

section Effect

variable (st : Statement) {s : System}

/-- A statement saves at most the start of a new thread. -/
theorem effect_env (h : Calm s.env) : Calm (st.effect s).env := by
  cases st with
  | construct id => exact h.update id trivial
  | _ => exact h

end Effect

/-- A step leaves the processor at `p'`, with the same rest of the call as at `p`. -/
structure Continues (s s' : System) (p p' : Point) : Prop where
  control : s'.control = .at p'
  rest : p.finish s.globals = p'.finish s'.globals
  /-- The globals are as the thread at `p` saw them, if it looks at them again. -/
  observing : p'.observes = true → p.observes = true ∧ s'.globals = s.globals
  masked : p'.entered = true → s'.mask.alrm = p'.critical
  contexts : Calm s.env → Calm s'.env

/-- **One statement.** A step in a critical section, where `SIGALRM` is blocked, leaves the rest of
the call as it was. -/
theorem step_critical {s s' : System} (hp : p.critical = true) (hmask : s.mask.alrm = true)
    (h : p.step n s = some s') : ∃ p', Continues s s' p p' := by
  rcases p with _ | ⟨tid, q⟩ | c | c | c | ⟨c, k⟩ | ⟨_ | ⟨st, code⟩, tail⟩ | _ | id | ⟨val, cerr⟩
  · cases hp
  · cases hp
  · cases hp
  · cases hp
  · simp only [Point.step, Option.bind_eq_bind, Option.bind_eq_some_iff] at h
    obtain ⟨p', hp', h⟩ := h
    cases h
    have hcheck := check_finish (toOption_eq_some.mp hp')
    refine ⟨p', rfl, hcheck.1, fun _ => ⟨rfl, rfl⟩, ?_, id⟩
    intro he
    exact hmask.trans (he.symm.trans hcheck.2)
  · simp only [Point.step, Option.bind_eq_bind, Option.bind_eq_some_iff] at h
    obtain ⟨p', hp', h⟩ := h
    cases h
    have hdecide := decide_finish (toOption_eq_some.mp hp')
    refine ⟨p', rfl, hdecide.1, fun _ => ⟨rfl, rfl⟩, ?_, id⟩
    intro he
    exact hmask.trans (he.symm.trans hdecide.2)
  · simp only [Point.step, Option.bind_eq_bind, Option.bind_eq_some_iff] at h
    obtain ⟨p', hp', h⟩ := h
    cases h
    obtain ⟨hrest, hobs, hcrit⟩ := follow_finish (toOption_eq_some.mp hp')
    refine ⟨p', rfl, hrest, ?_, ?_, id⟩
    · intro ho
      rw [hobs] at ho
      cases ho
    · intro he
      show (if tail.unblocks then unblockSignals s.mask else s.mask).alrm = p'.critical
      cases hu : tail.unblocks
      · exact hmask.trans ((hcrit he).mpr hu).symm
      · have hcalm : p'.critical = false := by
          rw [← Bool.not_eq_true, hcrit he, hu]
          exact Bool.true_eq_false.mp
        rw [hcalm]
        exact Bool.and_false _
  · simp only [Point.step, Option.bind_eq_bind, Option.bind_eq_some_iff] at h
    obtain ⟨g, hg, h⟩ := h
    cases h
    refine ⟨.body code tail, ?_, ?_, nofun, ?_, ?_⟩
    · rw [effect_control]
    · rw [effect_globals]
      exact finishCode_cons_ok (toOption_eq_some.mp hg)
    · intro _
      exact effect_mask st hmask
    · intro hc
      exact effect_env st hc
  · cases hp
  · cases hp
  · cases hp

/-- A jump leads out of the critical sections. -/
theorem jumpTo_calm {s s' : System} {id : ℤ} (hc : Calm s.env) (h : jumpTo id s = some s') :
    s'.globals = s.globals ∧ Calm s'.env ∧ ∃ p, s'.control = .at p ∧ p.critical = false ∧
      (p.entered = true → s'.mask.alrm = false) := by
  unfold jumpTo at h
  have hid := hc id
  have hdead : Calm (update s.env id .dead) := hc.update id trivial
  split at h
  · cases h
  · cases h
    exact ⟨rfl, hc, .user, rfl, rfl, nofun⟩
  · next p m heq =>
    cases h
    rw [heq] at hid
    exact ⟨rfl, hdead, p, rfl, hid⟩
  · cases h
    exact ⟨rfl, hdead, .ret 0 "", rfl, rfl, nofun⟩
  · cases h
    exact ⟨rfl, hdead, .resumed, rfl, rfl, nofun⟩

/-- `uthread_get_quantums` changes nothing but the mask. -/
theorem query_step {s s' : System} {tid : ℤ} {q : Query} (h : q.step tid s = some s') :
    s'.globals = s.globals ∧ s'.env = s.env ∧
      ∃ p, s'.control = .at p ∧ p.critical = false ∧ p.entered = false := by
  rcases q with _ | _ | _ | _ | _
  · cases h
    exact ⟨rfl, rfl, _, rfl, rfl, rfl⟩
  · cases h
    exact ⟨rfl, rfl, _, rfl, rfl, rfl⟩
  · cases h
    exact ⟨rfl, rfl, _, rfl, rfl, rfl⟩
  · cases h
    exact ⟨rfl, rfl, _, rfl, rfl, rfl⟩
  · obtain ⟨-, h⟩ := Option.ite_none_right_eq_some.mp h
    obtain ⟨thread, -, h⟩ := Option.bind_eq_some_iff.mp h
    cases h
    exact ⟨rfl, rfl, _, rfl, rfl, rfl⟩

/-- Left alone, `uthread_get_quantums` returns what that of `Library` does. -/
theorem getQuantums_run {q : ℤ} {s : System} {tid val : ℤ} {cerr : String}
    (hs : s.control = .at .user)
    (h : uthreadGetQuantums tid s.globals = .ok (.returns val cerr, s.globals)) :
    ∃ k s', (preemptive n q).run (.getQuantums tid :: List.replicate k .step) s = some s' ∧
      s'.control = .at (.ret val cerr) ∧ s'.globals = s.globals := by
  unfold uthreadGetQuantums at h
  rcases hth : s.globals.threads tid with _ | thread
  · rw [hth] at h
    cases h
    refine ⟨3, ?_⟩
    simp only [List.replicate, Machine.run, preemptive, System.act, hs, Point.step, Query.step,
      Option.bind_some, hth, Option.isNone_none, if_true]
    exact ⟨_, rfl, rfl, rfl⟩
  · rw [hth] at h
    cases h
    refine ⟨4, ?_⟩
    simp [List.replicate, Machine.run, preemptive, System.act, hs, Point.step, Query.step,
      hth, deref_ok, Except.toOption]

/-! ## The simulation -/

/-- The processor follows the library: its globals are those of the library, and in a critical
section the rest of the call leads where the call of the library does. -/
structure Follows (s : System) (t : State) : Prop where
  calm : s.control.critical = false → s.globals = t
  rest : ∀ p, s.control = .at p → p.critical = true →
    ∃ c : Call, p.finish s.globals = outcome (exec c.op t)
  observing : ∀ p, s.control = .at p → p.observes = true → s.globals = t
  masked : s.control.entered = true → s.mask.alrm = s.control.critical
  contexts : Calm s.env
  interrupted : ∀ p m, s.control = .scheduler p m →
    (Context.handler p m).Calm ∧ s.globals.TimerArmed

/-- Outside the critical sections there is nothing to follow but the globals. -/
theorem Follows.of_calm {s : System} {p : Point} (hcontrol : s.control = .at p)
    (hp : p.critical = false) (hmask : p.entered = true → s.mask.alrm = false)
    (hc : Calm s.env) : Follows s s.globals where
  calm _ := rfl
  rest p' hp' hcrit := by
    rw [hcontrol] at hp'
    cases hp'
    rw [hp] at hcrit
    cases hcrit
  observing _ _ _ := rfl
  masked he := by
    rw [hcontrol] at he ⊢
    exact (hmask he).trans hp.symm
  contexts := hc
  interrupted p' m h := by
    rw [hcontrol] at h
    cases h

variable {q : ℤ}

/-- What is left of a call when it leaves its critical section is nothing, so the library has taken
the step. -/
theorem library_step_of_outcome {c : Call} {t g : State} (h : outcome (exec c.op t) = .ok g) :
    (library n q).step c.op t = some g := by
  have hop : c.op ≠ .tick := by rcases c <;> nofun
  show (if c.op = .tick ∧ ¬ t.TimerArmed then none else (exec c.op t).toOption.map Prod.snd) = _
  rw [if_neg fun ht => hop ht.1]
  rcases he : exec c.op t with e | r
  · rw [he] at h
    cases h
  · rw [he] at h
    cases h
    rfl

section Simulate

variable {s s' : System} {t : State}

/-- A step in a critical section: the library waits until the last one, and then takes the whole
call. -/
theorem Follows.step_critical (hf : Follows s t) {p : Point} (hs : s.control = .at p)
    (hp : p.critical = true) (h : p.step n s = some s') :
    ∃ ops t', (library n q).run ops t = some t' ∧ Follows s' t' := by
  have hmask : s.mask.alrm = true := by
    have hent : s.control.entered = true := by
      rw [hs]
      cases p with
      | inspect _ => rfl
      | test _ _ => rfl
      | body _ _ => rfl
      | _ => cases hp
    rw [hf.masked hent, hs]
    exact hp
  obtain ⟨p', hcont⟩ := CoreOS.Uthreads.step_critical hp hmask h
  obtain ⟨c, hrest⟩ := hf.rest p hs hp
  rw [hcont.rest] at hrest
  rcases hp' : p'.critical with _ | _
  · -- The critical section is over.
    rw [finish_of_calm hp'] at hrest
    refine ⟨[c.op], s'.globals, ?_, ?_⟩
    · exact (Machine.run_singleton _).mpr (library_step_of_outcome hrest.symm)
    · exact .of_calm hcont.control hp' (fun he => (hcont.masked he).trans hp')
        (hcont.contexts hf.contexts)
  · refine ⟨[], t, rfl, ?_, ?_, ?_, ?_, hcont.contexts hf.contexts, ?_⟩
    · intro hcrit
      rw [hcont.control] at hcrit
      exact absurd hp' (Bool.eq_false_iff.mp hcrit)
    · intro p₁ hp₁ _
      rw [hcont.control] at hp₁
      cases hp₁
      exact ⟨c, hrest⟩
    · intro p₁ hp₁ hobs
      rw [hcont.control] at hp₁
      cases hp₁
      obtain ⟨hobs', heq⟩ := hcont.observing hobs
      rw [heq]
      exact hf.observing p hs hobs'
    · intro he
      rw [hcont.control] at he ⊢
      exact hcont.masked he
    · intro p₁ m h₁
      rw [hcont.control] at h₁
      cases h₁

/-- A step outside the critical sections: the library waits. -/
theorem Follows.step_calm (hf : Follows s t) {p : Point} (hs : s.control = .at p)
    (hp : p.critical = false) (h : p.step n s = some s') : Follows s' t := by
  have ht : s.globals = t := hf.calm (by rw [hs]; exact hp)
  subst ht
  have hcalm := hf.contexts
  rcases p with _ | ⟨tid, q⟩ | c | c | c | ⟨c, k⟩ | ⟨code, tail⟩ | _ | id | ⟨val, cerr⟩
  · cases h
  · obtain ⟨hg, henv, p', hp', hcrit, hent⟩ := query_step h
    rw [← hg]
    exact .of_calm hp' hcrit (fun he => absurd he (by rw [hent]; nofun)) (henv ▸ hcalm)
  · simp only [Point.step, Option.bind_eq_bind, Option.bind_eq_some_iff] at h
    obtain ⟨env, henv, h⟩ := h
    cases h
    refine .of_calm (p := .block c) rfl rfl nofun (hcalm.saveEnv ?_ henv)
    split <;> trivial
  · cases h
    refine ⟨nofun, ?_, fun _ _ _ => rfl, fun _ => Bool.or_true _, hcalm, nofun⟩
    intro p' hp' _
    cases hp'
    exact ⟨c, finish_inspect c s.globals⟩
  · cases hp
  · cases hp
  · cases hp
  · cases h
    exact .of_calm (p := .ret 0 "") rfl rfl nofun hcalm
  · obtain ⟨hg, hc', p', hp', hcrit, hmask⟩ := jumpTo_calm hcalm h
    rw [← hg]
    exact .of_calm hp' hcrit hmask hc'
  · cases h
    refine .of_calm (p := .user) rfl rfl nofun ?_
    dsimp only
    split
    · exact hcalm.update _ trivial
    · exact hcalm.update _ trivial
    · exact hcalm

/-- The handler: the library takes the tick. -/
theorem Follows.handle (hf : Follows s t) {p : Point} {m : SignalSet}
    (hs : s.control = .scheduler p m) (h : handle n p m s = some s') :
    ∃ ops t', (library n q).run ops t = some t' ∧ Follows s' t' := by
  have ht : s.globals = t := hf.calm (by rw [hs]; rfl)
  subst ht
  obtain ⟨hcalm, harmed⟩ := hf.interrupted p m hs
  simp only [CoreOS.Uthreads.handle, Option.bind_eq_bind, Option.bind_eq_some_iff] at h
  obtain ⟨env, henv, ⟨r, g⟩, hg, h⟩ := h
  obtain ⟨hglobals, hc', p', hp', hcrit, hmask⟩ := jumpTo_calm (hf.contexts.saveEnv hcalm henv) h
  refine ⟨[.tick], s'.globals, ?_, .of_calm hp' hcrit hmask hc'⟩
  rw [Machine.run_singleton, hglobals]
  show (if Op.tick = .tick ∧ ¬ s.globals.TimerArmed then none
    else (scheduler s.globals).toOption.map Prod.snd) = some g
  rw [if_neg fun h => h.2 harmed, hg]
  rfl

/-- A tick that finds no critical section: the library waits for the handler. -/
theorem Follows.tick (hf : Follows s t) (hok : Honoured s .tick) (h : s.act n .tick = some s') :
    Follows s' t := by
  obtain ⟨p, hs, harmed, rfl⟩ := tick_cases h
  have hent : p.entered = true → s.mask.alrm = p.critical := by
    intro he
    have := hf.masked
    rw [hs] at this
    exact this he
  have hcrit : p.critical = false := by
    by_contra hp
    rw [Bool.not_eq_false] at hp
    have he : p.entered = true := by
      cases p with
      | inspect _ => rfl
      | test _ _ => rfl
      | body _ _ => rfl
      | _ => cases hp
    refine hok ⟨rfl, ?_, (hent he).trans hp⟩
    rw [hs]
    exact he
  refine ⟨fun _ => hf.calm ?_, nofun, nofun, nofun, hf.contexts, ?_⟩
  · rw [hs]
    exact hcrit
  · intro p' m h
    cases h
    exact ⟨⟨hcrit, fun he => (hent he).trans hcrit⟩, harmed⟩

end Simulate

/-- **Simulation.** While the ticks leave the critical sections alone, the library of atomic calls
simulates the library of statements. -/
theorem preemptive_simulation :
    Machine.Simulation (preemptive n q) Honoured (library n q) Follows where
  init := by
    rintro s ⟨g, m, hg, rfl⟩
    exact ⟨g, hg, .of_calm (s := launched g m) rfl rfl nofun fun _ => trivial⟩
  step := by
    intro a s s' t hf hok h
    change s.act n a = some s' at h
    have hact := h
    unfold System.act at h
    split at h
    · next c hs =>
      have ht : s.globals = t := hf.calm (by rw [hs]; rfl)
      cases h
      subst ht
      refine ⟨[], s.globals, rfl, .of_calm (p := c.entry) rfl ?_ ?_ hf.contexts⟩
      · cases c <;> rfl
      · cases c <;> nofun
    · next tid hs =>
      have ht : s.globals = t := hf.calm (by rw [hs]; rfl)
      cases h
      subst ht
      exact ⟨[], s.globals, rfl, .of_calm (p := .query tid .block) rfl rfl nofun hf.contexts⟩
    · next p hs =>
      rcases hp : p.critical with _ | _
      · exact ⟨[], t, rfl, hf.step_calm hs hp h⟩
      · exact hf.step_critical hs hp h
    · next p m hs => exact hf.handle hs h
    · exact ⟨[], t, rfl, hf.tick hok hact⟩
    · cases h

/-! ## Atomicity -/

/-- What the blocking of signals is for. -/
structure Atomic (n : ℕ) (q : ℤ) (s : System) : Prop where
  /-- `scheduler` does not enter a critical section. -/
  scheduler : ∀ p m, s.control = .scheduler p m → p.critical = false
  /-- `running_thread` is a key of `threads` when `scheduler` starts. -/
  running : ∀ p m, s.control = .scheduler p m →
    ∃ thread, s.globals.threads s.globals.runningThread = some thread
  /-- A call that looks at the threads finds every `READY` one in a container. -/
  observed : ∀ p, s.control = .at p → p.observes = true → ∀ tid thread,
    s.globals.threads tid = some thread → thread.state = .ready →
      tid ∈ s.globals.readyQueue ∨ tid ∈ s.globals.sleeping
  /-- No other thread waits in a critical section. -/
  interrupted : ∀ id p m, s.env id = .handler p m → p.critical = false
  /-- Outside the critical sections the globals are those after a run of whole calls and ticks. -/
  calm : s.control.critical = false → (library n q).Reachable s.globals

/-- Under the guard the calls are atomic. -/
theorem Follows.atomic {s : System} {t : State} (hf : Follows s t)
    (ht : (library n q).Reachable t) : Atomic n q s where
  scheduler p m hs := (hf.interrupted p m hs).1.1
  running p m hs := by
    rw [hf.calm (by rw [hs]; rfl)]
    obtain ⟨thread, hthread, -⟩ := (reachable_consistent ht).running
    exact ⟨thread, hthread⟩
  observed p hs hobs tid thread hthread hstate := by
    rw [hf.observing p hs hobs] at hthread ⊢
    have hqueued := ((reachable_consistent ht).agrees tid thread hthread).queued
    by_cases hsleep : tid ∈ t.sleeping
    · exact .inr hsleep
    · exact .inl (hqueued.mpr ⟨hstate, hsleep⟩)
  interrupted id p m hid := by
    have hcalm := hf.contexts id
    rw [hid] at hcalm
    exact hcalm.1
  calm hcrit := by
    rw [hf.calm hcrit]
    exact ht

/-- In a guarded run the library of whole calls can be followed. -/
theorem ReachableBy.follows {s : System} (h : (preemptive n q).ReachableBy Honoured s) :
    ∃ t, (library n q).Reachable t ∧ Follows s t := preemptive_simulation.reachable h

/-- **Preemption.** As long as all ticks are honoured, the calls are atomic. -/
theorem atomic_of_reachable {s : System} (h : (preemptive n q).ReachableBy Honoured s) :
    Atomic n q s := by
  obtain ⟨t, ht, hf⟩ := ReachableBy.follows h
  exact hf.atomic ht

end Step

/-! ### Runs -/

/-- A process with four ids and a quantum of a hundred microseconds, after `uthread_init`. -/
def smallProcess : System := launched (afterInit 4 100) SignalSet.empty

theorem smallProcess_init : (preemptive 4 100).init smallProcess :=
  ⟨_, _, library_init.mpr ⟨rfl, by decide, by decide, by decide⟩, rfl⟩

/-- Steps in a row. -/
def steps (k : ℕ) : List Act := List.replicate k .step

end CoreOS.Uthreads
