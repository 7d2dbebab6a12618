import CoreOS.Uthreads.Library

/-!
# The library calls step by step

The calls of `ex2/uthreads.cpp` as the sequences of their statements, with the signal mask, so that
a tick can arrive in the middle of one.

* `SignalSet`, `groupOfSignals`: the signal mask, and what `create_signals_group` puts in the group
  that `block_signals` blocks.
* `Statement`: one statement of a call after its `block_signals`; `Tail`: what follows a sequence of
  statements without a branch.
* `Point`: where a thread is; `Context`: what `sigsetjmp` has saved for a thread.
* `preemptive`: the machine. A tick enters the handler while the timer is armed and `SIGVTALRM` is
  not blocked; the handler, during which the kernel blocks `SIGVTALRM`, is one step.

A context is dead once the function that called `sigsetjmp` has returned, and jumping to a dead one
is undefined. A stack is represented by the point the thread is at. The turns of the loop over
`sleeping` are those for the keys at its start.

The `delete thread->second` after `threads.erase(thread)` is part of `Statement.pushId`, and assumed
to read what the erased entry held, which the language leaves undefined; a thread that terminates
itself goes on, up to its last jump, on the stack that this `delete` has freed.
-/

namespace CoreOS.Uthreads

open CoreOS.Lib

/-! ## Signals -/

/-- A set of signals, of the two that the library knows. -/
structure SignalSet where
  /-- `SIGALRM` is in the set. -/
  alrm : Bool
  /-- `SIGVTALRM` is in the set. -/
  vtalrm : Bool
  deriving DecidableEq, Repr

namespace SignalSet

/-- `sigemptyset`. -/
def empty : SignalSet := ⟨false, false⟩

/-- `sigaddset` of `SIGALRM`. -/
def addAlrm (m : SignalSet) : SignalSet := { m with alrm := true }

/-- `sigprocmask(SIG_BLOCK, ..)`. -/
def block (m group : SignalSet) : SignalSet := ⟨m.alrm || group.alrm, m.vtalrm || group.vtalrm⟩

/-- `sigprocmask(SIG_UNBLOCK, ..)`. -/
def unblock (m group : SignalSet) : SignalSet := ⟨m.alrm && !group.alrm, m.vtalrm && !group.vtalrm⟩

end SignalSet

/-- `group_of_signals.sa_mask`. Source: `uthreads.cpp`, `create_signals_group` -/
def groupOfSignals : SignalSet := SignalSet.empty.addAlrm

/-- Source: `uthreads.cpp`, `block_signals` -/
def blockSignals (m : SignalSet) : SignalSet := m.block groupOfSignals

/-- Source: `uthreads.cpp`, `unblock_signals` -/
def unblockSignals (m : SignalSet) : SignalSet := m.unblock groupOfSignals

/-- `block_signals` leaves `SIGVTALRM` as it is. -/
theorem blockSignals_vtalrm (m : SignalSet) : (blockSignals m).vtalrm = m.vtalrm := Bool.or_false _

/-- So does `unblock_signals`. -/
theorem unblockSignals_vtalrm (m : SignalSet) : (unblockSignals m).vtalrm = m.vtalrm :=
  Bool.and_true _

/-! ## Statements -/

/-- The library calls that change the globals. -/
inductive Call
  | spawn (entryPoint : ℕ)
  | terminate (tid : ℤ)
  | block (tid : ℤ)
  | resume (tid : ℤ)
  | sleep (numQuantums : ℤ)
  deriving DecidableEq, Repr

/-- The call as an operation of the library. -/
def Call.op : Call → Op
  | .spawn entryPoint => .spawn entryPoint
  | .terminate tid => .terminate tid
  | .block tid => .block tid
  | .resume tid => .resume tid
  | .sleep numQuantums => .sleep numQuantums

/-- A statement after `block_signals`. `tid` stands for the `Thread*` or the iterator that the call
holds. -/
inductive Statement
  /-- `ids.pop()` -/
  | popId
  /-- `new Thread(id, entry_point)`, which prepares `env[id]` -/
  | construct (id : ℤ)
  /-- `threads.insert({id, thread})` -/
  | insertThread (id : ℤ)
  /-- `ready_queue.push_back(id)` -/
  | pushReady (id : ℤ)
  /-- `ready_queue.erase(find(..))` -/
  | eraseReady (tid : ℤ)
  /-- `if (thread->check_sleeping()) ready_queue.erase(find(..))` -/
  | purgeReady (tid : ℤ)
  /-- `if (!thread->check_sleeping()) sleeping.erase(sleeping.find(tid))` -/
  | purgeSleeping (tid : ℤ)
  /-- `if (thread->check_sleeping()) ready_queue.push_back(thread->get_thread_id())` -/
  | requeue (tid : ℤ)
  /-- `blocked.erase(blocked.find(tid))` -/
  | eraseBlocked (tid : ℤ)
  /-- `blocked.insert({tid, thread})` -/
  | insertBlocked (tid : ℤ)
  /-- `threads.erase(thread)` -/
  | eraseThread (tid : ℤ)
  /-- `ids.push(tid)`, and the `delete` after it -/
  | pushId (tid : ℤ)
  /-- `thread->change_state_to_blocked()` -/
  | markBlocked (tid : ℤ)
  /-- `thread->change_state_to_ready()` -/
  | markReady (tid : ℤ)
  /-- `thread->change_state_to_running()` -/
  | markRunning (tid : ℤ)
  /-- `threads.at(running_thread)->set_sleeping(num_quantums)` -/
  | setSleeping (numQuantums : ℤ)
  /-- `sleeping.insert({running_thread, threads.at(running_thread)})` -/
  | insertSleeping
  /-- `threads.at(running_thread)->change_state_to_ready()` -/
  | markSelfReady
  /-- `running_thread = NO_THREAD` -/
  | clearRunning
  /-- `set_timer_threads(cancel_timer)` -/
  | cancel
  /-- `set_timer = b` -/
  | setFlag (b : Bool)
  /-- `count_total_quantums++` -/
  | countQuantum
  /-- One turn of the loop over `sleeping` -/
  | wake (tid : ℤ)
  /-- `ready_queue.erase(ready_queue.begin())` -/
  | eraseFront
  /-- `block_signals()` of `run_thread` -/
  | block
  /-- `thread->quantums_use()` -/
  | useQuantum (tid : ℤ)
  /-- `running_thread = thread->get_thread_id()` -/
  | setRunning (tid : ℤ)
  /-- `set_timer_threads(quantum)` -/
  | installQuantum
  deriving DecidableEq, Repr

/-- The object behind a `Thread*` or an iterator; undefined if it is gone. -/
def deref (tid : ℤ) (s : State) : Except Stop Thread :=
  match s.threads tid with
  | some thread => .ok thread
  | none => .error .undefined

/-- What a statement does to the globals. -/
def Statement.exec : Statement → State → Except Stop State
  | .popId, s => .ok { s with ids := s.ids.pop }
  | .construct _, s => .ok s
  | .insertThread id, s => .ok (if (s.threads id).isSome then s else s.setThread id { id := id })
  | .pushReady id, s => .ok { s with readyQueue := s.readyQueue ++ [id] }
  | .eraseReady tid, s => do
      let readyQueue ← eraseFound tid s.readyQueue
      return { s with readyQueue := readyQueue }
  | .purgeReady tid, s => do
      let thread ← deref tid s
      let readyQueue ← purgeReadyQueue tid thread s.readyQueue
      return { s with readyQueue := readyQueue }
  | .purgeSleeping tid, s => do
      let thread ← deref tid s
      let sleeping ← CoreOS.Uthreads.purgeSleeping tid thread s.sleeping
      return { s with sleeping := sleeping }
  | .requeue tid, s => do
      let thread ← deref tid s
      return if thread.checkSleeping then { s with readyQueue := s.readyQueue ++ [thread.id] }
        else s
  | .eraseBlocked tid, s => do
      let blocked ← eraseKey tid s.blocked
      return { s with blocked := blocked }
  | .insertBlocked tid, s => .ok { s with blocked := s.blocked.insert tid }
  | .eraseThread tid, s => .ok (s.eraseThread tid)
  | .pushId tid, s => .ok { s with ids := s.ids.push tid }
  | .markBlocked tid, s => do
      let thread ← deref tid s
      return s.setThread tid thread.changeStateToBlocked
  | .markReady tid, s => do
      let thread ← deref tid s
      return s.setThread tid thread.changeStateToReady
  | .markRunning tid, s => do
      let thread ← deref tid s
      return s.setThread tid thread.changeStateToRunning
  | .setSleeping numQuantums, s => do
      let thread ← threadsAt s.runningThread s
      return s.setThread s.runningThread (thread.setSleeping s.quantum numQuantums)
  | .insertSleeping, s => do
      let _ ← threadsAt s.runningThread s
      return { s with sleeping := s.sleeping.insert s.runningThread }
  | .markSelfReady, s => do
      let thread ← threadsAt s.runningThread s
      return s.setThread s.runningThread thread.changeStateToReady
  | .clearRunning, s => .ok { s with runningThread := noThread }
  | .cancel, s => setTimerThreads cancelTimer s
  | .setFlag b, s => .ok { s with setTimer := b }
  | .countQuantum, s => .ok { s with countTotalQuantums := s.countTotalQuantums + 1 }
  | .wake tid, s => wakeSleeping [tid] s
  | .eraseFront, s => .ok { s with readyQueue := s.readyQueue.tail }
  | .block, s => .ok s
  | .useQuantum tid, s => do
      let thread ← deref tid s
      return s.setThread tid thread.quantumsUse
  | .setRunning tid, s => do
      let thread ← deref tid s
      return { s with runningThread := thread.id }
  | .installQuantum, s => setTimerThreads s.quantum s

/-- What follows a sequence of statements. -/
inductive Tail
  /-- `return`, with the signals still blocked -/
  | leave (val : ℤ) (cerr : String)
  /-- `unblock_signals()` and `return` -/
  | unblock (val : ℤ) (cerr : String)
  /-- The loop over `sleeping` -/
  | wakeLoop
  /-- The choice of the next thread -/
  | dispatch
  /-- `run_thread(threads.at(next))` -/
  | run (next : ℤ)
  /-- `if (set_timer)` of `run_thread`, for the thread with the id `id` -/
  | arm (id : ℤ)
  /-- `unblock_signals()` of `run_thread` -/
  | resume (id : ℤ)
  deriving DecidableEq, Repr

/-- A sequence of statements and what follows it. -/
abbrev Code := List Statement × Tail

/-- Source: `uthreads.cpp`, `run_thread` up to `if (set_timer)` -/
def runStatements (tid : ℤ) : List Statement :=
  [.block, .useQuantum tid, .setRunning tid, .markRunning tid]

/-- Source: `uthreads.cpp`, `run_thread`, `if (set_timer)` -/
def armStatements (setTimer : Bool) : List Statement :=
  if setTimer then [.installQuantum, .setFlag false] else []

/-! ## The calls -/

/-- The thread that a call names. -/
def Call.target : Call → ℤ
  | .terminate tid | .block tid | .resume tid => tid
  | .spawn _ | .sleep _ => noThread

/-- The last statements of `uthread_terminate`. -/
def releaseStatements (tid : ℤ) : List Statement := [.eraseThread tid, .pushId tid]

/-- The branches of a call on the state of the thread it names, in the order of the tests.
Source: `uthreads.cpp`, `uthread_terminate`, `uthread_block`, `uthread_resume` -/
def Call.branches : Call → List (ThreadState × Code)
  | .terminate tid =>
      [(.ready, ([.eraseReady tid, .purgeSleeping tid] ++ releaseStatements tid,
        .unblock success "")),
      (.running, ([.cancel, .setFlag true, .clearRunning] ++ releaseStatements tid ++
        [.countQuantum], .wakeLoop)),
      (.blocked, ([.eraseBlocked tid, .purgeSleeping tid] ++ releaseStatements tid,
        .unblock success ""))]
  | .block tid =>
      [(.blocked, ([], .leave success "")),
      (.ready, ([.markBlocked tid, .purgeReady tid, .markBlocked tid, .insertBlocked tid],
        .unblock success "")),
      (.running, ([.markBlocked tid, .insertBlocked tid, .cancel, .setFlag true, .clearRunning,
        .countQuantum], .wakeLoop))]
  | .resume tid =>
      [(.blocked, ([.eraseBlocked tid, .markReady tid, .requeue tid], .unblock success ""))]
  | .spawn _ | .sleep _ => []

/-- What follows the tests when none of them succeeds. -/
def Call.otherwise : Call → Code
  | .terminate tid => (releaseStatements tid, .unblock success "")
  | .block _ | .resume _ | .spawn _ | .sleep _ => ([], .unblock success "")

/-- The statements of `uthread_get_quantums`. -/
inductive Query
  /-- `block_signals()` -/
  | block
  /-- `threads.find(tid)` -/
  | find
  /-- `unblock_signals()`, having found no thread -/
  | miss
  /-- `unblock_signals()`, holding the `Thread*` to the `k`-th thread with that id -/
  | hit (k : ℕ)
  /-- `thread->get_quantum()` -/
  | read (k : ℕ)
  deriving DecidableEq, Repr

/-- Where a thread is. -/
inductive Point
  /-- In user code. -/
  | user
  /-- In `uthread_get_quantums`. -/
  | query (tid : ℤ) (q : Query)
  /-- At the `sigsetjmp` of `uthread_block` or `uthread_sleep`. -/
  | start (c : Call)
  /-- At `block_signals`. -/
  | block (c : Call)
  /-- After `block_signals`, at the first checks. -/
  | inspect (c : Call)
  /-- At the test number `k` of the state of the thread that the call names. -/
  | test (c : Call) (k : ℕ)
  /-- At a sequence of statements. -/
  | body (code : List Statement) (tail : Tail)
  /-- At `block_signals` of `uthread_sleep`, after `sigsetjmp` returned a second time. -/
  | resumed
  /-- At the `siglongjmp` of `run_thread`. -/
  | jump (id : ℤ)
  /-- At the return of a call. -/
  | ret (val : ℤ) (cerr : String)
  deriving DecidableEq, Repr

/-- Where a call starts. -/
def Call.entry : Call → Point
  | .block tid => .start (.block tid)
  | .sleep numQuantums => .start (.sleep numQuantums)
  | c => .block c

/-- The code for a sequence of statements. -/
def Point.ofCode (c : Code) : Point := .body c.1 c.2

/-- The first checks of a call.
Source: `uthreads.cpp`, `uthread_spawn`, `uthread_terminate`, `uthread_block`, `uthread_resume`,
`uthread_sleep` -/
def Call.check (s : State) : Call → Except Stop Point
  | .spawn entryPoint =>
      match s.ids.top? with
      | none => .ok (.body [] (.leave failure
          (threadError ++ "number of threads has exceed the limit.")))
      | some id =>
          if entryPoint = 0 then
            .ok (.body [] (.leave failure (threadError ++ "entry point can't be null.")))
          else .ok (.body [.popId, .construct id, .insertThread id, .pushReady id] (.unblock id ""))
  | .terminate tid =>
      if tid = mainThreadId then .error (.exit 0 "")
      else if (s.threads tid).isNone then
        .ok (.body [] (.leave failure (threadError ++ "the thread dose not exist.")))
      else .ok (.test (.terminate tid) 0)
  | .block tid =>
      if tid = mainThreadId then
        .ok (.body [] (.leave failure (threadError ++ "main thread can't be blocked.")))
      else if (s.threads tid).isNone then
        .ok (.body [] (.leave failure (threadError ++ "the thread dose not exist.")))
      else .ok (.test (.block tid) 0)
  | .resume tid =>
      if (s.threads tid).isNone then
        .ok (.body [] (.unblock failure (threadError ++ "the thread dose not exist.")))
      else .ok (.test (.resume tid) 0)
  | .sleep numQuantums =>
      if s.runningThread = mainThreadId then
        .ok (.body [] (.unblock failure (threadError ++ "main thread can't enter sleep mode.")))
      else .ok (.body [.setSleeping numQuantums, .insertSleeping, .markSelfReady, .clearRunning,
        .cancel, .setFlag true, .countQuantum] .wakeLoop)

/-- One test of the state of the thread that the call names. -/
def Call.decide (c : Call) (k : ℕ) (s : State) : Except Stop Point := do
  let thread ← deref c.target s
  match c.branches[k]? with
  | some (state, code) => return if thread.state = state then .ofCode code else .test c (k + 1)
  | none => return .ofCode c.otherwise

/-- What follows a sequence of statements, where it stays between `block_signals` and
`unblock_signals`.
Source: `uthreads.cpp`, `make_scheduling_decision`, `run_thread` -/
def Tail.follow (s : State) : Tail → Except Stop Point
  | .wakeLoop => .ok (.body (s.sleeping.toList.map .wake) .dispatch)
  | .dispatch =>
      match s.readyQueue with
      | [] => .error .undefined
      | next :: _ => .ok (.body [.eraseFront] (.run next))
  | .run next => do
      let thread ← threadsAt next s
      return .body (runStatements next) (.arm thread.id)
  | .arm id => .ok (.body (armStatements s.setTimer) (.resume id))
  | .resume id => .ok (.jump id)
  | .leave val cerr | .unblock val cerr => .ok (.ret val cerr)

/-- The tail that unblocks the signals. -/
def Tail.unblocks : Tail → Bool
  | .unblock _ _ | .resume _ => true
  | _ => false

/-! ## The machine -/

/-- What `sigsetjmp` has saved. -/
inductive Context
  /-- The function that called `sigsetjmp` has returned. -/
  | dead
  /-- The start of the entry point, with an empty mask. -/
  | entry
  /-- In `scheduler`, which interrupted a thread at `p` with the mask `m`. -/
  | handler (p : Point) (m : SignalSet)
  /-- In `uthread_block`, with the mask `m`. -/
  | blocking (m : SignalSet)
  /-- In `uthread_sleep`, with the mask `m`. -/
  | sleeping (m : SignalSet)
  deriving DecidableEq, Repr

/-- What the processor executes. -/
inductive Control
  /-- A thread at a point. -/
  | at (p : Point)
  /-- The start of `scheduler`, which interrupted a thread at `p` with the mask `m`. -/
  | scheduler (p : Point) (m : SignalSet)
  deriving DecidableEq, Repr

/-- The globals, with the signal mask, the saved environments and the control. -/
structure System where
  /-- The globals. -/
  globals : State
  /-- The signal mask. -/
  mask : SignalSet
  /-- `env`. -/
  env : ℤ → Context
  /-- How many `Thread`s have been made with each id, which tells the objects apart; the code does
  not keep it. -/
  made : ℤ → ℕ
  /-- The control. -/
  control : Control

/-- `sigsetjmp(env[id], ..)`: undefined outside the array. -/
def saveEnv (n : ℕ) (id : ℤ) (c : Context) (env : ℤ → Context) : Option (ℤ → Context) :=
  if 0 ≤ id ∧ id < n then some (Function.update env id c) else none

/-- `siglongjmp(env[id], RETURN_VAL)`, and the return from the handler if it leads there. -/
def jumpTo (id : ℤ) (s : System) : Option System :=
  match s.env id with
  | .dead => none
  | .entry => some { s with mask := SignalSet.empty, control := .at .user }
  | .handler p m =>
      some { s with mask := m, env := Function.update s.env id .dead, control := .at p }
  | .blocking m =>
      some { s with mask := m, env := Function.update s.env id .dead, control := .at (.ret 0 "") }
  | .sleeping m =>
      some { s with mask := m, env := Function.update s.env id .dead, control := .at .resumed }

/-- What the statement does besides changing the globals. -/
def Statement.effect (st : Statement) (s : System) : System :=
  match st with
  | .construct id => { s with
      env := Function.update s.env id .entry
      made := Function.update s.made id (s.made id + 1) }
  | .block => { s with mask := blockSignals s.mask }
  | _ => s

/-- The `k`-th thread with an id is there no more: no thread has the id, or another one does. -/
def System.Gone (s : System) (tid : ℤ) (k : ℕ) : Prop :=
  s.globals.threads tid = none ∨ s.made tid ≠ k

/-- One statement of `uthread_get_quantums`. Source: `uthreads.cpp`, `uthread_get_quantums` -/
def Query.step (tid : ℤ) (s : System) : Query → Option System
  | .block => some { s with mask := blockSignals s.mask, control := .at (.query tid .find) }
  | .find =>
      let next := if (s.globals.threads tid).isNone then Query.miss else Query.hit (s.made tid)
      some { s with control := .at (.query tid next) }
  | .miss => some { s with
      mask := unblockSignals s.mask
      control := .at (.ret failure (threadError ++ "the thread dose not exist.")) }
  | .hit k => some { s with mask := unblockSignals s.mask, control := .at (.query tid (.read k)) }
  | .read k =>
      -- undefined if the object has been deleted, also when its id is in use again
      if s.made tid = k then do
        let thread ← (deref tid s.globals).toOption
        return { s with control := .at (.ret thread.timesUsedInQuantums "") }
      else none

/-- One step of a thread at a point. -/
def Point.step (n : ℕ) (s : System) : Point → Option System
  | .user => none
  | .query tid q => q.step tid s
  | .start c => do
      let context := match c with
        | .sleep _ => Context.sleeping s.mask
        | _ => Context.blocking s.mask
      let env ← saveEnv n s.globals.runningThread context s.env
      return { s with env, control := .at (.block c) }
  | .block c => some { s with mask := blockSignals s.mask, control := .at (.inspect c) }
  | .inspect c => do
      let p ← (c.check s.globals).toOption
      return { s with control := .at p }
  | .test c k => do
      let p ← (c.decide k s.globals).toOption
      return { s with control := .at p }
  | .body (st :: code) tail => do
      let globals ← (st.exec s.globals).toOption
      return st.effect { s with globals, control := .at (.body code tail) }
  | .body [] tail => do
      let p ← (tail.follow s.globals).toOption
      return { s with
        mask := if tail.unblocks then unblockSignals s.mask else s.mask
        control := .at p }
  | .resumed => some { s with mask := blockSignals s.mask, control := .at (.ret 0 "") }
  | .jump id => jumpTo id s
  | .ret _ _ =>
      let env := match s.env s.globals.runningThread with
        | .blocking _ | .sleeping _ => Function.update s.env s.globals.runningThread .dead
        | _ => s.env
      some { s with env, control := .at .user }

/-- The handler of `SIGVTALRM`, which saves the environment of the thread it interrupted and jumps
to that of the next one.
Source: `uthreads.cpp`, `scheduler` -/
def handle (n : ℕ) (p : Point) (m : SignalSet) (s : System) : Option System := do
  let env ← saveEnv n s.globals.runningThread (.handler p m) s.env
  let (_, globals) ← (scheduler s.globals).toOption
  jumpTo globals.runningThread { s with globals, env }

/-- What can happen. -/
inductive Act
  /-- The user code calls the library. -/
  | call (c : Call)
  /-- The user code calls `uthread_get_quantums`. -/
  | getQuantums (tid : ℤ)
  /-- The next step of the thread, or of the handler. -/
  | step
  /-- A `SIGVTALRM` arrives. -/
  | tick
  deriving DecidableEq, Repr

/-- One step of the processor. -/
def System.act (n : ℕ) (a : Act) (s : System) : Option System :=
  match a, s.control with
  | .call c, .at .user => some { s with control := .at c.entry }
  | .getQuantums tid, .at .user => some { s with control := .at (.query tid .block) }
  | .step, .at p => p.step n s
  | .step, .scheduler p m => handle n p m s
  | .tick, .at p =>
      if s.globals.TimerArmed ∧ s.mask.vtalrm = false then
        some { s with
          mask := { s.mask with vtalrm := true }
          control := .scheduler p s.mask }
      else none
  | _, _ => none

/-- The process after `uthread_init`, in the user code of the main thread. -/
def launched (globals : State) (mask : SignalSet) : System where
  globals := globals
  mask := mask
  env _ := .dead
  made _ := 0
  control := .at .user

/-- The library with ticks between any two statements. -/
def preemptive (maxThreadNum : ℕ) (quantumUsecs : ℤ) : Machine System Act where
  init s := ∃ g m, (library maxThreadNum quantumUsecs).init g ∧ s = launched g m
  step := System.act maxThreadNum

/-! ## What a step can do -/

theorem toOption_eq_some {α : Type} {x : Except Stop α} {a : α} :
    x.toOption = some a ↔ x = .ok a := by
  rcases x with e | b <;> simp [Except.toOption]

section effect

variable (st : Statement) (s : System)

@[simp] theorem effect_globals : (st.effect s).globals = s.globals := by cases st <;> rfl

@[simp] theorem effect_control : (st.effect s).control = s.control := by cases st <;> rfl

theorem effect_vtalrm : (st.effect s).mask.vtalrm = s.mask.vtalrm := by
  cases st with
  | block => exact blockSignals_vtalrm s.mask
  | _ => rfl

variable {s}

/-- No statement unblocks a signal. -/
theorem effect_mask (h : s.mask.alrm = true) : (st.effect s).mask.alrm = true := by
  cases st with
  | block => exact Bool.or_true _
  | _ => exact h

end effect

/-- A jump leaves the globals alone. -/
theorem jumpTo_globals {id : ℤ} {s s' : System} (h : jumpTo id s = some s') :
    s'.globals = s.globals := by
  unfold jumpTo at h
  split at h
  · cases h
  all_goals
    cases h
    rfl

/-- A tick enters the handler. -/
theorem tick_cases {n : ℕ} {s s' : System} (h : s.act n .tick = some s') : ∃ p, s.control = .at p ∧
    s.globals.TimerArmed ∧
    s' = { s with mask := { s.mask with vtalrm := true }, control := .scheduler p s.mask } := by
  rcases hs : s.control with p | ⟨p, m⟩
  · simp only [System.act, hs] at h
    split_ifs at h with harmed
    exact ⟨p, rfl, harmed.1, (Option.some.inj h).symm⟩
  · simp only [System.act, hs] at h
    cases h

end CoreOS.Uthreads
