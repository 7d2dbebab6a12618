import CoreOS.Uthreads.State

/-!
# The library calls of the user-level threads

`uthread_init`, the five calls that change the thread set, and the timer handler `scheduler`, as
functions from the globals to the globals. A call either yields a state together with what the
caller sees (`Reply`), or stops (`Stop`): the process exits, an exception is not caught, or the
code does something C++ leaves undefined: it erases an end iterator, or dereferences one.

Here a call is one transition: where it gives up the processor, `Reply.switched` says that its
caller is not the thread that runs next. Signal masks, which matter only when a tick can arrive in
the middle of a call, are added in `Preemption`. The process is never out of memory, and the
system calls fail only as `setitimer` documents (`setTimerThreads`).

Reclaiming a `Thread` is `eraseThread`. The source reads `thread->second` once more after
`threads.erase(thread)`, to delete the object. C++ leaves this read of an erased entry undefined as
well; here it is assumed to find what the entry held, so that no `Stop` comes of it.
-/

namespace CoreOS.Uthreads

open CoreOS.Lib

/-! ## Outcomes -/

/-- How a call can end the process. -/
inductive Stop
  /-- `exit(status)` after printing `cerr`. -/
  | exit (status : ℤ) (cerr : String)
  /-- An uncaught `std::out_of_range`. -/
  | outOfRange
  /-- Undefined behaviour, apart from the read of an erased entry of `threads`. -/
  | undefined
  deriving DecidableEq, Repr

/-- What the caller of a library call sees. -/
inductive Reply
  /-- The call returned `val`, having printed `cerr`. -/
  | returns (val : ℤ) (cerr : String)
  /-- Another thread was dispatched. -/
  | switched
  deriving DecidableEq, Repr

/-- The result of a library call. -/
abbrev Result := Except Stop (Reply × State)

/-- `THREAD_ERROR`. -/
def threadError : String := "Thread library error: "

/-- `SYSTEM_ERROR`. -/
def systemError : String := "System error: "

/-- `error_handler` with `check == false`: prints both texts and returns `FAILURE`.
Source: `uthreads.cpp`, `error_handler` -/
def errorHandler (first second : String) : Reply := .returns failure (first ++ second)

/-- `error_handler` with `check == true`: prints both texts and exits with 1.
Source: `uthreads.cpp`, `error_handler` -/
def errorExit (first second : String) : Stop := .exit 1 (first ++ second)

/-! ## Container operations that can go wrong -/

/-- `v.erase(find(v.begin(), v.end(), x))`: undefined where `find` returns the end iterator. -/
def eraseFound (x : ℤ) (l : List ℤ) : Except Stop (List ℤ) :=
  if x ∈ l then .ok (l.erase x) else .error .undefined

/-- `m.erase(m.find(k))`: undefined where `find` returns the end iterator. -/
def eraseKey (k : ℤ) (m : SortedKeys ℤ) : Except Stop (SortedKeys ℤ) :=
  if k ∈ m then .ok (m.erase k) else .error .undefined

/-- `threads.at(tid)`. -/
def threadsAt (tid : ℤ) (s : State) : Except Stop Thread :=
  match s.threads tid with
  | some th => .ok th
  | none => .error .outOfRange

/-! ## Dispatching -/

/-- A `timeval` that `setitimer` accepts. -/
def Timeval.Valid (t : Timeval) : Prop := 0 ≤ t.tvSec ∧ 0 ≤ t.tvUsec ∧ t.tvUsec < 1000000

instance (t : Timeval) : Decidable t.Valid := inferInstanceAs (Decidable (_ ∧ _ ∧ _))

/-- Installs an interval timer; `setitimer` refuses fields outside their range.
Source: `uthreads.cpp`, `set_timer_threads` -/
def setTimerThreads (item : Itimerval) (s : State) : Except Stop State :=
  if item.itInterval.Valid ∧ item.itValue.Valid then .ok { s with timer := item }
  else .error (errorExit systemError "couldn't set / cancel timer.")

/-- Makes a thread the running one and re-arms the timer if it had been cancelled. The jump to the
thread's environment is what the transition ends with.
Source: `uthreads.cpp`, `run_thread` -/
def runThread (tid : ℤ) (thread : Thread) (s : State) : Except Stop State :=
  let s :=
    { s.setThread tid thread.quantumsUse.changeStateToRunning with runningThread := thread.id }
  if s.setTimer then
    (setTimerThreads s.quantum s).map fun s => { s with setTimer := false }
  else .ok s

/-- The loop over `sleeping`: every sleeper loses one quantum, and one that has none left leaves
`sleeping`, for the back of `ready_queue` unless it is blocked.
Source: `uthreads.cpp`, `make_scheduling_decision`, lines 362-375 -/
def wakeSleeping : List ℤ → State → Except Stop State
  | [], s => .ok s
  | tid :: rest, s =>
      match s.threads tid with
      | none => .error .undefined
      | some thread =>
          let thread := thread.reduceSleeping s.quantum
          let s := s.setThread tid thread
          if thread.checkSleeping then
            let s := if thread.state ≠ .blocked then
              { s with readyQueue := s.readyQueue ++ [thread.id] } else s
            wakeSleeping rest { s with sleeping := s.sleeping.erase tid }
          else wakeSleeping rest s

/-- Takes the front of `ready_queue` (erasing from an empty vector is undefined) and runs it.
Source: `uthreads.cpp`, `make_scheduling_decision`, lines 376-381 -/
def dispatchFront (s : State) : Except Stop State :=
  match s.readyQueue with
  | [] => .error .undefined
  | next :: rest => do
      let thread ← threadsAt next s
      runThread next thread { s with readyQueue := rest }

/-- Counts the quantum, wakes sleepers and dispatches the next thread.
Source: `uthreads.cpp`, `make_scheduling_decision` -/
def makeSchedulingDecision (s : State) : Except Stop State := do
  let s ← wakeSleeping s.sleeping.toList { s with countTotalQuantums := s.countTotalQuantums + 1 }
  dispatchFront s

/-- The handler of `SIGVTALRM`: the running thread goes to the back of `ready_queue`.
Source: `uthreads.cpp`, `scheduler` -/
def scheduler (s : State) : Result :=
  match s.threads s.runningThread with
  | none => .error .undefined
  | some thread => do
      let s := { s with readyQueue := s.readyQueue ++ [s.runningThread] }
      let s := s.setThread s.runningThread thread.changeStateToReady
      let s ← makeSchedulingDecision s
      return (.switched, s)

/-! ## The library calls -/

/-- The `itimerval` that `uthread_init` stores in `quantum`. -/
def quantumOf (quantumUsecs : ℤ) : Itimerval := ⟨⟨0, quantumUsecs⟩, ⟨0, quantumUsecs⟩⟩

/-- The ids `0, 1, .., n - 1`, as pushed by `uthread_init`. -/
def initialIds (n : ℕ) : MinHeap ℤ where
  toList := (List.range n).map fun i : ℕ => (i : ℤ)
  sorted := List.pairwise_map.mpr (List.pairwise_lt_range.imp fun h => Int.ofNat_le.mpr h.le)

/-- Initialises the library; `maxThreadNum` is `MAX_THREAD_NUM`.
Source: `uthreads.cpp`, `uthread_init` -/
def uthreadInit (maxThreadNum : ℕ) (quantumUsecs : ℤ) (s : State) : Result :=
  if quantumUsecs ≤ 0 then .ok (errorHandler threadError "time must be positive.", s)
  else
    let s := { s with
      countTotalQuantums := s.countTotalQuantums + 1
      quantum := quantumOf quantumUsecs
      ids := initialIds maxThreadNum }
    match s.ids.top? with
    | none => .error .undefined
    | some id => do
        let s := { s with ids := s.ids.pop, runningThread := id }
        let s := s.setThread id ({ id := id, state := .running } : Thread).quantumsUse
        let s ← setTimerThreads s.quantum s
        return (.returns success "", s)

/-- Creates a thread; `entryPoint` is the address of its function, 0 for `nullptr`.
Source: `uthreads.cpp`, `uthread_spawn` -/
def uthreadSpawn (entryPoint : ℕ) (s : State) : Result :=
  match s.ids.top? with
  | none => .ok (errorHandler threadError "number of threads has exceed the limit.", s)
  | some id =>
      if entryPoint = 0 then .ok (errorHandler threadError "entry point can't be null.", s)
      else
        let s := { s with ids := s.ids.pop }
        -- `map::insert` leaves an entry that is already there alone
        let s := if (s.threads id).isSome then s else s.setThread id { id := id }
        .ok (.returns id "", { s with readyQueue := s.readyQueue ++ [id] })

/-- `if (!thread->check_sleeping()) sleeping.erase(sleeping.find(tid))`.
Source: `uthreads.cpp`, `uthread_terminate` -/
def purgeSleeping (tid : ℤ) (thread : Thread) (sleeping : SortedKeys ℤ) :
    Except Stop (SortedKeys ℤ) :=
  if !thread.checkSleeping then eraseKey tid sleeping else .ok sleeping

/-- `if (thread->check_sleeping()) ready_queue.erase(find(.., tid))`.
Source: `uthreads.cpp`, `uthread_block` -/
def purgeReadyQueue (tid : ℤ) (thread : Thread) (readyQueue : List ℤ) : Except Stop (List ℤ) :=
  if thread.checkSleeping then eraseFound tid readyQueue else .ok readyQueue

/-- The end of `uthread_terminate`: the thread leaves `threads` and its id is free again. -/
def releaseThread (tid : ℤ) (s : State) : State :=
  let s := s.eraseThread tid
  { s with ids := s.ids.push tid }

/-- Terminates a thread.
Source: `uthreads.cpp`, `uthread_terminate` -/
def uthreadTerminate (tid : ℤ) (s : State) : Result :=
  if tid = mainThreadId then .error (.exit 0 "")
  else
    match s.threads tid with
    | none => .ok (errorHandler threadError "the thread dose not exist.", s)
    | some thread =>
        match thread.state with
        | .ready => do
            let readyQueue ← eraseFound tid s.readyQueue
            let sleeping ← purgeSleeping tid thread s.sleeping
            let s := { s with readyQueue := readyQueue, sleeping := sleeping }
            return (.returns success "", releaseThread tid s)
        | .running => do
            let s ← setTimerThreads cancelTimer s
            let s := { s with setTimer := true, runningThread := noThread }
            let s ← makeSchedulingDecision (releaseThread tid s)
            return (.switched, s)
        | .blocked => do
            let blocked ← eraseKey tid s.blocked
            let sleeping ← purgeSleeping tid thread s.sleeping
            let s := { s with blocked := blocked, sleeping := sleeping }
            return (.returns success "", releaseThread tid s)

/-- Blocks a thread.
Source: `uthreads.cpp`, `uthread_block` -/
def uthreadBlock (tid : ℤ) (s : State) : Result :=
  if tid = mainThreadId then .ok (errorHandler threadError "main thread can't be blocked.", s)
  else
    match s.threads tid with
    | none => .ok (errorHandler threadError "the thread dose not exist.", s)
    | some thread =>
        match thread.state with
        | .blocked => .ok (.returns success "", s)
        | .ready => do
            let s := s.setThread tid thread.changeStateToBlocked
            let readyQueue ← purgeReadyQueue tid thread s.readyQueue
            return (.returns success "",
              { s with readyQueue := readyQueue, blocked := s.blocked.insert tid })
        | .running => do
            let s := s.setThread tid thread.changeStateToBlocked
            let s := { s with blocked := s.blocked.insert tid }
            let s ← setTimerThreads cancelTimer s
            let s := { s with setTimer := true, runningThread := noThread }
            let s ← makeSchedulingDecision s
            return (.switched, s)

/-- Resumes a blocked thread.
Source: `uthreads.cpp`, `uthread_resume` -/
def uthreadResume (tid : ℤ) (s : State) : Result :=
  match s.threads tid with
  | none => .ok (errorHandler threadError "the thread dose not exist.", s)
  | some thread =>
      if thread.state = .blocked then do
        let blocked ← eraseKey tid s.blocked
        let s := { s with blocked := blocked }.setThread tid thread.changeStateToReady
        let s := if thread.checkSleeping then
          { s with readyQueue := s.readyQueue ++ [thread.id] } else s
        return (.returns success "", s)
      else .ok (.returns success "", s)

/-- Puts the running thread to sleep.
Source: `uthreads.cpp`, `uthread_sleep` -/
def uthreadSleep (numQuantums : ℤ) (s : State) : Result :=
  if s.runningThread = mainThreadId then
    .ok (errorHandler threadError "main thread can't enter sleep mode.", s)
  else do
    let thread ← threadsAt s.runningThread s
    let s := s.setThread s.runningThread
      (thread.setSleeping s.quantum numQuantums).changeStateToReady
    let s := { s with sleeping := s.sleeping.insert s.runningThread, runningThread := noThread }
    let s ← setTimerThreads cancelTimer s
    let s ← makeSchedulingDecision { s with setTimer := true }
    return (.switched, s)

/-- The total number of quanta. Source: `uthreads.cpp`, `uthread_get_total_quantums` -/
def uthreadGetTotalQuantums (s : State) : ℤ := s.countTotalQuantums

/-- The number of quanta of a thread. Source: `uthreads.cpp`, `uthread_get_quantums` -/
def uthreadGetQuantums (tid : ℤ) (s : State) : Result :=
  match s.threads tid with
  | none => .ok (errorHandler threadError "the thread dose not exist.", s)
  | some thread => .ok (.returns thread.timesUsedInQuantums "", s)

/-! ## The library as a machine -/

/-- What can happen while a user thread runs: one of its library calls, or a timer tick. -/
inductive Op
  | spawn (entryPoint : ℕ)
  | terminate (tid : ℤ)
  | block (tid : ℤ)
  | resume (tid : ℤ)
  | sleep (numQuantums : ℤ)
  | tick
  deriving DecidableEq, Repr

/-- Runs one operation. -/
def exec : Op → State → Result
  | .spawn entryPoint => uthreadSpawn entryPoint
  | .terminate tid => uthreadTerminate tid
  | .block tid => uthreadBlock tid
  | .resume tid => uthreadResume tid
  | .sleep numQuantums => uthreadSleep numQuantums
  | .tick => scheduler

/-- The library after `uthread_init quantumUsecs`: every call and every tick is one step. A tick
arrives only while the timer is armed; an operation that stops the process has no successor. -/
def library (maxThreadNum : ℕ) (quantumUsecs : ℤ) : Machine State Op where
  init s := uthreadInit maxThreadNum quantumUsecs State.zero = .ok (.returns success "", s)
  step op s :=
    if op = .tick ∧ ¬ s.TimerArmed then none
    else (exec op s).toOption.map Prod.snd

end CoreOS.Uthreads
