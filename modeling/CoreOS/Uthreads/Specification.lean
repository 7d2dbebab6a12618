import CoreOS.Lib.Calls
import CoreOS.Lib.RoundRobin
import CoreOS.Uthreads.Library

/-!
# What the library is for

The library as a round-robin scheduler of `Lib/RoundRobin`: which turns the calls and the ticks
give, and what they answer, said without timers, states of threads and containers. `Abstraction`
compares it with the code.

* `Request`: a library call, a tick, or one of the three calls that only ask.
* `Specification.respond n`: what happens and what is answered, with `n` ids.
* `ask`: the same requests on the globals of the code.
-/

namespace CoreOS.Uthreads

open CoreOS.Lib

/-- What a user program can ask of the library, and the ticks in between. -/
inductive Request
  /-- One of the calls that change the thread set, or a tick. -/
  | op (op : Op)
  /-- `uthread_get_tid` -/
  | getTid
  /-- `uthread_get_total_quantums` -/
  | getTotalQuantums
  /-- `uthread_get_quantums` -/
  | getQuantums (tid : ℤ)
  deriving DecidableEq, Repr

/-! ## The code -/

/-- The id of the running thread. Source: `uthreads.cpp`, `uthread_get_tid` -/
def uthreadGetTid (s : State) : ℤ := s.runningThread

/-- A request to the code. -/
def ask : Request → State → Result
  | .op op, s => exec op s
  | .getTid, s => .ok (.returns (uthreadGetTid s) "", s)
  | .getTotalQuantums, s => .ok (.returns (uthreadGetTotalQuantums s) "", s)
  | .getQuantums tid, s => uthreadGetQuantums tid s

/-! ## The scheduler -/

namespace Specification

/-- A round-robin scheduler of threads. -/
abbrev Scheduler := RoundRobin ℤ

/-- The result of a request. -/
abbrev Outcome := Except Stop (Reply × Scheduler)

/-- All ids. -/
def allIds (n : ℕ) : List ℤ := (List.range n).map fun i : ℕ => (i : ℤ)

/-- The smallest id without a thread. -/
def freeId (n : ℕ) (a : Scheduler) : Option ℤ := (allIds n).find? fun t => (a.task t).isNone

/-- There is no such thread. -/
def noThreadError : Reply := errorHandler threadError "the thread dose not exist."

/-- The next turn; nothing is defined where nobody waits. -/
def giveUp (n : ℕ) (a : Scheduler) : Outcome :=
  match a.dispatch (allIds n) with
  | some b => .ok (.switched, b)
  | none => .error .undefined

/-- A new thread gets the smallest free id. -/
def spawn (n entryPoint : ℕ) (a : Scheduler) : Outcome :=
  match freeId n a with
  | none => .ok (errorHandler threadError "number of threads has exceed the limit.", a)
  | some id =>
      if entryPoint = 0 then .ok (errorHandler threadError "entry point can't be null.", a)
      else .ok (.returns id "", a.add id)

/-- A thread goes away; the main thread takes the process with it. Nothing is defined for a thread
that sleeps and is not held. -/
def terminate (n : ℕ) (tid : ℤ) (a : Scheduler) : Outcome :=
  if tid = mainThreadId then .error (.exit 0 "")
  else
    match a.task tid with
    | none => .ok (noThreadError, a)
    | some x =>
        if tid = a.current then giveUp n (a.remove tid)
        else if x.held = false ∧ 0 < x.nap then .error .undefined
        else .ok (.returns success "", a.remove tid)

/-- A thread is held; if it runs, its turn is over. -/
def block (n : ℕ) (tid : ℤ) (a : Scheduler) : Outcome :=
  if tid = mainThreadId then .ok (errorHandler threadError "main thread can't be blocked.", a)
  else
    match a.task tid with
    | none => .ok (noThreadError, a)
    | some x =>
        if x.held then .ok (.returns success "", a)
        else if tid = a.current then giveUp n (a.hold tid x)
        else .ok (.returns success "", a.hold tid x)

/-- A thread that is held is released. -/
def resume (tid : ℤ) (a : Scheduler) : Outcome :=
  match a.task tid with
  | none => .ok (noThreadError, a)
  | some x => .ok (.returns success "", if x.held then a.release tid x else a)

/-- The current thread sleeps, for one turn at least. -/
def sleep (n : ℕ) (numQuantums : ℤ) (a : Scheduler) : Outcome :=
  if a.current = mainThreadId then
    .ok (errorHandler threadError "main thread can't enter sleep mode.", a)
  else
    match a.task a.current with
    | none => .error .outOfRange
    | some x => giveUp n (a.doze a.current x numQuantums.toNat)

/-- A call or a tick. -/
def perform (n : ℕ) : Op → Scheduler → Outcome
  | .spawn entryPoint => spawn n entryPoint
  | .terminate tid => terminate n tid
  | .block tid => block n tid
  | .resume tid => resume tid
  | .sleep numQuantums => sleep n numQuantums
  | .tick => fun a => giveUp n { a with queue := a.queue ++ [a.current] }

/-- A request. -/
def respond (n : ℕ) : Request → Scheduler → Outcome
  | .op op, a => perform n op a
  | .getTid, a => .ok (.returns a.current "", a)
  | .getTotalQuantums, a => .ok (.returns a.total "", a)
  | .getQuantums tid, a =>
      match a.task tid with
      | none => .ok (noThreadError, a)
      | some x => .ok (.returns x.turns "", a)

/-- The main thread has its first turn. -/
def start : Scheduler where
  current := mainThreadId
  queue := []
  task := Function.update (fun _ => none) mainThreadId (some ⟨false, 0, 1⟩)
  total := 1

end Specification

end CoreOS.Uthreads
