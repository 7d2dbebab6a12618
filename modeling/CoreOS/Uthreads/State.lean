import CoreOS.Lib.Containers

/-!
# The data of the user-level thread library

The globals of `ex2/uthreads.cpp` as one record `State`, the class `Thread` as a record with its
methods, and the primitive operations on the containers that the library calls are made of.

* `threads` is a map from ids to threads. `blocked` and `sleeping` hold the same `Thread*` that
  `threads` holds under that key, so only their keys are kept: dereferencing an entry is a look-up
  in `threads`.
* `ready_queue` is a vector (front first); `ids` is a min-heap.
* `timer` is what the last `setitimer` left in the interval timer; a zero `it_value` disarms it.
* The stack, the entry point and the saved registers of a thread, which no decision reads, are left
  out here; where control continues after a switch is the subject of `Preemption`.

Every quantity is an integer: a sleep time is at most `2^31 · 2^31` microseconds in 64-bit fields,
and ids stay below `MAX_THREAD_NUM`. The quantum counters are of type `int` and can overflow; here
they count on, and `IntCounters` treats the overflow.
-/

namespace CoreOS.Uthreads

open CoreOS.Lib

/-! ## Constants -/

/-- `MAIN_THREAD_ID`. -/
def mainThreadId : ℤ := 0

/-- `NO_THREAD`. -/
def noThread : ℤ := -1

/-- `FAILURE`. -/
def failure : ℤ := -1

/-- `SUCCESS`. -/
def success : ℤ := 0

/-! ## Threads -/

/-- The three values of `state_`.
Source: `uthreads.cpp`, `READY_STATE`, `BLOCKED_STATE`, `RUNNING_STATE` -/
inductive ThreadState
  | ready
  | blocked
  | running
  deriving DecidableEq, Repr

/-- A `struct timeval`. -/
structure Timeval where
  /-- Seconds. -/
  tvSec : ℤ
  /-- Microseconds. -/
  tvUsec : ℤ
  deriving DecidableEq, Repr

/-- A `struct itimerval`. -/
structure Itimerval where
  /-- The reload value. -/
  itInterval : Timeval
  /-- The time to the next expiry. -/
  itValue : Timeval
  deriving DecidableEq, Repr

/-- The class `Thread`: what scheduling reads and writes.
Source: `uthreads.cpp`, `class Thread` -/
structure Thread where
  /-- `state_`. -/
  state : ThreadState := .ready
  /-- `id_`. -/
  id : ℤ
  /-- The time left to sleep. -/
  sleep : Timeval := ⟨0, 0⟩
  /-- `times_used_in_quantums`. -/
  timesUsedInQuantums : ℤ := 0
  deriving DecidableEq, Repr

namespace Thread

/-- Increases the number of times the thread ran. Source: `Thread::quantums_use` -/
@[simps] def quantumsUse (th : Thread) : Thread :=
  { th with timesUsedInQuantums := th.timesUsedInQuantums + 1 }

/-- Sets the time to sleep: `numQuantums` times the quantum, seconds and microseconds apart.
Source: `Thread::set_sleeping` -/
@[simps] def setSleeping (quantum : Itimerval) (numQuantums : ℤ) (th : Thread) : Thread :=
  { th with sleep := ⟨numQuantums * quantum.itValue.tvSec, numQuantums * quantum.itValue.tvUsec⟩ }

/-- True when no time to sleep is left (the source's doc comment says the opposite).
Source: `Thread::check_sleeping` -/
def checkSleeping (th : Thread) : Bool := th.sleep.tvSec == 0 && th.sleep.tvUsec == 0

/-- Takes one quantum off the time to sleep, clamping both fields at zero.
Source: `Thread::reduce_sleeping` -/
@[simps] def reduceSleeping (quantum : Itimerval) (th : Thread) : Thread :=
  { th with
    sleep := ⟨max 0 (th.sleep.tvSec - quantum.itValue.tvSec),
      max 0 (th.sleep.tvUsec - quantum.itValue.tvUsec)⟩ }

/-- Source: `Thread::change_state_to_ready` -/
@[simps] def changeStateToReady (th : Thread) : Thread := { th with state := .ready }

/-- Source: `Thread::change_state_to_blocked` -/
@[simps] def changeStateToBlocked (th : Thread) : Thread := { th with state := .blocked }

/-- Source: `Thread::change_state_to_running` -/
@[simps] def changeStateToRunning (th : Thread) : Thread := { th with state := .running }

variable (th : Thread)

@[simp] theorem checkSleeping_quantumsUse : th.quantumsUse.checkSleeping = th.checkSleeping := rfl
@[simp] theorem checkSleeping_changeStateToReady :
    th.changeStateToReady.checkSleeping = th.checkSleeping := rfl
@[simp] theorem checkSleeping_changeStateToBlocked :
    th.changeStateToBlocked.checkSleeping = th.checkSleeping := rfl
@[simp] theorem checkSleeping_changeStateToRunning :
    th.changeStateToRunning.checkSleeping = th.checkSleeping := rfl

variable {th}

theorem checkSleeping_eq_true : th.checkSleeping = true ↔ th.sleep = ⟨0, 0⟩ := by
  obtain ⟨_, _, ⟨sec, usec⟩, _⟩ := th
  simp [checkSleeping]

theorem checkSleeping_eq_false : th.checkSleeping = false ↔ th.sleep ≠ ⟨0, 0⟩ := by
  rw [← Bool.not_eq_true, checkSleeping_eq_true]

end Thread

/-! ## The globals -/

/-- The globals of the library.
Source: `uthreads.cpp`, the globals around `class Thread` -/
@[ext] structure State where
  /-- `quantum`. -/
  quantum : Itimerval
  /-- `count_total_quantums`. -/
  countTotalQuantums : ℤ
  /-- `running_thread`. -/
  runningThread : ℤ
  /-- `threads`. -/
  threads : ℤ → Option Thread
  /-- `ready_queue`, front first. -/
  readyQueue : List ℤ
  /-- The keys of `blocked`. -/
  blocked : SortedKeys ℤ
  /-- The keys of `sleeping`. -/
  sleeping : SortedKeys ℤ
  /-- `ids`. -/
  ids : MinHeap ℤ
  /-- `set_timer`. -/
  setTimer : Bool
  /-- What the last `setitimer(ITIMER_VIRTUAL, ..)` installed. -/
  timer : Itimerval

/-- `cancel_timer`, the zero `itimerval`. -/
def cancelTimer : Itimerval := ⟨⟨0, 0⟩, ⟨0, 0⟩⟩

/-- The zero-initialised globals. -/
def State.zero : State where
  quantum := cancelTimer
  countTotalQuantums := 0
  runningThread := 0
  threads _ := none
  readyQueue := []
  blocked := SortedKeys.empty
  sleeping := SortedKeys.empty
  ids := MinHeap.empty
  setTimer := false
  timer := cancelTimer

namespace State

/-- The interval timer is armed: ticks can arrive. -/
def TimerArmed (s : State) : Prop := s.timer.itValue ≠ ⟨0, 0⟩

instance (s : State) : Decidable s.TimerArmed := inferInstanceAs (Decidable (_ ≠ _))

/-- Writes the `Thread` object stored under an id. -/
@[simps] def setThread (s : State) (tid : ℤ) (th : Thread) : State :=
  { s with threads := Function.update s.threads tid (some th) }

/-- `threads.erase` of an id. -/
@[simps] def eraseThread (s : State) (tid : ℤ) : State :=
  { s with threads := Function.update s.threads tid none }

end State

end CoreOS.Uthreads
