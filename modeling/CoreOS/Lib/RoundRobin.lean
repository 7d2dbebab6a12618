import Mathlib

/-!
# Round-robin scheduling

A scheduler that gives turns to tasks in the order of a queue, as a mathematical object: no timer,
no states of threads, no containers. Tasks can be held back, and sleep through a number of turns.

* `Task`, `RoundRobin ι`: what is known of a task, and of all of them.
* `dispatch`: the next turn. Sleepers have one turn less to sleep through, those with none left
  queue up in a given order, and the front of the queue is next.
* `preempt`, `add`, `remove`, `hold`, `release`, `doze`: what can happen to a task.
* `preempts_split`: `k` turns among tasks that do not sleep; `laps`: whole laps give every task of
  the ring as many turns, and leave the order as it was.
-/

namespace CoreOS.Lib

/-- What a scheduler knows of a task. -/
structure Task where
  /-- It is held back, until it is released. -/
  held : Bool
  /-- The turns that it still sleeps through. -/
  nap : ℕ
  /-- The turns that it has had. -/
  turns : ℕ
  deriving DecidableEq, Repr

/-- One turn less to sleep through. -/
@[simps] def Task.rest (x : Task) : Task := { x with nap := x.nap - 1 }

/-- `k` turns more. -/
@[simps] def Task.more (k : ℕ) (x : Task) : Task := { x with turns := x.turns + k }

theorem Task.more_more (x : Task) (k l : ℕ) : (x.more k).more l = x.more (k + l) :=
  congrArg (Task.mk x.held x.nap) (Nat.add_assoc _ _ _)

/-- A round-robin scheduler. -/
@[ext] structure RoundRobin (ι : Type*) where
  /-- The task whose turn it is. -/
  current : ι
  /-- The tasks that wait for theirs, front first. -/
  queue : List ι
  /-- All tasks. -/
  task : ι → Option Task
  /-- The number of turns so far. -/
  total : ℕ

namespace RoundRobin

variable {ι : Type*} [DecidableEq ι] (ids : List ι)

/-! ## What can happen -/

/-- Changes, adds or removes a task. -/
@[simps] def set (i : ι) (x : Option Task) (a : RoundRobin ι) : RoundRobin ι :=
  { a with task := Function.update a.task i x }

/-- The tasks that wake up at the next turn, in the order of `ids`. -/
def waking (a : RoundRobin ι) : List ι :=
  ids.filter fun i => (a.task i).any fun x => x.nap == 1 && !x.held

/-- Gives the next turn, if somebody waits. -/
def dispatch (a : RoundRobin ι) : Option (RoundRobin ι) :=
  match a.queue ++ a.waking ids with
  | [] => none
  | next :: rest =>
      some
        { current := next
          queue := rest
          task := fun i => (a.task i).map fun x => x.rest.more (if i = next then 1 else 0)
          total := a.total + 1 }

/-- The current task goes to the back of the queue. -/
def preempt (a : RoundRobin ι) : Option (RoundRobin ι) :=
  dispatch ids { a with queue := a.queue ++ [a.current] }

/-- A new task goes to the back of the queue. -/
def add (i : ι) (a : RoundRobin ι) : RoundRobin ι :=
  { a.set i (some ⟨false, 0, 0⟩) with queue := a.queue ++ [i] }

/-- A task goes away. -/
def remove (i : ι) (a : RoundRobin ι) : RoundRobin ι :=
  { a.set i none with queue := a.queue.erase i }

/-- A task is held back. -/
def hold (i : ι) (x : Task) (a : RoundRobin ι) : RoundRobin ι :=
  { a.set i (some { x with held := true }) with queue := a.queue.erase i }

/-- A task that was held back queues up again, unless it sleeps. -/
def release (i : ι) (x : Task) (a : RoundRobin ι) : RoundRobin ι :=
  { a.set i (some { x with held := false }) with
    queue := if x.nap = 0 then a.queue ++ [i] else a.queue }

/-- A task falls asleep, for one turn at least. -/
def doze (i : ι) (x : Task) (k : ℕ) (a : RoundRobin ι) : RoundRobin ι :=
  a.set i (some { x with nap := max 1 k })

/-! ## Turns without sleepers -/

/-- Nobody sleeps. -/
def Awake (a : RoundRobin ι) : Prop := ∀ i x, a.task i = some x → x.nap = 0

/-- `k` times the current task goes to the back of the queue. -/
def preempts : ℕ → RoundRobin ι → Option (RoundRobin ι)
  | 0, a => some a
  | k + 1, a => (a.preempt ids).bind (preempts k)

variable {a : RoundRobin ι}

omit [DecidableEq ι] in
/-- Nobody wakes up who does not sleep. -/
theorem Awake.waking_eq (h : a.Awake) : a.waking ids = [] := by
  refine List.filter_eq_nil_iff.mpr fun i _ hi => ?_
  obtain ⟨x, hx, hnap⟩ := (Option.any_eq_true _ _).mp hi
  rw [h i x hx] at hnap
  cases hnap

/-- **One turn.** -/
theorem Awake.preempt (h : a.Awake) {next : ι} {rest : List ι}
    (hring : a.queue ++ [a.current] = next :: rest) :
    ∃ b, a.preempt ids = some b ∧ b.Awake ∧ b.queue ++ [b.current] = rest ++ [next] ∧
      b.total = a.total + 1 ∧ ∀ i, b.task i = (a.task i).map (Task.more ([next].count i)) := by
  have hwaking : waking ids { a with queue := a.queue ++ [a.current] } = [] :=
    Awake.waking_eq ids (a := { a with queue := a.queue ++ [a.current] }) h
  have hstep : a.preempt ids = some
      { current := next, queue := rest, total := a.total + 1
        task := fun i => (a.task i).map fun x => x.rest.more (if i = next then 1 else 0) } := by
    rw [RoundRobin.preempt, dispatch, hwaking, List.append_nil]
    dsimp only
    rw [hring]
  refine ⟨_, hstep, ?_, rfl, rfl, fun i => ?_⟩
  · intro i x hx
    obtain ⟨y, hy, rfl⟩ := Option.map_eq_some_iff.mp hx
    rw [Task.more_nap, Task.rest_nap, h i y hy]
  · refine Option.map_congr fun x hx => ?_
    have hrest : x.rest = x := by rw [Task.rest, h i x hx, Nat.zero_sub, ← h i x hx]
    rw [hrest, List.count_singleton]
    simp only [beq_iff_eq, eq_comm (a := i)]

/-- **Turns in order.** As many turns as tasks at the front of the ring: each of them has had one
more, and they are at the back. -/
theorem Awake.preempts_split {xs : List ι} : ∀ {ys : List ι} {a : RoundRobin ι}, a.Awake →
    a.queue ++ [a.current] = xs ++ ys →
    ∃ b, preempts ids xs.length a = some b ∧ b.Awake ∧ b.queue ++ [b.current] = ys ++ xs ∧
      b.total = a.total + xs.length ∧ ∀ i, b.task i = (a.task i).map (Task.more (xs.count i)) := by
  induction xs with
  | nil =>
      intro ys a h hring
      refine ⟨a, rfl, h, by rw [hring, List.nil_append, List.append_nil], rfl, fun i => ?_⟩
      rw [List.count_nil]
      cases a.task i <;> rfl
  | cons x xs ih =>
      intro ys a h hring
      rw [List.cons_append] at hring
      obtain ⟨c, hc, hawake, hring', htotal, htask⟩ := h.preempt ids hring
      rw [List.append_assoc] at hring'
      obtain ⟨b, hb, hawake', hring'', htotal', htask'⟩ := ih hawake hring'
      refine ⟨b, ?_, hawake', ?_, ?_, fun i => ?_⟩
      · rw [List.length_cons, preempts, hc, Option.bind_some, hb]
      · rw [hring'', List.append_assoc, List.singleton_append]
      · rw [htotal', htotal, List.length_cons]
        omega
      · have hcount : (x :: xs).count i = [x].count i + xs.count i :=
          (List.count_append : ([x] ++ xs).count i = _)
        rw [htask', htask, Option.map_map, hcount]
        congr 1
        exact funext fun y => y.more_more _ _

/-- More turns after some. -/
theorem preempts_add {k l : ℕ} : ∀ {a : RoundRobin ι},
    preempts ids (k + l) a = (preempts ids k a).bind (preempts ids l) := by
  induction k with
  | zero => intro a; rw [Nat.zero_add]; rfl
  | succ k ih =>
      intro a
      rw [Nat.succ_add, preempts, preempts, Option.bind_assoc]
      exact congrArg _ (funext fun b => ih)

/-- **Whole laps.** Every task has had one turn more for each lap and each place of its in the
ring, and everything else is as it was. -/
theorem Awake.laps (h : a.Awake) (m : ℕ) :
    ∃ b, preempts ids (m * (a.queue.length + 1)) a = some b ∧ b.Awake ∧ b.current = a.current ∧
      b.queue = a.queue ∧ b.total = a.total + m * (a.queue.length + 1) ∧
      ∀ i, b.task i = (a.task i).map (Task.more (m * (a.queue ++ [a.current]).count i)) := by
  induction m with
  | zero =>
      refine ⟨a, by rw [Nat.zero_mul]; rfl, h, rfl, rfl, by rw [Nat.zero_mul]; rfl, fun i => ?_⟩
      rw [Nat.zero_mul]
      cases a.task i <;> rfl
  | succ m ih =>
      obtain ⟨c, hc, hawake, hcurrent, hqueue, htotal, htask⟩ := ih
      obtain ⟨b, hb, hawake', hring, htotal', htask'⟩ :=
        hawake.preempts_split ids (List.append_nil (c.queue ++ [c.current])).symm
      rw [List.nil_append] at hring
      obtain ⟨hqueue', hcurrent'⟩ := List.append_inj' hring rfl
      rw [hcurrent] at hcurrent' htask'
      rw [hqueue] at hqueue' htask'
      rw [List.length_append, List.length_singleton, hqueue] at hb htotal'
      refine ⟨b, ?_, hawake', (List.singleton_inj.mp hcurrent'), hqueue', ?_, fun i => ?_⟩
      · rw [Nat.succ_mul, preempts_add, hc, Option.bind_some, hb]
      · rw [htotal', htotal, Nat.succ_mul, Nat.add_assoc]
      · rw [htask', htask, Option.map_map, Nat.succ_mul]
        congr 1
        exact funext fun y => y.more_more _ _

end RoundRobin

end CoreOS.Lib
