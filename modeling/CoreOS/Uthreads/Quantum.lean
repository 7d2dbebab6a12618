import CoreOS.Lib.CInt
import CoreOS.Uthreads.Step

/-!
# Which quanta are accepted

`uthread_init` takes a number of microseconds and puts all of them into `tv_usec`. One `itimerval`
then serves `setitimer`, which wants less than a second there, and the countdown of the sleepers.

* `Itimerval.Denotes`: both values are normalised and stand for a number of microseconds.
* `timer_eq_quantum`: **what is handed to `setitimer` is the quantum**, by `uthread_init` and by
  `run_thread` after every cancelled timer, in every run.
* `setSleeping_counts`: **the countdown is right for every quantum**, without overflow.
* `accepts_quantum_iff`: **a quantum is accepted below a second only**. `second_refused` is the
  first that is not.
-/

namespace CoreOS.Uthreads

open CoreOS.Lib

variable {n : ℕ} {q : ℤ} {s s' : State}

/-! ## What a timer stands for -/

/-- The value is normalised and stands for `usecs` microseconds. -/
def Timeval.Denotes (t : Timeval) (usecs : ℤ) : Prop :=
  t.Valid ∧ t.tvSec * 1000000 + t.tvUsec = usecs

/-- Both values are normalised and stand for `usecs` microseconds. -/
def Itimerval.Denotes (item : Itimerval) (usecs : ℤ) : Prop :=
  item.itInterval.Denotes usecs ∧ item.itValue.Denotes usecs

/-- The quantum of `uthread_init` is normalised below a second. -/
theorem quantumOf_denotes_iff (hpos : 0 < q) : (quantumOf q).Denotes q ↔ q < 1000000 := by
  simp [Itimerval.Denotes, Timeval.Denotes, Timeval.Valid, quantumOf, hpos.le]

/-! ## The timer in force -/

/-- A decision that starts with the timer cancelled re-arms it with the quantum. -/
theorem Decision.timer_eq_quantum {p : State} (hd : Decision p s')
    (hp : p.setTimer = true ∨ p.timer = p.quantum) : s'.timer = s'.quantum := by
  rw [hd.timer, hd.quantum]
  split_ifs with hset
  · rfl
  · exact hp.resolve_left hset

/-- A step leaves the timer at the quantum. -/
theorem Consistent.timer_step (h : Consistent n q s) {op : Op} (htimer : s.timer = s.quantum)
    (hstep : (library n q).step op s = some s') : s'.timer = s'.quantum := by
  cases h.effect hstep with
  | unchanged | spawn | terminateReady | terminateBlocked | blockReady | resume => exact htimer
  | terminateSelf hmain hth hst hd =>
      exact ((h.suspended_selfTerminated hmain hth hst).decision hd).timer_eq_quantum (.inl rfl)
  | blockSelf hmain hth hst hd =>
      exact ((h.suspended_selfBlocked hmain hth hst).decision hd).timer_eq_quantum (.inl rfl)
  | sleep hmain hth hd =>
      exact ((h.suspended_fellAsleep _ hmain hth).decision hd).timer_eq_quantum (.inl rfl)
  | tick hth hd =>
      exact ((h.suspended_preempted hth).decision hd).timer_eq_quantum (.inr htimer)

/-- **What was handed to `setitimer`** last is the quantum, whenever user code runs. -/
theorem timer_eq_quantum (h : (library n q).Reachable s) : s.timer = s.quantum := by
  refine (h.invariant (P := fun s => Consistent n q s ∧ s.timer = s.quantum) ?_ ?_).2
  · intro s h
    refine ⟨.init h, ?_⟩
    obtain ⟨rfl, -⟩ := library_init.mp h
    rfl
  · intro op s s' h hstep
    exact ⟨h.1.step hstep, h.1.timer_step h.2 hstep⟩

/-! ## The countdown -/

/-- The fields of the sleep time, and what `reduce_sleeping` makes of them before it clamps, are
values of a `long`. -/
structure Thread.FitsLong (quantum : Itimerval) (th : Thread) : Prop where
  sec : IsSigned 64 th.sleep.tvSec
  usec : IsSigned 64 th.sleep.tvUsec
  secLeft : IsSigned 64 (th.sleep.tvSec - quantum.itValue.tvSec)
  usecLeft : IsSigned 64 (th.sleep.tvUsec - quantum.itValue.tvUsec)

/-- The sleep time that `set_sleeping` builds reaches zero with the `numQuantums`-th call of
`reduce_sleeping` and not earlier, without overflow. -/
def Counts (quantum : Itimerval) (numQuantums : ℤ) (th : Thread) : Prop :=
  ∀ calls : ℕ,
    let left := (Thread.reduceSleeping quantum)^[calls] (th.setSleeping quantum numQuantums)
    (left.checkSleeping = true ↔ numQuantums ≤ calls) ∧ left.FitsLong quantum

/-- The sleep time after some calls. -/
theorem sleep_iterate (hpos : 0 < q) {k : ℤ} (hk : 1 ≤ k) (th : Thread) (calls : ℕ) :
    ((Thread.reduceSleeping (quantumOf q))^[calls] (th.setSleeping (quantumOf q) k)).sleep =
      ⟨0, max 0 ((k - calls) * q)⟩ := by
  induction calls with
  | zero =>
      have hnonneg : 0 ≤ k * q := mul_nonneg (by omega) hpos.le
      simp [Thread.setSleeping, quantumOf, hnonneg]
  | succ calls ih =>
      rw [Function.iterate_succ_apply', Thread.reduceSleeping, ih]
      simp only [quantumOf, sub_zero, max_self, Timeval.mk.injEq, true_and]
      rw [show (k - (calls + 1 : ℕ)) * q = (k - calls) * q - q by push_cast; ring]
      omega

/-- **The countdown is right**, for a quantum and a number of quanta that are any two `int`s. -/
theorem setSleeping_counts (hpos : 0 < q) (hq : IsSigned 32 q) {k : ℤ} (hk : 1 ≤ k)
    (hkint : IsSigned 32 k) (th : Thread) : Counts (quantumOf q) k th := by
  intro calls left
  have hsleep : left.sleep = ⟨0, max 0 ((k - calls) * q)⟩ := sleep_iterate hpos hk th calls
  constructor
  · rw [Thread.checkSleeping_eq_true, hsleep]
    simp only [Timeval.mk.injEq, true_and, max_eq_left_iff]
    rw [← not_lt, mul_pos_iff_of_pos_right hpos]
    omega
  · have hle : (k - calls) * q ≤ (2 ^ 31 - 1) * (2 ^ 31 - 1) := by
      have hq' : q ≤ 2 ^ 31 - 1 := by
        have := hq.2
        omega
      have hk' : k - calls ≤ 2 ^ 31 - 1 := by
        have := hkint.2
        omega
      calc (k - calls) * q ≤ (2 ^ 31 - 1) * q := mul_le_mul_of_nonneg_right hk' hpos.le
        _ ≤ (2 ^ 31 - 1) * (2 ^ 31 - 1) := mul_le_mul_of_nonneg_left hq' (by norm_num)
    obtain ⟨-, hlt⟩ := hq
    constructor <;> rw [hsleep] <;> simp only [IsSigned, quantumOf] <;> omega

/-! ## The accepted quanta -/

/-- What a quantum is for: `uthread_init` succeeds, the timer that it and `run_thread` set stands
for the quantum, and a sleep counts its quanta. -/
structure AcceptsQuantum (n : ℕ) (q : ℤ) : Prop where
  init : ∃ s, uthreadInit n q State.zero = .ok (.returns success "", s)
  timer : ∀ s, (library n q).Reachable s → s.timer.Denotes q ∧ s.quantum.Denotes q
  sleeps : ∀ s, (library n q).Reachable s → ∀ k, 1 ≤ k → IsSigned 32 k → ∀ th, Counts s.quantum k th

/-- **A quantum is accepted below a second only.** -/
theorem accepts_quantum_iff (hn : 1 ≤ n) (hpos : 0 < q) : AcceptsQuantum n q ↔ q < 1000000 := by
  constructor
  · rintro ⟨⟨s, hinit⟩, -, -⟩
    have hinit' : (library n q).init s := hinit
    exact (library_init.mp hinit').2.2.2
  · intro hlt
    have hquantum : ∀ s, (library n q).Reachable s → s.quantum = quantumOf q := fun s hs =>
      (reachable_consistent hs).quantum.stored
    have hdenotes := (quantumOf_denotes_iff hpos).mpr hlt
    refine ⟨⟨afterInit n q, library_init.mpr ⟨rfl, hn, hpos, hlt⟩⟩, ?_, ?_⟩
    · intro s hs
      rw [timer_eq_quantum hs, hquantum s hs]
      exact ⟨hdenotes, hdenotes⟩
    · intro s hs k hk hint th
      rw [hquantum s hs]
      have hq : IsSigned 32 q := by
        constructor <;> omega
      exact setSleeping_counts hpos hq hk hint th

/-- A tenth of a second, with a hundred threads. -/
theorem accepts_quantum_tenth : AcceptsQuantum 100 100000 :=
  (accepts_quantum_iff (by decide) (by decide)).mpr (by decide)

/-- A second is refused. -/
theorem second_refused : ¬ ∀ (n : ℕ) (q : ℤ), 1 ≤ n → 0 < q → IsSigned 32 q →
    AcceptsQuantum n q := by
  intro hall
  have hlt := (accepts_quantum_iff (by decide) (by decide)).mp
    (hall 100 1000000 (by decide) (by decide) (by decide))
  exact absurd hlt (by decide)

end CoreOS.Uthreads
