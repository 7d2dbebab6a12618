import CoreOS.Lib.CInt
import Mathlib.Data.Rat.Floor
import Mathlib.Tactic.Linarith

/-!
# The time of an operation

`ex1/osm.cpp`: an operation is repeated in a loop of five copies, and the time that this takes is
divided by the number of times. What is counted here are the operations. The five variables that
the first loop increments are left out: they are `int`s without an initial value, so that strictly
the first `x++` is undefined, and it is assumed that incrementing them has no effect but on their
values, which decide neither the count nor the quotient.

* `osmMeasureTime`: the code. The clock is a parameter, the quotient is kept as its two operands,
  and the division by five is exact before it is rounded up.
* `operations_bounds`: **how many operations are performed**, at most four more than asked for.
* `divides_by_count_iff`: **when they are the divisor**. `numOfIteration * NUM_OF_LOOPS` is a
  product of two `int`s; from 2147483646 iterations on it overflows.
-/

namespace CoreOS.Osm

open CoreOS.Lib

/-! ## The code -/

/-- The operations that are measured. -/
inductive Operation
  | arithmetic
  | function
  | syscall
  deriving DecidableEq

/-- The number of operations performed, of each kind. -/
abbrev Performed : Type := Operation → ℕ

/-- One operation. -/
def perform (op : Operation) (done : Performed) : Performed := Function.update done op (done op + 1)

/-- `NUM_OF_LOOPS`. -/
def numOfLoops : ℕ := 5

/-- The body of the loop that `check` selects; no loop runs for another `check`.
Source: `osm.cpp`, `osm_measure_time` -/
def loopBody (check : ℤ) : Performed → Performed :=
  match check with
  | 1 => (perform .arithmetic)^[numOfLoops]
  | 2 => (perform .function)^[numOfLoops]
  | 3 => (perform .syscall)^[numOfLoops]
  | _ => id

/-- A `struct timeval`. -/
structure Timeval where
  tvSec : ℤ
  tvUsec : ℤ

/-- The time in nanoseconds. -/
def Timeval.nanoseconds (t : Timeval) : ℤ := t.tvUsec * 1000 + t.tvSec * 1000000000

/-- What `osm_measure_time` returns. -/
inductive Measured
  /-- `ERROR`. -/
  | error
  /-- The quotient of the elapsed time and the divisor. -/
  | average (elapsed divisor : ℤ)
  /-- Nothing: a signed overflow is undefined. -/
  | undefined

/-- `numOfIteration`. -/
def numOfIteration (iterations : UInt32) : ℤ := ⌈(iterations.toNat : ℚ) / numOfLoops⌉

/-- The quotient that is returned after `n` iterations.
Source: `osm.cpp`, `osm_measure_time` -/
def quotient (time last : Timeval) (n : ℤ) : Measured :=
  match signed 32 (n * numOfLoops) with
  | none => .undefined
  | some divisor => .average (last.nanoseconds - time.nanoseconds) divisor

/-- Measures an operation: what is returned, and the operations performed. `start` and `finish` are
what `gettimeofday` returns before and after, `none` for a failure.
Source: `osm.cpp`, `osm_measure_time` -/
def osmMeasureTime (start finish : Option Timeval) (iterations : UInt32) (check : ℤ) :
    Measured × Performed :=
  if iterations = 0 then (.error, 0)
  else
    match signed 32 (numOfIteration iterations) with
    | none => (.undefined, 0)
    | some n =>
        match start with
        | none => (.error, 0)
        | some time =>
            let done := countLoop (loopBody check) n 0 0
            match finish with
            | none => (.error, done)
            | some last => (quotient time last n, done)

/-- The argument with which an operation is selected.
Source: `osm.cpp`, `osm_operation_time`, `osm_function_time`, `osm_syscall_time` -/
def Operation.check : Operation → ℤ
  | .arithmetic => 1
  | .function => 2
  | .syscall => 3

/-! ## The operations -/

/-- The loop body is five times the operation. -/
theorem loopBody_check (op : Operation) : loopBody op.check = (perform op)^[numOfLoops] := by
  cases op <;> rfl

theorem iterate_perform (op : Operation) (n : ℕ) (done : Performed) :
    (perform op)^[n] done = Function.update done op (done op + n) := by
  induction n generalizing done with
  | zero => simp
  | succ n ih =>
      rw [Function.iterate_succ_apply, ih, perform, Function.update_idem, Function.update_self]
      congr 1
      omega

/-- The operations of the whole loop. -/
theorem countLoop_loopBody (op : Operation) (n : ℤ) :
    countLoop (loopBody op.check) n 0 0 =
      Function.update (0 : Performed) op (numOfLoops * n.toNat) := by
  rw [countLoop_eq_iterate, loopBody_check, ← Function.iterate_mul, iterate_perform, Int.sub_zero,
    Pi.zero_apply, Nat.zero_add]

/-! ## The number of iterations -/

section iterations

variable (iterations : UInt32)

/-- The ceiling, as an inequality. -/
theorem numOfIteration_le_iff {n : ℤ} :
    numOfIteration iterations ≤ n ↔ iterations.toNat ≤ numOfLoops * n := by
  have hpos : (0 : ℚ) < numOfLoops := by norm_num [numOfLoops]
  rw [numOfIteration, Int.ceil_le, div_le_iff₀ hpos, mul_comm]
  norm_cast

theorem le_numOfIteration : (iterations.toNat : ℤ) ≤ numOfLoops * numOfIteration iterations :=
  (numOfIteration_le_iff iterations).mp le_rfl

theorem numOfIteration_lt :
    numOfLoops * numOfIteration iterations < iterations.toNat + numOfLoops := by
  by_contra hge
  have hle : numOfIteration iterations ≤ numOfIteration iterations - 1 := by
    rw [numOfIteration_le_iff, mul_sub]
    omega
  omega

variable {iterations}

/-- The conversion to `int` is exact. -/
theorem isSigned_numOfIteration : IsSigned 32 (numOfIteration iterations) := by
  have hle := le_numOfIteration iterations
  have hlt := numOfIteration_lt iterations
  have hiterations := iterations.toNat_lt
  simp only [IsSigned, numOfLoops] at *
  omega

/-- The product is an `int` up to a bound on the iterations. -/
theorem isSigned_product_iff : IsSigned 32 (numOfIteration iterations * numOfLoops) ↔
    iterations.toNat ≤ 2147483645 := by
  have hle := le_numOfIteration iterations
  have hfew := numOfIteration_le_iff iterations (n := 429496729)
  simp only [IsSigned, numOfLoops] at *
  omega

end iterations

/-! ## The divisor -/

section divisor

variable (start finish : Timeval) (iterations : UInt32) (op : Operation)

/-- The number of operations of the measured kind that `osm_measure_time` performs. -/
def operations : ℕ :=
  (osmMeasureTime (some start) (some finish) iterations op.check).2 op

/-- What a measurement is for: what was asked for is performed, up to the last iteration, nothing
else is, and the time is divided by the number of operations. -/
structure DividesByCount : Prop where
  only : (osmMeasureTime (some start) (some finish) iterations op.check).2 =
    Function.update (0 : Performed) op (operations start finish iterations op)
  le : iterations.toNat ≤ operations start finish iterations op
  lt : operations start finish iterations op < iterations.toNat + numOfLoops
  divisor : (osmMeasureTime (some start) (some finish) iterations op.check).1 =
    .average (finish.nanoseconds - start.nanoseconds) (operations start finish iterations op)

variable {iterations}

/-- A measurement, with the loop worked out. -/
theorem osmMeasureTime_eq (hpos : iterations ≠ 0) :
    osmMeasureTime (some start) (some finish) iterations op.check =
      (quotient start finish (numOfIteration iterations),
        Function.update (0 : Performed) op (numOfLoops * (numOfIteration iterations).toNat)) := by
  rw [osmMeasureTime, if_neg hpos, signed_of_isSigned isSigned_numOfIteration]
  simp only [countLoop_loopBody]

theorem operations_eq (hpos : iterations ≠ 0) :
    operations start finish iterations op = numOfLoops * (numOfIteration iterations).toNat := by
  rw [operations, osmMeasureTime_eq _ _ _ hpos]
  exact Function.update_self ..

/-- **How many operations are performed**: what was asked for, up to the last iteration. -/
theorem operations_bounds (hpos : iterations ≠ 0) :
    iterations.toNat ≤ operations start finish iterations op ∧
      operations start finish iterations op < iterations.toNat + numOfLoops := by
  have hle := le_numOfIteration iterations
  have hlt := numOfIteration_lt iterations
  rw [operations_eq _ _ _ hpos]
  simp only [numOfLoops] at *
  omega

/-- **When the time is divided by the number of operations**: up to the greatest multiple of five
that is an `int`. -/
theorem divides_by_count_iff (hpos : iterations ≠ 0) :
    DividesByCount start finish iterations op ↔ iterations.toNat ≤ 2147483645 := by
  rw [← isSigned_product_iff]
  constructor
  · rintro ⟨-, -, -, hdivisor⟩
    by_contra hover
    rw [osmMeasureTime_eq _ _ _ hpos, quotient, signed_of_not hover] at hdivisor
    cases hdivisor
  · intro hfits
    have hcount : (operations start finish iterations op : ℤ) =
        numOfIteration iterations * numOfLoops := by
      have hnonneg := le_numOfIteration iterations
      rw [operations_eq _ _ _ hpos]
      simp only [numOfLoops] at *
      omega
    obtain ⟨hle, hlt⟩ := operations_bounds start finish op hpos
    refine ⟨?_, hle, hlt, ?_⟩
    · rw [operations_eq _ _ _ hpos, osmMeasureTime_eq _ _ _ hpos]
    · rw [hcount, osmMeasureTime_eq _ _ _ hpos, quotient, signed_of_isSigned hfits]

end divisor

/-- Six operations are ten. -/
theorem divides_by_count_six : DividesByCount ⟨0, 0⟩ ⟨0, 1⟩ 6 .syscall :=
  (divides_by_count_iff _ _ _ (by decide)).mpr (by decide)

/-- One iteration more than the last that works. -/
theorem product_overflows : ¬ ∀ (start finish : Timeval) (iterations : UInt32) (op : Operation),
    iterations ≠ 0 → DividesByCount start finish iterations op := by
  intro hall
  have hdivisor := (hall ⟨0, 0⟩ ⟨0, 1⟩ 2147483646 .syscall (by decide)).divisor
  have hover : ¬ IsSigned 32 (numOfIteration 2147483646 * numOfLoops) :=
    mt isSigned_product_iff.mp (by decide)
  rw [osmMeasureTime_eq _ _ _ (by decide), quotient, signed_of_not hover] at hdivisor
  cases hdivisor

end CoreOS.Osm
