import Mathlib.Logic.Function.Iterate
import Mathlib.Tactic.NormNum
import Mathlib.Order.Basic

/-!
# Signed integers and counting loops

* `IsSigned w`: the values of a signed integer of `w` bits; `signed w` is an operation whose result
  has to be one of them, undefined otherwise; `intMax` is the largest `int`.
* `countLoop`: `for (int i = ..; i < n; i++)`; `countLoop_eq_iterate` is what it does.
-/

namespace CoreOS.Lib

/-! ## Signed integers -/

/-- The values of a signed integer of `w` bits. -/
def IsSigned (w : ℕ) (n : ℤ) : Prop := -2 ^ (w - 1) ≤ n ∧ n < 2 ^ (w - 1)

instance (w : ℕ) (n : ℤ) : Decidable (IsSigned w n) := inferInstanceAs (Decidable (_ ∧ _))

/-- The result of an operation on signed integers; `none` if it overflows, which is undefined. -/
def signed (w : ℕ) (n : ℤ) : Option ℤ := if IsSigned w n then some n else none

@[simp] theorem signed_of_isSigned {w : ℕ} {n : ℤ} (h : IsSigned w n) : signed w n = some n :=
  if_pos h

@[simp] theorem signed_of_not {w : ℕ} {n : ℤ} (h : ¬ IsSigned w n) : signed w n = none := if_neg h

/-- `INT_MAX`. -/
def intMax : ℤ := 2147483647

/-- A number that is not negative is an `int` if it is at most `INT_MAX`. -/
theorem isSigned_iff_of_nonneg {c : ℤ} (h : 0 ≤ c) : IsSigned 32 c ↔ c ≤ intMax := by
  unfold IsSigned intMax
  omega

/-! ## Counting loops -/

/-- `for (int i = ..; i < n; i++)`. -/
def countLoop {σ : Type*} (body : σ → σ) (n i : ℤ) (s : σ) : σ :=
  if i < n then countLoop body n (i + 1) (body s) else s
termination_by (n - i).toNat

/-- The body runs once for each number that is left. -/
theorem countLoop_eq_iterate {σ : Type*} {body : σ → σ} {n i : ℤ} {s : σ} :
    countLoop body n i s = body^[(n - i).toNat] s := by
  fun_induction countLoop body n i s with
  | case1 i s hlt ih =>
      obtain ⟨k, hk⟩ : ∃ k : ℕ, n - i = k + 1 := ⟨(n - i - 1).toNat, by omega⟩
      rw [ih, show (n - i).toNat = (n - (i + 1)).toNat + 1 by omega, Function.iterate_succ_apply]
  | case2 i s hge => rw [show (n - i).toNat = 0 by omega, Function.iterate_zero_apply]

end CoreOS.Lib
