import Mathlib.Algebra.BigOperators.Group.List.Basic
import Mathlib.Algebra.Order.Ring.Nat
import Mathlib.Tactic.Positivity
import Mathlib.Tactic.Ring

/-!
# Bit fields of a machine word

Fields that share a word of `v` bits, read with masks and changed by addition.

* `toNat_mask_shift`: a field is read with its mask and a shift.
* `incremented` is a word after a sequence of additions; `incremented_eq` sums them up.
* `carry_eq_false`: an addition that the lowest `n` bits have room for carries into no bit above
  them; `add_and_mask`: a mask above them reads the same after it.
-/

namespace CoreOS.Lib

variable {v n : ℕ}

/-! ## Reading -/

/-- A field of `n` bits above the lowest `k`, read with its mask. -/
theorem toNat_mask_shift {w mask : BitVec v} {k : ℕ} (hmask : mask.toNat = (2 ^ n - 1) <<< k) :
    ((w &&& mask) >>> k).toNat = w.toNat / 2 ^ k % 2 ^ n := by
  rw [BitVec.toNat_ushiftRight, BitVec.toNat_and, hmask, Nat.shiftRight_and_distrib,
    Nat.shiftLeft_shiftRight, Nat.and_two_pow_sub_one_eq_mod, Nat.shiftRight_eq_div_pow]

/-! ## Counting -/

/-- The word after the additions, each modulo `2 ^ v`. -/
def incremented (w : BitVec v) (ks : List ℕ) : BitVec v :=
  ks.foldl (fun w k => w + BitVec.ofNat v k) w

@[simp] theorem incremented_nil {w : BitVec v} : incremented w [] = w := rfl

theorem incremented_cons {w : BitVec v} {k : ℕ} {ks : List ℕ} :
    incremented w (k :: ks) = incremented (w + BitVec.ofNat v k) ks := rfl

/-- The additions together add their sum. -/
theorem incremented_eq {w : BitVec v} {ks : List ℕ} :
    incremented w ks = w + BitVec.ofNat v ks.sum := by
  induction ks generalizing w with
  | nil => rw [incremented_nil, List.sum_nil, BitVec.add_zero]
  | cons k ks ih => rw [incremented_cons, ih, List.sum_cons, BitVec.add_assoc, BitVec.ofNat_add]

/-! ## Carries -/

section carries

variable {x y : BitVec v} (h : x.toNat % 2 ^ n + y.toNat < 2 ^ n)
include h

/-- **No carry leaves the field.** -/
theorem carry_eq_false {i : ℕ} (hi : n ≤ i) : BitVec.carry i x y false = false := by
  have hpow : 2 ^ n * 2 ^ (i - n) = 2 ^ i := by rw [← pow_add, Nat.add_sub_cancel' hi]
  have hmod : x.toNat % 2 ^ i % 2 ^ n = x.toNat % 2 ^ n :=
    Nat.mod_mod_of_dvd _ (Nat.pow_dvd_pow 2 hi)
  have hquot : x.toNat % 2 ^ i / 2 ^ n < 2 ^ (i - n) := by
    rw [Nat.div_lt_iff_lt_mul (by positivity), mul_comm, hpow]
    exact Nat.mod_lt _ (by positivity)
  have hy : y.toNat < 2 ^ i := by
    have hle : 2 ^ n ≤ 2 ^ i := Nat.pow_le_pow_right (by decide) hi
    omega
  have hlt : x.toNat % 2 ^ i + y.toNat < 2 ^ i :=
    calc x.toNat % 2 ^ i + y.toNat
        = 2 ^ n * (x.toNat % 2 ^ i / 2 ^ n) + (x.toNat % 2 ^ n + y.toNat) := by
          rw [← hmod, ← Nat.add_assoc, Nat.div_add_mod]
      _ < 2 ^ n * (x.toNat % 2 ^ i / 2 ^ n) + 2 ^ n := by omega
      _ = 2 ^ n * (x.toNat % 2 ^ i / 2 ^ n + 1) := by ring
      _ ≤ 2 ^ n * 2 ^ (i - n) := Nat.mul_le_mul_left _ hquot
      _ = 2 ^ i := hpow
  rw [BitVec.carry, Nat.mod_eq_of_lt hy, Bool.toNat_false, Nat.add_zero, decide_eq_false_iff_not,
    not_le]
  exact hlt

/-- The bits above the field are those from before the addition. -/
theorem add_and_mask {mask : BitVec v} (hmask : ∀ i < n, mask.getLsbD i = false) :
    (x + y) &&& mask = x &&& mask := by
  apply BitVec.eq_of_getLsbD_eq
  intro i hi
  rw [BitVec.getLsbD_and, BitVec.getLsbD_and]
  rcases Nat.lt_or_ge i n with hlt | hge
  · rw [hmask i hlt, Bool.and_false, Bool.and_false]
  · have hle : 2 ^ n ≤ 2 ^ i := Nat.pow_le_pow_right (by decide) hge
    have hy : y.getLsbD i = false := Nat.testBit_lt_two_pow (by omega)
    rw [BitVec.getLsbD_add hi, hy, carry_eq_false h hge, Bool.xor_false, Bool.xor_false]

end carries

end CoreOS.Lib
