import Mathlib.Algebra.Order.Field.Power
import Mathlib.Data.Int.Log
import Mathlib.Data.Rat.Floor
import Mathlib.Algebra.Order.Round
import Mathlib.Tactic.Linarith
import Mathlib.Tactic.Positivity
import Mathlib.Tactic.FieldSimp
import Mathlib.Tactic.Ring

/-!
# Rounding to floating-point numbers

Rational numbers rounded to `p` significant bits, to the nearest and of two nearest ones to the
even one. Exponents are not bounded.

* `nearestEven`: the same for integers. `rounded p` scales by `spacing p`, the distance of the
  numbers of `p` bits around the number that is rounded.
* `Representable p x`: `x` has `p` bits. `rounded_eq` and `representable_rounded` say that these are
  the numbers that are not changed; `rounded_mono` that the order is kept.
* `Representable.le_of_lt`: between two of them there is a gap, relative to the greater one;
  `rounded_lt` says that rounding does not close it.
* `rounded_div_mul_eq_iff`: **when the rounded ratio of two such numbers is everything**: when they
  are equal.
-/

namespace CoreOS.Lib

/-! ## To integers -/

/-- The nearest integer, of two the even one. -/
def nearestEven (x : ℚ) : ℤ :=
  if Int.fract x < 1 / 2 ∨ (Int.fract x = 1 / 2 ∧ Even ⌊x⌋) then ⌊x⌋ else ⌊x⌋ + 1

variable {p : ℕ} {x y a b c : ℚ}

theorem floor_le_nearestEven (x : ℚ) : ⌊x⌋ ≤ nearestEven x := by
  rw [nearestEven]
  split_ifs <;> omega

theorem nearestEven_le_floor_add_one (x : ℚ) : nearestEven x ≤ ⌊x⌋ + 1 := by
  rw [nearestEven]
  split_ifs <;> omega

@[simp] theorem nearestEven_intCast (n : ℤ) : nearestEven (n : ℚ) = n := by
  simp [nearestEven]

theorem nearestEven_mono (h : x ≤ y) : nearestEven x ≤ nearestEven y := by
  rcases (Int.floor_mono h).lt_or_eq with hlt | heq
  · calc nearestEven x ≤ ⌊x⌋ + 1 := nearestEven_le_floor_add_one x
      _ ≤ ⌊y⌋ := hlt
      _ ≤ nearestEven y := floor_le_nearestEven y
  · have hfract : Int.fract x ≤ Int.fract y := by
      rw [Int.fract, Int.fract, heq]
      linarith
    rw [nearestEven, nearestEven, heq]
    split_ifs with hx hy hy
    · exact le_rfl
    · omega
    · refine absurd ?_ hx
      rcases hy with hy | ⟨hy, heven⟩
      · exact .inl (hfract.trans_lt hy)
      · exact (hfract.trans_eq hy).lt_or_eq.imp id fun e => ⟨e, heven⟩
    · exact le_rfl

/-- No integer is nearer. -/
theorem abs_nearestEven_sub_le (x : ℚ) : |(nearestEven x : ℚ) - x| ≤ 1 / 2 := by
  have hsplit := Int.floor_add_fract x
  have hnonneg := Int.fract_nonneg x
  have hlt := Int.fract_lt_one x
  rw [nearestEven, abs_le]
  split_ifs with h
  · rcases h with h | ⟨h, -⟩ <;> constructor <;> linarith
  · push Not at h
    push_cast
    constructor <;> linarith [h.1]

/-! ## To significant bits -/

/-- The distance of the numbers of `p` bits around a number. -/
def spacing (p : ℕ) (x : ℚ) : ℚ := 2 ^ (Int.log 2 |x| + 1 - p)

/-- The nearest number of `p` bits, of two the even one. -/
def rounded (p : ℕ) (x : ℚ) : ℚ := nearestEven (x / spacing p x) * spacing p x

/-- A number of at most `p` bits. -/
def Representable (p : ℕ) (x : ℚ) : Prop := ∃ (m : ℕ) (e : ℤ), m < 2 ^ p ∧ x = m * 2 ^ e

theorem spacing_pos (p : ℕ) (x : ℚ) : 0 < spacing p x := by
  unfold spacing
  positivity

/-- The spacing is the first number of its binade divided by `2 ^ (p - 1)`. -/
theorem two_pow_mul_spacing (p : ℕ) (x : ℚ) : 2 ^ p * spacing p x = 2 ^ (Int.log 2 |x| + 1) := by
  rw [spacing, ← zpow_natCast, ← zpow_add₀ two_ne_zero]
  congr 1
  ring

theorem two_pow_log_le (hx : 0 < x) : (2 : ℚ) ^ Int.log 2 |x| ≤ x := by
  have h := Int.zpow_log_le_self one_lt_two (abs_pos.mpr hx.ne')
  rw [abs_of_pos hx] at h ⊢
  exact_mod_cast h

theorem lt_two_pow_mul_spacing (hx : 0 ≤ x) : x < 2 ^ p * spacing p x := by
  have h := Int.lt_zpow_succ_log_self one_lt_two |x|
  rw [two_pow_mul_spacing]
  calc x = |x| := (abs_of_nonneg hx).symm
    _ < 2 ^ (Int.log 2 |x| + 1) := by exact_mod_cast h

@[simp] theorem rounded_zero : rounded p 0 = 0 := by
  have h : nearestEven 0 = 0 := nearestEven_intCast 0
  rw [rounded, zero_div, h, Int.cast_zero, zero_mul]

/-- Rounding moves a number by at most half the spacing. -/
theorem abs_rounded_sub_le (p : ℕ) (x : ℚ) : |rounded p x - x| ≤ spacing p x / 2 := by
  have hpos := spacing_pos p x
  have hx : x = x / spacing p x * spacing p x := (div_mul_cancel₀ _ hpos.ne').symm
  calc |rounded p x - x|
      = |(nearestEven (x / spacing p x) : ℚ) - x / spacing p x| * spacing p x := by
        rw [← abs_of_pos hpos, ← abs_mul, sub_mul, abs_of_pos hpos, ← hx, rounded]
    _ ≤ 1 / 2 * spacing p x := by
        gcongr
        exact abs_nearestEven_sub_le _
    _ = spacing p x / 2 := by ring

/-- What has `p` bits is not changed. -/
theorem rounded_eq (h : Representable p x) : rounded p x = x := by
  obtain ⟨m, e, hm, hx⟩ := h
  rcases Nat.eq_zero_or_pos m with rfl | hpos
  · rw [hx, Nat.cast_zero, zero_mul, rounded_zero]
  have hxpos : 0 < x := by
    rw [hx]
    positivity
  -- the spacing divides the number
  have hlt : x < 2 ^ ((p : ℤ) + e) := by
    rw [hx, zpow_add₀ two_ne_zero, zpow_natCast]
    have hm : (m : ℚ) < 2 ^ p := by exact_mod_cast hm
    gcongr
  have hlog : Int.log 2 |x| < p + e :=
    (Int.lt_zpow_iff_log_lt one_lt_two (abs_pos.mpr hxpos.ne')).mp
      (by rw [abs_of_pos hxpos]; exact_mod_cast hlt)
  obtain ⟨k, hk⟩ := Int.eq_ofNat_of_zero_le (show 0 ≤ e - (Int.log 2 |x| + 1 - p) by omega)
  have hquot : x / spacing p x = ((m * 2 ^ k : ℕ) : ℤ) := by
    rw [div_eq_iff (spacing_pos p x).ne', spacing]
    push_cast
    rw [mul_assoc, ← zpow_natCast, ← zpow_add₀ two_ne_zero, hx]
    congr 2
    rw [← hx]
    omega
  rw [rounded, hquot, nearestEven_intCast, ← hquot, div_mul_cancel₀ _ (spacing_pos p x).ne']

theorem representable_natCast {n : ℕ} (h : n ≤ 2 ^ p) (hp : 0 < p) : Representable p n := by
  rcases h.lt_or_eq with h | rfl
  · exact ⟨n, 0, h, by simp⟩
  · exact ⟨1, p, Nat.one_lt_two_pow hp.ne', by simp⟩

theorem representable_rounded (hp : 0 < p) (hx : 0 ≤ x) : Representable p (rounded p x) := by
  have hpos := spacing_pos p x
  have hnonneg : 0 ≤ nearestEven (x / spacing p x) := by
    have h := nearestEven_mono (div_nonneg hx hpos.le)
    rwa [← Int.cast_zero, nearestEven_intCast] at h
  have hle : nearestEven (x / spacing p x) ≤ (2 ^ p : ℕ) := by
    have h : x / spacing p x ≤ (((2 ^ p : ℕ) : ℤ) : ℚ) := by
      rw [div_le_iff₀ hpos]
      exact_mod_cast (lt_two_pow_mul_spacing hx).le
    have hround := nearestEven_mono h
    rwa [nearestEven_intCast] at hround
  obtain ⟨n, hn⟩ := Int.eq_ofNat_of_zero_le hnonneg
  rw [hn] at hle
  obtain ⟨m, e, hm, hcast⟩ := representable_natCast (p := p) (n := n) (by exact_mod_cast hle) hp
  refine ⟨m, e + (Int.log 2 |x| + 1 - p), hm, ?_⟩
  rw [rounded, hn, zpow_add₀ two_ne_zero, ← mul_assoc, ← hcast, spacing]
  rfl

/-- **Rounding keeps the order.** -/
theorem rounded_mono (hp : 0 < p) (hx : 0 ≤ x) (h : x ≤ y) : rounded p x ≤ rounded p y := by
  rcases hx.eq_or_lt with rfl | hx
  · rw [rounded_zero]
    obtain ⟨m, e, -, hm⟩ := representable_rounded hp h
    rw [hm]
    positivity
  have hy := hx.trans_le h
  have hlog : Int.log 2 |x| ≤ Int.log 2 |y| :=
    Int.log_mono_right (abs_pos.mpr hx.ne') (abs_le_abs_of_nonneg hx.le h)
  rcases hlog.lt_or_eq with hlt | heq
  · -- there is a power of two in between
    have hle : rounded p x ≤ 2 ^ (Int.log 2 |x| + 1) := by
      have hquot : x / spacing p x ≤ (((2 ^ p : ℕ) : ℤ) : ℚ) := by
        rw [div_le_iff₀ (spacing_pos p x)]
        exact_mod_cast (lt_two_pow_mul_spacing hx.le).le
      have hround : (nearestEven (x / spacing p x) : ℚ) ≤ 2 ^ p := by
        have := nearestEven_mono hquot
        rw [nearestEven_intCast] at this
        exact_mod_cast this
      rw [← two_pow_mul_spacing p x, rounded]
      gcongr
      exact (spacing_pos p x).le
    have hge : 2 ^ Int.log 2 |y| ≤ rounded p y := by
      have hrep : (2 : ℚ) ^ Int.log 2 |y| = 2 ^ (p - 1) * spacing p y := by
        rw [spacing, ← zpow_natCast, ← zpow_add₀ two_ne_zero]
        congr 1
        omega
      have hquot : (((2 ^ (p - 1) : ℕ) : ℤ) : ℚ) ≤ y / spacing p y := by
        rw [le_div_iff₀ (spacing_pos p y)]
        push_cast
        exact hrep.symm.trans_le (two_pow_log_le hy)
      have hround : 2 ^ (p - 1) ≤ (nearestEven (y / spacing p y) : ℚ) := by
        have := nearestEven_mono hquot
        rw [nearestEven_intCast] at this
        exact_mod_cast this
      rw [hrep, rounded]
      gcongr
      exact (spacing_pos p y).le
    calc rounded p x ≤ 2 ^ (Int.log 2 |x| + 1) := hle
      _ ≤ 2 ^ Int.log 2 |y| := zpow_le_zpow_right₀ one_le_two hlt
      _ ≤ rounded p y := hge
  · have hspacing : spacing p x = spacing p y := by rw [spacing, spacing, heq]
    have hpos := spacing_pos p y
    rw [rounded, rounded, hspacing]
    have hquot : x / spacing p y ≤ y / spacing p y := by gcongr
    have hround := nearestEven_mono hquot
    gcongr

theorem rounded_nonneg (hp : 0 < p) (hx : 0 ≤ x) : 0 ≤ rounded p x := by
  have h := rounded_mono hp le_rfl hx
  rwa [rounded_zero] at h

theorem representable_one (hp : 0 < p) : Representable p 1 := by
  exact_mod_cast representable_natCast Nat.one_le_two_pow hp

/-! ## Gaps -/

/-- **There is a gap** below every number of `p` bits. -/
theorem Representable.le_of_lt (ha : Representable p a) (hb : Representable p b) (h : a < b) :
    a ≤ b * (1 - 1 / 2 ^ p) := by
  obtain ⟨k, f, hk, hka⟩ := ha
  obtain ⟨m, e, hm, hmb⟩ := hb
  have hp : (0 : ℚ) < 2 ^ p := by positivity
  have hk : (k : ℚ) + 1 ≤ 2 ^ p := by exact_mod_cast hk
  have hm : (m : ℚ) < 2 ^ p := by exact_mod_cast hm
  -- it is enough to know a distance that is large for the greater number
  have key : ∀ d : ℚ, b ≤ 2 ^ p * d → a + d ≤ b → a ≤ b * (1 - 1 / 2 ^ p) := by
    intro d hbd hd
    have hle : b / 2 ^ p ≤ d := by
      rw [div_le_iff₀ hp, mul_comm]
      exact hbd
    calc a ≤ b - b / 2 ^ p := by linarith
      _ = b * (1 - 1 / 2 ^ p) := by ring
  have two : ∀ n : ℤ, (0 : ℚ) < 2 ^ n := fun n => by positivity
  -- both are multiples of the smaller power of two
  rcases le_total e f with hef | hfe
  · obtain ⟨n, hn⟩ := Int.eq_ofNat_of_zero_le (sub_nonneg.mpr hef)
    have hf : (2 : ℚ) ^ f = 2 ^ n * 2 ^ e := by
      rw [← zpow_natCast, ← zpow_add₀ two_ne_zero]
      congr 1
      omega
    refine key (2 ^ e) (by rw [hmb]; exact mul_le_mul_of_nonneg_right hm.le (two e).le) ?_
    have hlt : k * 2 ^ n < m := by
      have h' : ((k * 2 ^ n : ℕ) : ℚ) * 2 ^ e < m * 2 ^ e := by
        rw [hka, hmb, hf, ← mul_assoc] at h
        push_cast
        exact h
      exact_mod_cast lt_of_mul_lt_mul_right h' (two e).le
    have hle : ((k * 2 ^ n : ℕ) : ℚ) + 1 ≤ m := by exact_mod_cast hlt
    calc a + 2 ^ e = (((k * 2 ^ n : ℕ) : ℚ) + 1) * 2 ^ e := by
          rw [hka, hf]
          push_cast
          ring
      _ ≤ m * 2 ^ e := mul_le_mul_of_nonneg_right hle (two e).le
      _ = b := hmb.symm
  · obtain ⟨n, hn⟩ := Int.eq_ofNat_of_zero_le (sub_nonneg.mpr hfe)
    have he : (2 : ℚ) ^ e = 2 ^ n * 2 ^ f := by
      rw [← zpow_natCast, ← zpow_add₀ two_ne_zero]
      congr 1
      omega
    rcases le_total b (2 ^ p * 2 ^ f) with hb | hb
    · refine key (2 ^ f) hb ?_
      have hlt : k < m * 2 ^ n := by
        have h' : (k : ℚ) * 2 ^ f < ((m * 2 ^ n : ℕ) : ℚ) * 2 ^ f := by
          rw [hka, hmb, he, ← mul_assoc] at h
          push_cast
          exact h
        exact_mod_cast lt_of_mul_lt_mul_right h' (two f).le
      have hle : (k : ℚ) + 1 ≤ ((m * 2 ^ n : ℕ) : ℚ) := by exact_mod_cast hlt
      calc a + 2 ^ f = ((k : ℚ) + 1) * 2 ^ f := by
            rw [hka]
            ring
        _ ≤ ((m * 2 ^ n : ℕ) : ℚ) * 2 ^ f := mul_le_mul_of_nonneg_right hle (two f).le
        _ = b := by
            rw [hmb, he]
            push_cast
            ring
    · -- the greater number is beyond all numbers with the exponent of the other
      calc a ≤ (2 ^ p - 1) * 2 ^ f := by
            rw [hka]
            exact mul_le_mul_of_nonneg_right (by linarith) (two f).le
        _ = 2 ^ p * 2 ^ f * (1 - 1 / 2 ^ p) := by
            field_simp
        _ ≤ b * (1 - 1 / 2 ^ p) := by
            refine mul_le_mul_of_nonneg_right hb ?_
            have hone : (1 : ℚ) ≤ 2 ^ p := one_le_pow₀ one_le_two
            rw [sub_nonneg, div_le_one hp]
            exact hone

/-- Rounding does not close the gap. -/
theorem rounded_lt (hc : 0 < c) (hx : 0 ≤ x) (h : x ≤ c * (1 - 1 / 2 ^ p)) : rounded p x < c := by
  have hp : (0 : ℚ) < 2 ^ p := by positivity
  have hgap : c / 2 ^ p ≤ c - x := by
    have e : c * (1 - 1 / 2 ^ p) = c - c / 2 ^ p := by ring
    linarith
  rcases hx.eq_or_lt with rfl | hx
  · rwa [rounded_zero]
  have hxc : x < c := by
    have : 0 < c / 2 ^ p := by positivity
    linarith
  have hhalf : spacing p x / 2 ≤ x / 2 ^ p := by
    rw [div_le_div_iff₀ two_pos hp, mul_comm, two_pow_mul_spacing, zpow_add_one₀ two_ne_zero]
    exact mul_le_mul_of_nonneg_right (two_pow_log_le hx) zero_le_two
  have hstep := (abs_le.mp (abs_rounded_sub_le p x)).2
  have hlt : x / 2 ^ p < c / 2 ^ p := by gcongr
  linarith

/-- **The rounded ratio of two numbers of `p` bits**, times a number of `p` bits and rounded, is
that number when they are equal, and less otherwise. -/
theorem rounded_div_mul_eq_iff (hp : 0 < p) (ha : Representable p a) (hb : Representable p b)
    (hc : Representable p c) (ha₀ : 0 ≤ a) (hb₀ : 0 < b) (hc₀ : 0 < c) (hab : a ≤ b) :
    rounded p (rounded p (a / b) * c) = c ↔ a = b := by
  have hone := representable_one hp
  constructor
  · intro h
    by_contra hne
    have hgap : a / b ≤ 1 * (1 - 1 / 2 ^ p) := by
      rw [div_le_iff₀ hb₀, one_mul, mul_comm]
      exact ha.le_of_lt hb (hab.lt_of_ne hne)
    have hquot : 0 ≤ a / b := div_nonneg ha₀ hb₀.le
    have hle := (representable_rounded hp hquot).le_of_lt hone (rounded_lt one_pos hquot hgap)
    refine (rounded_lt hc₀ (mul_nonneg (rounded_nonneg hp hquot) hc₀.le) ?_).ne h
    calc rounded p (a / b) * c ≤ 1 * (1 - 1 / 2 ^ p) * c := mul_le_mul_of_nonneg_right hle hc₀.le
      _ = c * (1 - 1 / 2 ^ p) := by ring
  · rintro rfl
    rw [div_self hb₀.ne', rounded_eq hone, one_mul, rounded_eq hc]

/-- The rounded ratio of two numbers in order is a part of everything. -/
theorem rounded_div_mul_mem (hp : 0 < p) (hc : Representable p c) (ha₀ : 0 ≤ a) (hc₀ : 0 ≤ c)
    (hab : a ≤ b) :
    0 ≤ rounded p (rounded p (a / b) * c) ∧ rounded p (rounded p (a / b) * c) ≤ c := by
  have hone := representable_one hp
  have hquot : 0 ≤ a / b := div_nonneg ha₀ (ha₀.trans hab)
  have hle : rounded p (a / b) ≤ 1 := by
    have h := rounded_mono hp hquot (div_le_one_of_le₀ hab (ha₀.trans hab))
    rwa [rounded_eq hone] at h
  have hprod := mul_nonneg (rounded_nonneg hp hquot) hc₀
  refine ⟨rounded_nonneg hp hprod, ?_⟩
  have h := rounded_mono hp hprod (mul_le_of_le_one_left hc₀ hle)
  rwa [rounded_eq hc] at h

end CoreOS.Lib
