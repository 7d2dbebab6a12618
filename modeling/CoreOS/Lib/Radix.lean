import Mathlib

/-!
# Numbers of a fixed number of digits, most significant digit first

* `toDigits b n p`: the `n` lowest digits of `p` in base `b`.
* `ofDigits b r`: the number with the digits `r`; `ofDigits_cons` and `ofDigits_snoc` take it apart
  at either end.
* `ofDigits_toDigits`, `toDigits_ofDigits`: the two are inverse to each other.
* `ofDigits_lt`: a bound on the first digit bounds the number; `toDigits_head_lt` is the converse.
* `ofDigits_lt_ofDigits`: numbers compare as their digits do.
-/

namespace CoreOS.Lib

/-- The `n` lowest digits of `p` in base `b`, most significant digit first. -/
def toDigits (b : ℕ) : ℕ → ℕ → List ℕ
  | 0, _ => []
  | n + 1, p => toDigits b n (p / b) ++ [p % b]

/-- The number whose digits in base `b` are `r`, most significant digit first. -/
def ofDigits (b : ℕ) (r : List ℕ) : ℕ := r.foldl (fun t d => t * b + d) 0

variable {b : ℕ}

@[simp] theorem ofDigits_nil : ofDigits b [] = 0 := rfl

/-- Appending a digit. -/
theorem ofDigits_snoc (r : List ℕ) (d : ℕ) : ofDigits b (r ++ [d]) = ofDigits b r * b + d := by
  simp only [ofDigits, List.foldl_append, List.foldl_cons, List.foldl_nil]

/-- Prepending a digit. -/
theorem ofDigits_cons (d : ℕ) (r : List ℕ) :
    ofDigits b (d :: r) = d * b ^ r.length + ofDigits b r := by
  induction r using List.reverseRecOn with
  | nil => simp [ofDigits]
  | append_singleton r e ih =>
      rw [← List.cons_append, ofDigits_snoc, ih, ofDigits_snoc, List.length_append,
        List.length_singleton, pow_succ]
      ring

/-! ## Length and range -/

@[simp] theorem length_toDigits (n p : ℕ) : (toDigits b n p).length = n := by
  induction n generalizing p with
  | zero => rfl
  | succ n ih => rw [toDigits, List.length_append, ih, List.length_singleton]

/-- Every digit is below the base. -/
theorem toDigits_lt (hb : 0 < b) {n p d : ℕ} (hd : d ∈ toDigits b n p) : d < b := by
  induction n generalizing p with
  | zero => exact absurd hd (by simp [toDigits])
  | succ n ih =>
      rw [toDigits, List.mem_append, List.mem_singleton] at hd
      rcases hd with hd | rfl
      · exact ih hd
      · exact Nat.mod_lt p hb

/-- A number of `n` digits is below `b ^ n`. -/
theorem ofDigits_lt_pow {r : List ℕ} (hr : ∀ d ∈ r, d < b) : ofDigits b r < b ^ r.length := by
  induction r using List.reverseRecOn with
  | nil => simp
  | append_singleton r d ih =>
      have hd : d < b := hr d (by simp)
      have hlt : ofDigits b r + 1 ≤ b ^ r.length := ih fun e he => hr e (by simp [he])
      rw [ofDigits_snoc, List.length_append, List.length_singleton, pow_succ]
      calc ofDigits b r * b + d < ofDigits b r * b + b := by omega
        _ = (ofDigits b r + 1) * b := by ring
        _ ≤ b ^ r.length * b := Nat.mul_le_mul_right b hlt

/-- A bound on the first digit bounds the number. -/
theorem ofDigits_lt {d c : ℕ} {r : List ℕ} (hd : d < c) (hr : ∀ e ∈ r, e < b) :
    ofDigits b (d :: r) < c * b ^ r.length := by
  have hlt := ofDigits_lt_pow hr
  rw [ofDigits_cons]
  calc d * b ^ r.length + ofDigits b r < d * b ^ r.length + b ^ r.length := by omega
    _ = (d + 1) * b ^ r.length := by ring
    _ ≤ c * b ^ r.length := Nat.mul_le_mul_right _ hd

/-- Numbers of the same number of digits compare as their digits do. -/
theorem ofDigits_lt_ofDigits {r r' : List ℕ} (hlen : r.length = r'.length) (hr : ∀ d ∈ r, d < b)
    (hr' : ∀ d ∈ r', d < b) : ofDigits b r < ofDigits b r' ↔ r < r' := by
  induction r generalizing r' with
  | nil =>
      obtain rfl : r' = [] := List.length_eq_zero_iff.mp hlen.symm
      simp
  | cons d r ih =>
      obtain ⟨d', r', rfl⟩ := List.exists_cons_of_length_eq_add_one hlen.symm
      have hlen' : r.length = r'.length := Nat.succ.inj hlen
      have hr₁ : ∀ e ∈ r, e < b := fun e he => hr e (by simp [he])
      have hr₁' : ∀ e ∈ r', e < b := fun e he => hr' e (by simp [he])
      have hlt : ofDigits b r < b ^ r'.length := hlen' ▸ ofDigits_lt_pow hr₁
      have hlt' := ofDigits_lt_pow hr₁'
      rw [ofDigits_cons, ofDigits_cons, hlen', List.cons_lt_cons_iff, ← ih hlen' hr₁ hr₁']
      rcases lt_trichotomy d d' with hd | rfl | hd
      · -- the first digit decides
        have hle : (d + 1) * b ^ r'.length ≤ d' * b ^ r'.length := Nat.mul_le_mul_right _ hd
        rw [Nat.add_mul, Nat.one_mul] at hle
        exact iff_of_true (by omega) (.inl hd)
      · simp
      · have hle : (d' + 1) * b ^ r'.length ≤ d * b ^ r'.length := Nat.mul_le_mul_right _ hd
        rw [Nat.add_mul, Nat.one_mul] at hle
        exact iff_of_false (by omega) (by omega)

/-! ## Round trips -/

/-- The digits of a number of at most `n` digits give the number back. -/
theorem ofDigits_toDigits {n p : ℕ} (hp : p < b ^ n) : ofDigits b (toDigits b n p) = p := by
  induction n generalizing p with
  | zero =>
      rw [pow_zero, Nat.lt_one_iff] at hp
      rw [hp]
      rfl
  | succ n ih =>
      rw [pow_succ] at hp
      rw [toDigits, ofDigits_snoc, ih (Nat.div_lt_of_lt_mul (by rwa [mul_comm] at hp)),
        Nat.div_add_mod']

/-- The digits of the number with the digits `r` are `r`. -/
theorem toDigits_ofDigits {r : List ℕ} (hr : ∀ d ∈ r, d < b) :
    toDigits b r.length (ofDigits b r) = r := by
  induction r using List.reverseRecOn with
  | nil => rfl
  | append_singleton r d ih =>
      have hd : d < b := hr d (by simp)
      have hdiv : (ofDigits b r * b + d) / b = ofDigits b r := by
        rw [mul_comm, Nat.mul_add_div (by omega), Nat.div_eq_of_lt hd, add_zero]
      have hmod : (ofDigits b r * b + d) % b = d := by
        rw [mul_comm, Nat.mul_add_mod, Nat.mod_eq_of_lt hd]
      rw [List.length_append, List.length_singleton, toDigits, ofDigits_snoc, hdiv, hmod,
        ih fun e he => hr e (by simp [he])]

/-- A bound on the number bounds its first digit. -/
theorem toDigits_head_lt {n p c d : ℕ} {r : List ℕ}
    (h : toDigits b (n + 1) p = d :: r) (hp : p < b ^ (n + 1)) (hc : p < c * b ^ n) : d < c := by
  have hlen : r.length = n := by
    have := congrArg List.length h
    rw [length_toDigits, List.length_cons] at this
    omega
  have hval : p = d * b ^ n + ofDigits b r := by
    rw [← hlen, ← ofDigits_cons, ← h, ofDigits_toDigits hp]
  by_contra hge
  have : c * b ^ n ≤ d * b ^ n := Nat.mul_le_mul_right _ (Nat.le_of_not_lt hge)
  omega

end CoreOS.Lib
