import Mathlib.Data.List.TakeWhile
import Mathlib.Data.List.Basic

/-!
# Bytes in memory

* `overwrite buf offset xs`: a copy of `xs` into a buffer; `overwrite_overwrite` joins two copies of
  which one continues the other.
* `cString nul buf`: the string that a buffer holds up to its first terminator, if it has one.
  `cString_of_terminated` and `cString_of_full` are the two cases.
-/

namespace CoreOS.Lib

variable {α : Type*} {buf xs ys : List α} {offset : ℕ}

/-! ## Copying -/

/-- The buffer with `xs` copied to the offset. -/
def overwrite (buf : List α) (offset : ℕ) (xs : List α) : List α :=
  buf.take offset ++ xs ++ buf.drop (offset + xs.length)

@[simp] theorem overwrite_nil : overwrite buf offset [] = buf := by
  simp [overwrite]

@[simp] theorem length_overwrite (h : offset + xs.length ≤ buf.length) :
    (overwrite buf offset xs).length = buf.length := by
  simp only [overwrite, List.length_append, List.length_take, List.length_drop]
  omega

/-- A copy that continues another one. -/
theorem overwrite_overwrite (h : offset ≤ buf.length) :
    overwrite (overwrite buf offset xs) (offset + xs.length) ys =
      overwrite buf offset (xs ++ ys) := by
  have hfront : (buf.take offset ++ xs).length = offset + xs.length := by
    rw [List.length_append, List.length_take, min_eq_left h]
  have htake : (overwrite buf offset xs).take (offset + xs.length) = buf.take offset ++ xs :=
    List.take_left' hfront
  have hdrop :
      (overwrite buf offset xs).drop (offset + xs.length) = buf.drop (offset + xs.length) :=
    List.drop_left' hfront
  rw [overwrite, htake, ← List.drop_drop, hdrop, List.drop_drop, overwrite, List.length_append,
    Nat.add_assoc, List.append_assoc (buf.take offset)]

/-- Filling a buffer from its start. -/
theorem overwrite_zero : overwrite buf 0 xs = xs ++ buf.drop xs.length := by
  rw [overwrite, List.take_zero, List.nil_append, Nat.zero_add]

/-! ## Strings -/

section strings

variable [DecidableEq α] {nul : α}

/-- The string up to the first terminator; `none` if there is no terminator in the buffer. -/
def cString (nul : α) (buf : List α) : Option (List α) :=
  if nul ∈ buf then some (buf.takeWhile (· ≠ nul)) else none

/-- A string with a terminator behind it. -/
theorem cString_of_terminated (h : nul ∉ xs) : cString nul (xs ++ nul :: ys) = some xs := by
  have hxs : ∀ x ∈ xs, decide (x ≠ nul) = true := by
    intro x hx
    rw [decide_eq_true_eq]
    rintro rfl
    exact h hx
  rw [cString, if_pos (List.mem_append_right _ List.mem_cons_self),
    List.takeWhile_append_of_pos hxs]
  simp

/-- A buffer full of other bytes. -/
theorem cString_of_full (h : nul ∉ xs) : cString nul xs = none := if_neg h

end strings

end CoreOS.Lib
