import CoreOS.Lib.BitFields
import CoreOS.Lib.Floats
import CoreOS.Lib.Machine

/-!
# The progress word

The 64-bit atomic in which a job keeps its stage (2 bits), the size of the stage (31 bits) and how
much of it is done (31 bits).

* `packed stage value` is the word `set_atomic` stores, with the masks of the source; `jobStage`,
  `jobToDo` and `jobDone` read its fields, and `getJobState` makes a report of them.
* `jobDone_packed_add`: the done field counts modulo `2 ^ 31`, whatever the size of the stage is.
* `word stage toDo done` is the same layout as a sum. `packed_eq` says that `set_atomic` stores it,
  `word_add` that increments count, `jobStage_word`, `jobToDo_word` and `jobDone_word` that the
  readings are the fields.
* `percentage`: what is reported of a stage, in the arithmetic of `float`. `percentage_eq_iff`: it
  is 100 when the size and what is done are not told apart, from `fullFrom` on.
* `wellDefined_word`: when a report is a percentage.
-/

namespace CoreOS.MapReduce

open CoreOS.Lib

/-! ## The layout -/

/-- `stage_t`. -/
inductive Stage
  | undefinedStage
  | mapStage
  | shuffleStage
  | reduceStage
  deriving DecidableEq, Repr

/-- The value of the enumerator. -/
def Stage.val : Stage → ℕ
  | undefinedStage => 0
  | mapStage => 1
  | shuffleStage => 2
  | reduceStage => 3

/-- `BITS_TODO_DONE`. -/
def bitsToDoDone : ℕ := 31

/-- `BITS_TODO_AND_DONE`. -/
def bitsToDoAndDone : ℕ := 62

/-- `MASK_STAGE`. -/
def maskStage : BitVec 64 := 0xC000000000000000#64

/-- `MASK_JOB_TO_D0`. -/
def maskJobToDo : BitVec 64 := 0x3FFFFFFF80000000#64

/-- `MASK_JOB_DONE`. -/
def maskJobDone : BitVec 64 := 0x7FFFFFFF#64

/-- The word that starts a stage of the given size.
Source: `MapReduceFramework.cpp`, `set_atomic` -/
def packed (stage : Stage) (value : ℕ) : BitVec 64 :=
  ((BitVec.ofNat 64 stage.val <<< bitsToDoAndDone) &&& maskStage) |||
    ((BitVec.ofNat 64 value <<< bitsToDoDone) &&& maskJobToDo)

/-- `progress & MASK_JOB_DONE`. -/
def jobDone (progress : BitVec 64) : ℕ := (progress &&& maskJobDone).toNat

/-- `(progress & MASK_JOB_TO_D0) >> BITS_TODO_DONE`. -/
def jobToDo (progress : BitVec 64) : ℕ := ((progress &&& maskJobToDo) >>> bitsToDoDone).toNat

/-- `stage_t((progress & MASK_STAGE) >> BITS_TODO_AND_DONE)`. -/
def jobStage (progress : BitVec 64) : Stage :=
  match ((progress &&& maskStage) >>> bitsToDoAndDone).toNat with
  | 0 => .undefinedStage
  | 1 => .mapStage
  | 2 => .shuffleStage
  | _ => .reduceStage

/-- The layout as a sum. -/
def word (stage : Stage) (toDo done : ℕ) : BitVec 64 :=
  BitVec.ofNat 64 (stage.val * 2 ^ 62 + toDo * 2 ^ 31 + done)

variable {stage : Stage} {value toDo done : ℕ}

/-! ## Writing -/

theorem Stage.val_lt : stage.val < 4 := by cases stage <;> decide

theorem Stage.val_injective : Function.Injective Stage.val := by
  intro stage stage' h
  cases stage <;> cases stage' <;> first | rfl | cases h

/-- **What `set_atomic` stores**: nothing done yet. -/
theorem packed_eq (h : value < 2 ^ 31) : packed stage value = word stage value 0 := by
  have hstage : ((BitVec.ofNat 64 stage.val <<< bitsToDoAndDone) &&& maskStage).toNat =
      2 ^ 62 * stage.val := by
    cases stage <;> decide
  have hmask : maskJobToDo.toNat = (2 ^ 31 - 1) <<< 31 := by decide
  have hvalue : ((BitVec.ofNat 64 value <<< bitsToDoDone) &&& maskJobToDo).toNat =
      value * 2 ^ 31 := by
    rw [BitVec.toNat_and, BitVec.toNat_shiftLeft, BitVec.toNat_ofNat, hmask, bitsToDoDone,
      Nat.mod_eq_of_lt (by omega), Nat.shiftLeft_eq, Nat.mod_eq_of_lt (by omega),
      ← Nat.shiftLeft_eq, ← Nat.shiftLeft_and_distrib, Nat.and_two_pow_sub_one_eq_mod,
      Nat.mod_eq_of_lt h, Nat.shiftLeft_eq]
  have hlt : stage.val < 4 := Stage.val_lt
  apply BitVec.eq_of_toNat_eq
  rw [packed, BitVec.toNat_or, hstage, hvalue, ← Nat.two_pow_add_eq_or_of_lt (by omega), word,
    BitVec.toNat_ofNat, Nat.mod_eq_of_lt (by omega)]
  ring

/-- The word of a job that has not begun. -/
theorem word_undefinedStage : word .undefinedStage 0 0 = 0 := by
  simp [word, Stage.val]

/-- An increment counts. -/
theorem word_add (k : ℕ) :
    word stage toDo done + BitVec.ofNat 64 k = word stage toDo (done + k) := by
  rw [word, word, ← BitVec.ofNat_add, Nat.add_assoc]

/-! ## Reading -/

/-- The done field is the lowest 31 bits. -/
theorem jobDone_eq_mod (w : BitVec 64) : jobDone w = w.toNat % 2 ^ 31 := by
  have hmask : maskJobDone.toNat = 2 ^ 31 - 1 := by decide
  rw [jobDone, BitVec.toNat_and, hmask, Nat.and_two_pow_sub_one_eq_mod]

/-- The done field. -/
theorem jobDone_word (hd : done < 2 ^ 31) : jobDone (word stage toDo done) = done := by
  rw [jobDone_eq_mod, word, BitVec.toNat_ofNat]
  omega

/-- The done field of a stage of any size, after any number of increments. -/
theorem jobDone_packed_add (k : ℕ) :
    jobDone (packed stage value + BitVec.ofNat 64 k) = k % 2 ^ 31 := by
  have hzero : (packed stage value).toNat % 2 ^ 31 = 0 := by
    have hstage : maskStage.toNat % 2 ^ 31 = 0 := by decide
    have htodo : maskJobToDo.toNat % 2 ^ 31 = 0 := by decide
    rw [packed, BitVec.toNat_or, BitVec.toNat_and, BitVec.toNat_and, Nat.or_mod_two_pow,
      Nat.and_mod_two_pow, Nat.and_mod_two_pow, hstage, htodo, Nat.and_zero, Nat.and_zero,
      Nat.or_zero]
  rw [jobDone_eq_mod, BitVec.toNat_add, BitVec.toNat_ofNat]
  omega

/-- The word as a number. -/
theorem toNat_word (ht : toDo < 2 ^ 31) (hd : done < 2 ^ 31) :
    (word stage toDo done).toNat = stage.val * 2 ^ 62 + toDo * 2 ^ 31 + done := by
  have hlt : stage.val < 4 := Stage.val_lt
  rw [word, BitVec.toNat_ofNat, Nat.mod_eq_of_lt (by omega)]

/-- The size field. -/
theorem jobToDo_word (ht : toDo < 2 ^ 31) (hd : done < 2 ^ 31) :
    jobToDo (word stage toDo done) = toDo := by
  have hmask : maskJobToDo.toNat = (2 ^ 31 - 1) <<< 31 := by decide
  rw [jobToDo, bitsToDoDone, toNat_mask_shift hmask, toNat_word ht hd]
  omega

/-- The stage field. -/
theorem jobStage_word (ht : toDo < 2 ^ 31) (hd : done < 2 ^ 31) :
    jobStage (word stage toDo done) = stage := by
  have hmask : maskStage.toNat = (2 ^ 2 - 1) <<< 62 := by decide
  have hlt : stage.val < 4 := Stage.val_lt
  have hval : ((word stage toDo done &&& maskStage) >>> bitsToDoAndDone).toNat = stage.val := by
    rw [bitsToDoAndDone, toNat_mask_shift hmask, toNat_word ht hd]
    omega
  rw [jobStage, hval]
  cases stage <;> rfl

/-! ## Reporting -/

/-- `HANDLE_PERCENTAGES`. -/
def handlePercentages : ℕ := 100

/-- The nearest `float`, a number of 24 significant bits. What is computed for a report is far from
the bounds of the exponent. -/
def toFloat (x : ℚ) : ℚ := rounded 24 x

/-- `((float) done / (float) to_do) * HANDLE_PERCENTAGES`, rounded at each step. -/
def percentage (done toDo : ℕ) : ℚ :=
  toFloat (toFloat (toFloat done / toFloat toDo) * toFloat handlePercentages)

/-- `JobState`; the percentage is `none` where it is not a number. -/
structure JobState where
  /-- `stage`. -/
  stage : Stage
  /-- `percentage`. -/
  percentage : Option ℚ
  deriving DecidableEq

/-- The report on a job whose progress word is the given one.
Source: `MapReduceFramework.cpp`, `getJobState` -/
def getJobState (progress : BitVec 64) : JobState where
  stage := jobStage progress
  percentage :=
    if jobToDo progress = 0 then none
    else some (percentage (jobDone progress) (jobToDo progress))

section floats

variable {d size : ℕ}

theorem toFloat_eq (h : d ≤ 2 ^ 24) : toFloat d = d :=
  rounded_eq (representable_natCast h (by decide))

theorem toFloat_mono (h : d ≤ size) : toFloat d ≤ toFloat size :=
  rounded_mono (by decide) (by positivity) (by exact_mod_cast h)

theorem toFloat_nonneg (d : ℕ) : 0 ≤ toFloat d := rounded_nonneg (by decide) (by positivity)

theorem toFloat_pos (h : 0 < d) : 0 < toFloat d := by
  have hone : toFloat ((1 : ℕ) : ℚ) = (1 : ℕ) := toFloat_eq (by decide)
  have hle : toFloat ((1 : ℕ) : ℚ) ≤ toFloat d := toFloat_mono h
  rw [hone] at hle
  exact lt_of_lt_of_le (by norm_num) hle

theorem representable_toFloat (d : ℕ) : Representable 24 (toFloat d) :=
  representable_rounded (by decide) (by positivity)

theorem toFloat_handlePercentages : toFloat handlePercentages = handlePercentages :=
  toFloat_eq (by decide)

/-- What is reported lies between 0 and 100. -/
theorem percentage_mem (h : done ≤ toDo) :
    0 ≤ percentage done toDo ∧ percentage done toDo ≤ handlePercentages := by
  rw [percentage, toFloat_handlePercentages]
  exact rounded_div_mul_mem (by decide) (representable_natCast (by decide) (by decide))
    (toFloat_nonneg done) (by positivity) (toFloat_mono h)

/-- **When 100 is reported**: when the two fields are converted to the same `float`. -/
theorem percentage_eq_iff (hne : toDo ≠ 0) (h : done ≤ toDo) :
    percentage done toDo = handlePercentages ↔ toFloat done = toFloat toDo := by
  rw [percentage, toFloat_handlePercentages]
  exact rounded_div_mul_eq_iff (by decide) (representable_toFloat done) (representable_toFloat toDo)
    (representable_natCast (by decide) (by decide)) (toFloat_nonneg done)
    (toFloat_pos (Nat.pos_of_ne_zero hne)) (by norm_num [handlePercentages]) (toFloat_mono h)

/-- With one bit more the last element does not show. -/
example : percentage (2 ^ 24) (2 ^ 24 + 1) = handlePercentages := by
  rw [percentage_eq_iff (by decide) (by decide), toFloat_eq le_rfl]
  have hlog : Int.log 2 |((2 ^ 24 + 1 : ℕ) : ℚ)| = 24 := by
    rw [Nat.abs_cast, Int.log_natCast,
      Nat.log_eq_of_pow_le_of_lt_pow (m := 24) (by norm_num) (by norm_num)]
    rfl
  have hspacing : spacing 24 ((2 ^ 24 + 1 : ℕ) : ℚ) = 2 := by
    rw [spacing, hlog]
    norm_num
  have hfloor : ⌊((2 ^ 24 + 1 : ℕ) : ℚ) / 2⌋ = 2 ^ 23 := by
    rw [Int.floor_eq_iff]
    norm_num
  rw [toFloat, rounded, hspacing, nearestEven, Int.fract, hfloor]
  norm_num

end floats

/-- What is divided by is not zero, and the percentage is a number from 0 to 100. -/
def WellDefined (progress : BitVec 64) : Prop :=
  jobToDo progress ≠ 0 ∧
    ∃ p, (getJobState progress).percentage = some p ∧ 0 ≤ p ∧ p ≤ handlePercentages

/-- **When a report is a percentage**: when there is something to do. -/
theorem wellDefined_word (ht : toDo < 2 ^ 31) (hle : done ≤ toDo) :
    WellDefined (word stage toDo done) ↔ toDo ≠ 0 := by
  have hd : done < 2 ^ 31 := by omega
  rw [WellDefined, getJobState, jobToDo_word ht hd, jobDone_word hd]
  exact ⟨And.left, fun hne => ⟨hne, _, if_neg hne, percentage_mem hle⟩⟩

end CoreOS.MapReduce
