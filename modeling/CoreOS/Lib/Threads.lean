import CoreOS.Lib.Machine

/-!
# Threads that share a mutex

What proofs about a fixed set of threads, each at a program point, use again and again.

* `tally P pc`: how many threads are at a point that satisfies `P`; `tally_update` says what one
  thread moving does to it.
* `Owned holds pc m`: the mutex `m` is held by the one thread whose point holds it, if there is
  one. `Owned.acquire`, `Owned.release` and `Owned.keep` are the three kinds of move.
-/

namespace CoreOS.Lib

open Finset Function

variable {ι π : Type*} [DecidableEq ι] {P : π → Bool} {pc : ι → π} {i j : ι} {x : π}

/-- What holds of every thread's point, and of the point one of them moves to, holds of every
thread's point after the move. -/
theorem forall_update {p : π → Prop} (h : ∀ j, p (pc j)) (hx : p x) (j : ι) :
    p (update pc i x j) := by
  by_cases hj : j = i
  · subst hj
    rwa [update_self]
  · rw [update_of_ne hj]
    exact h j

/-! ## Counting threads -/

section tally

variable [Fintype ι]

/-- The number of threads at a point that satisfies `P`. -/
def tally (P : π → Bool) (pc : ι → π) : ℕ := #{i | P (pc i)}

/-- One thread moves from `pc i` to `x`, for any sum over the threads. -/
theorem sum_update {M : Type*} [AddCommMonoid M] (f : π → M) (pc : ι → π) (i : ι) (x : π) :
    ∑ j, f (update pc i x j) + f (pc i) = ∑ j, f (pc j) + f x := by
  rw [← sum_erase_add univ _ (mem_univ i), ← sum_erase_add univ (fun j => f (pc j)) (mem_univ i),
    update_self]
  have hrest : ∑ j ∈ univ.erase i, f (update pc i x j) = ∑ j ∈ univ.erase i, f (pc j) :=
    sum_congr rfl fun j hj => by rw [update_of_ne (ne_of_mem_erase hj)]
  rw [hrest, add_right_comm]

omit [DecidableEq ι] in
theorem tally_eq_sum (P : π → Bool) (pc : ι → π) : tally P pc = ∑ j, (P (pc j)).toNat := by
  rw [tally, card_filter]
  exact sum_congr rfl fun j _ => by cases P (pc j) <;> rfl

/-- One thread moves from `pc i` to `x`. -/
theorem tally_update (P : π → Bool) (pc : ι → π) (i : ι) (x : π) :
    tally P (update pc i x) + (P (pc i)).toNat = tally P pc + (P x).toNat := by
  rw [tally_eq_sum, tally_eq_sum, sum_update fun y => (P y).toNat]

/-- A move that does not change `P` leaves the tally alone. -/
theorem tally_update_same (h : P x = P (pc i)) : tally P (update pc i x) = tally P pc := by
  have := tally_update P pc i x
  rw [h] at this
  omega

/-- A move to a point that satisfies `P` adds one. -/
theorem tally_update_enter (h : P (pc i) = false) (hx : P x = true) :
    tally P (update pc i x) = tally P pc + 1 := by
  have := tally_update P pc i x
  simpa [h, hx] using this

/-- A move away from the points that satisfy `P` takes one off. -/
theorem tally_update_leave (h : P (pc i) = true) (hx : P x = false) :
    tally P (update pc i x) + 1 = tally P pc := by
  have := tally_update P pc i x
  simpa [h, hx] using this

omit [DecidableEq ι] in
theorem tally_eq_zero : tally P pc = 0 ↔ ∀ i, P (pc i) = false := by
  simp [tally, filter_eq_empty_iff]

omit [DecidableEq ι] in
theorem exists_of_tally_pos (h : 0 < tally P pc) : ∃ i, P (pc i) = true := by
  obtain ⟨i, hi⟩ := card_pos.mp h
  exact ⟨i, by simpa using hi⟩

/-- A tally of all threads but one leaves no other thread out. -/
theorem of_tally_add_one (h : tally P pc + 1 = Fintype.card ι) (hi : P (pc i) = false)
    (hj : j ≠ i) : P (pc j) = true := by
  by_contra hP
  have hsub : ({k | P (pc k)} : Finset ι) ⊆ (univ.erase i).erase j := by
    intro k hk
    have hk : P (pc k) = true := by simpa using hk
    refine mem_erase.mpr ⟨fun e => hP (e ▸ hk), mem_erase.mpr ⟨?_, mem_univ k⟩⟩
    intro e
    rw [e, hi] at hk
    cases hk
  have hle := card_le_card hsub
  rw [card_erase_of_mem (mem_erase.mpr ⟨hj, mem_univ j⟩), card_erase_of_mem (mem_univ i),
    card_univ] at hle
  have hlt : 1 < Fintype.card ι := Fintype.one_lt_card_iff.mpr ⟨j, i, hj⟩
  unfold tally at h
  omega

end tally

/-! ## The mutex -/

/-- The mutex `m` is held by exactly the thread whose point holds it. -/
def Owned (holds : π → Bool) (pc : ι → π) (m : Option ι) : Prop :=
  ∀ i, m = some i ↔ holds (pc i) = true

namespace Owned

variable {holds : π → Bool} {m : Option ι}

omit [DecidableEq ι] in
/-- Two threads that hold the mutex are one. -/
theorem unique (h : Owned holds pc m) (hi : holds (pc i) = true) (hj : holds (pc j) = true) :
    i = j := by
  have hm := (h i).mpr hi
  rw [(h j).mpr hj] at hm
  exact (Option.some.inj hm).symm

/-- A free mutex is taken. -/
theorem acquire (h : Owned holds pc none) (hx : holds x = true) :
    Owned holds (update pc i x) (some i) := by
  intro j
  by_cases hj : j = i
  · subst hj
    simp [hx]
  · have hfree : holds (pc j) = false := by simpa using (h j).not.mp nofun
    simp [hj, hfree, Ne.symm hj]

/-- The holder lets go. -/
theorem release (h : Owned holds pc m) (hi : holds (pc i) = true) (hx : holds x = false) :
    Owned holds (update pc i x) none := by
  intro j
  by_cases hj : j = i
  · subst hj
    simp [hx]
  · have hfree : holds (pc j) = false := by
      by_contra hP
      exact hj (h.unique (by simpa using hP) hi)
    simp [hj, hfree]

/-- A move that neither takes nor releases. -/
theorem keep (h : Owned holds pc m) (hx : holds x = holds (pc i)) :
    Owned holds (update pc i x) m := by
  intro j
  by_cases hj : j = i
  · subst hj
    rw [h j, update_self, hx]
  · rw [h j, update_of_ne hj]

end Owned

end CoreOS.Lib
