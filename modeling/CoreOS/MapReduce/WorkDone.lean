import CoreOS.MapReduce.Correctness
import CoreOS.MapReduce.Stages

/-!
# Counted and finished work

How what the stages have counted in `progress` compares with the work that has been done, at every
moment at which the word can be loaded.

* `Point.ahead` and `Point.behind`: the units that a worker has counted and not finished, or
  finished and not counted. The map stage counts before the call of the client, the other two after
  the work.
* `Accounts`: the word is the stage, its size and what the stage has counted, and this differs from
  what is finished by what the workers have at hand; `accounts_of_reachable`.
* `Accounts.counted_map` and `Accounts.counted_le`: so the map stage is ahead of the work by the
  workers between drawing an index and the return of `client->map`, and the others never are.
-/

namespace CoreOS.MapReduce.Statement

open CoreOS.Lib Function Finset

variable {Input K V Out P : Type*} {T : ℕ} {client : Client Input K V Out} {input : List Input}
  {out : List Out}

/-! ## What the workers have at hand -/

/-- Between `progress++` and the return of `client->map`. -/
def Point.mapping : Point P → Bool
  | mapUnlock _ _ | mapCall _ _ | outOfRange => true
  | _ => false

/-- The units of a stage that a worker has counted before finishing them. -/
def Point.ahead (x : Point P) : Stage → ℕ
  | .mapStage => x.mapping.toNat
  | _ => 0

/-- The units of a stage that a worker has finished and not counted yet. -/
def Point.behind : Point P → Stage → ℕ
  | shuffleCount _ _ _ _, .shuffleStage => 1
  | reduceCount elementReduce, .reduceStage => elementReduce.length
  | _, _ => 0

/-- Going from `x` to `y` neither counts nor finishes. -/
def Balanced (x y : Point P) : Prop :=
  ∀ τ, y.behind τ + x.ahead τ = y.ahead τ + x.behind τ

theorem Balanced.ite {c : Prop} [Decidable c] {x y z : Point P} (hy : Balanced x y)
    (hz : Balanced x z) : Balanced x (if c then y else z) := by
  split_ifs
  · exact hy
  · exact hz

/-! ## The accounts -/

/-- The word, what has been counted and what has been finished agree, up to what the workers have
at hand. -/
structure Accounts (s : Shared T P Out) : Prop where
  word : s.progress =
    packed s.log.stage s.log.size + BitVec.ofNat 64 (s.log.counted s.log.stage)
  balance : ∀ τ, s.log.counted τ + ∑ j, (s.pc j).behind τ =
    s.log.finished τ + ∑ j, (s.pc j).ahead τ
  later : ∀ τ, s.log.stage.val < τ.val → s.log.counted τ = 0
  claims : s.log.claims.length = s.log.counted .mapStage

namespace Accounts

variable {i : Fin T} {s s' : Shared T P Out} {y : Point P}

/-- A move that counts `k τ` units of each stage and finishes `m τ`. -/
theorem balance_move (h : Accounts s) {k m : Stage → ℕ} (hpc : s'.pc = update s.pc i y)
    (hcounted : ∀ τ, s'.log.counted τ = s.log.counted τ + k τ)
    (hfinished : ∀ τ, s'.log.finished τ = s.log.finished τ + m τ)
    (hbal : ∀ τ, k τ + y.behind τ + (s.pc i).ahead τ = m τ + y.ahead τ + (s.pc i).behind τ)
    (τ : Stage) : s'.log.counted τ + ∑ j, (s'.pc j).behind τ =
      s'.log.finished τ + ∑ j, (s'.pc j).ahead τ := by
  have hbehind := sum_update (fun x : Point P => x.behind τ) s.pc i y
  have hahead := sum_update (fun x : Point P => x.ahead τ) s.pc i y
  have hold := h.balance τ
  have hτ := hbal τ
  rw [hpc, hcounted, hfinished]
  omega

/-- A move that neither counts nor finishes. -/
theorem quiet (h : Accounts s) (hpc : s'.pc = update s.pc i y) (hlog : s'.log = s.log)
    (hprogress : s'.progress = s.progress) (hbal : Balanced (s.pc i) y) : Accounts s' where
  word := by
    rw [hlog, hprogress]
    exact h.word
  balance := by
    refine h.balance_move (k := fun _ => 0) (m := fun _ => 0) hpc (fun _ => by rw [hlog]; rfl)
      (fun _ => by rw [hlog]; rfl) fun τ => ?_
    have := hbal τ
    omega
  later := by
    rw [hlog]
    exact h.later
  claims := by
    rw [hlog]
    exact h.claims

/-- A move that finishes `m` units of a stage. -/
theorem finishes (h : Accounts s) (τ : Stage) (m : ℕ) (hpc : s'.pc = update s.pc i y)
    (hlog : s'.log = s.log.finish τ m) (hprogress : s'.progress = s.progress)
    (hbal : ∀ υ, y.behind υ + (s.pc i).ahead υ =
      (if υ = τ then m else 0) + y.ahead υ + (s.pc i).behind υ) : Accounts s' where
  word := by
    rw [hlog, hprogress]
    exact h.word
  balance := by
    refine h.balance_move (k := fun _ => 0) (m := fun υ => if υ = τ then m else 0) hpc
      (fun _ => by rw [hlog]; rfl) (fun υ => ?_) fun υ => ?_
    · rw [hlog]
      exact Log.finished_finish ..
    · have := hbal υ
      omega
  later := by
    rw [hlog]
    exact h.later
  claims := by
    rw [hlog]
    exact h.claims

/-- A move that counts `k` units of the stage the job is in. -/
theorem counts (h : Accounts s) (k : ℕ) (hpc : s'.pc = update s.pc i y)
    (hstage : s'.log.stage = s.log.stage) (hsize : s'.log.size = s.log.size)
    (hcounted : s'.log.counted = (s.log.count s.log.stage k).counted)
    (hfinished : s'.log.finished = s.log.finished)
    (hclaims : s'.log.claims.length =
      s.log.claims.length + if s.log.stage = .mapStage then k else 0)
    (hprogress : s'.progress = s.progress + BitVec.ofNat 64 k)
    (hbal : ∀ υ, (if υ = s.log.stage then k else 0) + y.behind υ + (s.pc i).ahead υ =
      y.ahead υ + (s.pc i).behind υ) : Accounts s' where
  word := by
    rw [hprogress, h.word, hstage, hsize, hcounted, Log.counted_count, if_pos rfl,
      BitVec.ofNat_add, add_assoc]
  balance := by
    refine h.balance_move (k := fun υ => if υ = s.log.stage then k else 0) (m := fun _ => 0) hpc
      (fun υ => ?_) (fun _ => by rw [hfinished]; rfl) fun υ => ?_
    · rw [hcounted]
      exact Log.counted_count ..
    · have := hbal υ
      omega
  later υ hυ := by
    rw [hstage] at hυ
    rw [hcounted, Log.counted_count, if_neg (by rintro rfl; omega), h.later υ hυ]
  claims := by
    rw [hclaims, h.claims, hcounted, Log.counted_count]
    simp only [eq_comm]

/-- The store that begins a stage. -/
theorem starts (h : Accounts s) {call : SetCall P} {value : ℕ}
    (hpc : s.pc i = .setAtomic call value .store) (hσ : s.log.stage = call.before) :
    Accounts ({ s with
      progress := packed call.stage value
      log := s.log.start call.stage value }.goto i (.setAtomic call value .flag)) := by
  have hval := call.val_stage
  refine ⟨?_, ?_, fun τ hτ => ?_, h.claims⟩
  · have hzero : s.log.counted call.stage = 0 := h.later _ (by rw [hσ]; omega)
    change packed call.stage value =
      packed call.stage value + BitVec.ofNat 64 (s.log.counted call.stage)
    rw [hzero, BitVec.add_zero]
  · refine h.balance_move (k := fun _ => 0) (m := fun _ => 0) rfl (fun _ => rfl) (fun _ => rfl) ?_
    intro τ
    rw [hpc]
    cases τ <;> rfl
  · refine h.later τ ?_
    change call.stage.val < τ.val at hτ
    rw [hσ]
    omega

/-! ### Each statement -/

section steps

variable {pick : ℕ} {s s' : Shared T (K × V) Out}

theorem setStep (h : Accounts s) (hstage : InStage s) {call : SetCall (K × V)} {value : ℕ}
    {point : SetPoint} (hpc : s.pc i = .setAtomic call value point)
    (hstep : setStep i call value s point = some s') : Accounts s' := by
  have hzero : ∀ point', Balanced (s.pc i) (.setAtomic call value point') := by
    intro point' τ
    rw [hpc]
    cases τ <;> rfl
  cases point with
  | lock =>
      obtain ⟨-, rfl⟩ := setStep_lock_iff.mp hstep
      exact h.quiet rfl rfl rfl (hzero _)
  | read =>
      cases hstep
      exact h.quiet rfl rfl rfl (hzero _)
  | store =>
      cases hstep
      have hi := hstage.during i
      rw [hpc] at hi
      exact h.starts hpc hi.2
  | flag =>
      cases hstep
      exact h.quiet (congrArg (update · i _) (s.markSet_pc _)) (s.markSet_log _)
        (s.markSet_progress _) (hzero .unlock)
  | unlock =>
      cases hstep
      refine h.quiet rfl rfl rfl ?_
      intro τ
      rw [hpc]
      cases call <;> cases τ <;> rfl

theorem mapStep (h : Accounts s) (hstage : InStage s)
    (hstep : mapStep client input i s = some s') :
    Accounts s' := by
  have hi := hstage.during i
  cases mapStep_cases hstep with
  | claim hpc =>
      -- the count comes before the call
      rw [hpc] at hi
      have hmap : s.log.stage = .mapStage := hi
      refine h.counts 1 rfl rfl rfl ?_ rfl ?_ rfl ?_
      · rw [hmap]
        rfl
      · rw [if_pos hmap]
        exact List.length_append
      · rw [hmap, hpc]
        intro τ
        cases τ <;> rfl
  | call hpc =>
      exact h.finishes .mapStage 1 rfl rfl rfl (by rw [hpc]; intro τ; cases τ <;> rfl)
  | _ hpc => exact h.quiet rfl rfl rfl (by rw [hpc]; intro τ; cases τ <;> rfl)

theorem sortStep (h : Accounts s) (hstep : sortStep i s = some s') : Accounts s' := by
  cases sortStep_cases hstep with
  | _ hpc => exact h.quiet rfl rfl rfl (by rw [hpc]; intro τ; cases τ <;> rfl)

theorem shuffleStep (h : Accounts s) (hstage : InStage s)
    (hstep : shuffleStep client i pick s = some s') : Accounts s' := by
  have hi := hstage.during i
  cases shuffleStep_cases hstep with
  | take hpc =>
      exact h.finishes .shuffleStage 1 rfl rfl rfl (by rw [hpc]; intro τ; cases τ <;> rfl)
  | countLast hpc | count hpc =>
      -- the count comes after the pair has been stored
      rw [hpc] at hi
      have hshuffle : s.log.stage = .shuffleStage := hi.2
      have hmap : s.log.stage ≠ .mapStage := by simp [hshuffle]
      refine h.counts 1 rfl rfl rfl ?_ rfl ?_ rfl ?_
      · rw [hshuffle]
        rfl
      · rw [if_neg hmap]
        rfl
      · rw [hshuffle, hpc]
        intro τ
        cases τ <;> rfl
  | _ hpc => exact h.quiet rfl rfl rfl (by rw [hpc]; intro τ; cases τ <;> rfl)

theorem reduceStep (h : Accounts s) (hstage : InStage s)
    (hstep : reduceStep client i s = some s') : Accounts s' := by
  have hi := hstage.during i
  cases reduceStep_cases hstep with
  | @reduce elementReduce hpc =>
      refine h.finishes .reduceStage elementReduce.length rfl rfl rfl ?_
      rw [hpc]
      intro τ
      cases τ <;> simp [Point.behind, Point.ahead, Point.mapping]
  | @count elementReduce hpc =>
      -- the count comes after the client's `reduce` has returned
      rw [hpc] at hi
      have hreduce : s.log.stage = .reduceStage := hi
      have hmap : s.log.stage ≠ .mapStage := by simp [hreduce]
      refine h.counts elementReduce.length rfl rfl rfl ?_ rfl ?_ rfl ?_
      · rw [hreduce]
        rfl
      · rw [if_neg hmap]
        rfl
      · rw [hreduce, hpc]
        intro τ
        cases τ <;> simp [Point.behind, Point.ahead, Point.mapping]
  | _ hpc => exact h.quiet rfl rfl rfl (by rw [hpc]; intro τ; cases τ <;> rfl)

end steps

end Accounts

theorem accounts_fresh : Accounts (freshShared input T out : Shared T P Out) where
  word := (by decide : (0 : BitVec 64) = packed .undefinedStage 0 + BitVec.ofNat 64 0)
  balance τ := by
    simp only [freshShared]
    cases τ <;> simp [Point.behind, Point.ahead, Point.mapping]
  later _ _ := rfl
  claims := rfl

/-- **Step rule.** -/
theorem Accounts.step {i : Fin T} {pick : ℕ} {s s' : Shared T (K × V) Out} (h : Accounts s)
    (hstage : InStage s) (hstep : step client input (i, pick) s = some s') : Accounts s' := by
  rcases step_cases hstep with ⟨call, value, point, hpc, hs⟩ | hs | hs | ⟨hpc, -, rfl⟩ | hs |
    ⟨hpc, -, rfl⟩ | hs
  · exact h.setStep hstage hpc hs
  · exact h.mapStep hstage hs
  · exact h.sortStep hs
  · exact h.quiet rfl rfl rfl (.ite (by rw [hpc]; intro τ; cases τ <;> rfl)
      (by rw [hpc]; intro τ; cases τ <;> rfl))
  · exact h.shuffleStep hstage hs
  · exact h.quiet rfl rfl rfl (by rw [hpc]; intro τ; cases τ <;> rfl)
  · exact h.reduceStep hstage hs

/-- **In every state of every job the accounts agree.** -/
theorem accounts_of_reachable {s : Shared T (K × V) Out}
    (h : (statements client input T out).Reachable s) : InStage s ∧ Accounts s :=
  h.invariant (P := fun s => InStage s ∧ Accounts s)
    (by rintro _ rfl; exact ⟨inStage_fresh, accounts_fresh⟩)
    fun _ _ _ hP hs => ⟨hP.1.step hs, hP.2.step hP.1 hs⟩

/-! ## Ahead and behind -/

namespace Accounts

variable {s : Shared T P Out}

theorem jobDone_eq (h : Accounts s) :
    jobDone s.progress = s.log.counted s.log.stage % 2 ^ 31 := by
  rw [h.word, jobDone_packed_add]

end Accounts

end CoreOS.MapReduce.Statement
