import CoreOS.MapReduce.StatementCases

/-!
# The stage a job is in

What `set_atomic`, its mutex, its three flags and the two barriers amount to: each stage is begun
by one store to `progress`, and nobody is at a statement that belongs to another stage.

* `Point.during`: the stages in which a worker can be at a point.
* `Leads`: how a worker moves outside `set_atomic` and the barriers; `step_cases` says that every
  step is such a move, a step of `set_atomic` or the leaving of a barrier.
* `InStage`: the invariant; `inStage_of_reachable`.
-/

namespace CoreOS.MapReduce.Statement

open CoreOS.Lib Function

variable {Input K V Out P : Type*} {T : ℕ} {client : Client Input K V Out} {input : List Input}
  {out : List Out}

/-! ## Points and stages -/

/-- The stage before the one that a call of `set_atomic` sets. -/
def SetCall.before : SetCall P → Stage
  | map => .undefinedStage
  | shuffle _ => .mapStage
  | reduce => .shuffleStage

/-- Only the main worker makes the call. -/
def SetCall.ofMain : SetCall P → Bool
  | shuffle _ => true
  | _ => false

theorem SetCall.val_stage (call : SetCall P) : call.stage.val = call.before.val + 1 := by
  cases call <;> rfl

/-- The job can be in a stage while a worker, the main one or not, is at a point. -/
def Point.during (main : Prop) : Point P → Stage → Prop
  | setAtomic call _ .lock, σ | setAtomic call _ .read, σ =>
      (call.ofMain = true → main) ∧ (σ = call.before ∨ σ = call.stage)
  | setAtomic call _ .store, σ => (call.ofMain = true → main) ∧ σ = call.before
  | setAtomic call _ .flag, σ | setAtomic call _ .unlock, σ =>
      (call.ofMain = true → main) ∧ σ = call.stage
  | mapTest _, σ | mapLock _, σ | mapCheck _, σ | mapDone _, σ | mapBreak _, σ | mapClaim _, σ
  | mapUnlock _ _, σ | mapCall _ _, σ | mapPush _ _, σ | mapLeft _, σ | sort _, σ
  | sortPush _ _, σ | sortUnlock _, σ | outOfRange, σ => σ = .mapStage
  | barrier, σ => σ = .mapStage ∨ (¬ main ∧ σ = .shuffleStage)
  | shuffleCollect, σ => main ∧ σ = .mapStage
  | shuffleTop _, σ | shuffleLoop _ _ _, σ | shuffleCount _ _ _ _, σ
  | shufflePush _ _ _, σ | shufflePost _ _, σ | noTop, σ => main ∧ σ = .shuffleStage
  | barrierReduce, σ => (¬ main ∧ σ = .mapStage) ∨ σ = .shuffleStage ∨ σ = .reduceStage
  | reduceFlag, σ | returned, σ => σ = .shuffleStage ∨ σ = .reduceStage
  | reduceTest, σ | semWait, σ | reduceRetest, σ | reduceLock, σ | reduceTake, σ
  | reducing _, σ | reduceCount _, σ | reduceUnlock, σ | semPost, σ | noFront, σ =>
      σ = .reduceStage

theorem SetCall.phase_next (call : SetCall P) (value : ℕ) (point : SetPoint) :
    (call.next : Point P).phase = (Point.setAtomic call value point).phase := by
  cases call <;> rfl

theorem SetCall.phase_setAtomic (call : SetCall P) (value : ℕ) (point point' : SetPoint) :
    (Point.setAtomic call value point).phase = (Point.setAtomic call value point').phase := by
  cases call <;> rfl

theorem SetCall.free_next (call : SetCall P) : (call.next : Point P).holdsSetAtomic = false := by
  cases call <;> rfl

/-- In the first statement of a stage's code, the stage has begun. -/
theorem SetCall.during_next {call : SetCall P} {main : Prop} (h : call.ofMain = true → main) :
    call.next.during main call.stage := by
  cases call with
  | map | reduce => rfl
  | shuffle allPairs => exact ⟨h rfl, rfl⟩

section begin

variable {main : Prop} {x : Point P}

/-- Nobody else is at a store while a worker holds the mutex; so the others, about to call
`set_atomic`, can be there when the map stage has begun as well. -/
theorem Point.during_mapStage (h : x.during main .undefinedStage)
    (hfree : x.holdsSetAtomic = false) : x.during main .mapStage := by
  cases x with
  | setAtomic call value point =>
      cases point with
      | lock =>
          cases call with
          | map => exact ⟨h.1, .inr rfl⟩
          | shuffle | reduce => rcases h.2 with h | h <;> cases h
      | _ => cases hfree
  | barrier => rcases h with h | ⟨-, h⟩ <;> cases h
  | shuffleCollect | shuffleTop | shuffleLoop | shuffleCount | shufflePush | shufflePost | noTop =>
      cases h.2
  | barrierReduce => rcases h with ⟨-, h⟩ | h | h <;> cases h
  | reduceFlag | returned => rcases h with h | h <;> cases h
  | _ => cases h

/-- Once all have arrived at the first barrier, the main worker can begin the shuffle stage. -/
theorem Point.during_shuffleStage (h : x.during main .mapStage) (hmain : ¬ main)
    (hphase : 1 ≤ x.phase) (hfree : x.holdsSetAtomic = false) : x.during main .shuffleStage := by
  have hzero : ¬ 1 ≤ 0 := Nat.not_succ_le_zero 0
  cases x with
  | setAtomic call value point =>
      cases point with
      | lock =>
          cases call with
          | map => exact absurd hphase hzero
          | shuffle => exact absurd (h.1 rfl) hmain
          | reduce => rcases h.2 with h | h <;> cases h
      | _ => cases hfree
  | barrier => exact .inr ⟨hmain, rfl⟩
  | barrierReduce => exact .inr (.inl rfl)
  | shuffleCollect | shuffleTop | shuffleLoop | shuffleCount | shufflePush | shufflePost | noTop =>
      exact absurd h.1 hmain
  | reduceFlag | returned => rcases h with h | h <;> cases h
  | reduceTest | semWait | reduceRetest | reduceLock | reduceTake | reducing | reduceCount
  | reduceUnlock | semPost | noFront => cases h
  | _ => exact absurd hphase hzero

/-- Once all have arrived at the second barrier, a worker can begin the reduce stage. -/
theorem Point.during_reduceStage (h : x.during main .shuffleStage) (hphase : 3 ≤ x.phase)
    (hfree : x.holdsSetAtomic = false) : x.during main .reduceStage := by
  cases x with
  | setAtomic call value point =>
      cases point with
      | lock =>
          cases call with
          | map => exact absurd hphase (by decide : ¬ 3 ≤ 0)
          | shuffle => exact absurd hphase (by decide : ¬ 3 ≤ 2)
          | reduce => exact ⟨h.1, .inr rfl⟩
      | _ => cases hfree
  | barrierReduce => exact .inr (.inr rfl)
  | reduceFlag | returned => exact .inr rfl
  | barrier => exact absurd hphase (by decide : ¬ 3 ≤ 1)
  | shuffleCollect | shuffleTop | shuffleLoop | shuffleCount | shufflePush | shufflePost | noTop =>
      exact absurd hphase (by decide : ¬ 3 ≤ 2)
  | _ => cases h

/-- Until the shuffle stage begins, nobody but the others than the main worker is past the first
barrier. -/
theorem Point.not_during_mapStage (h : x.during main .mapStage) (hmain : main) :
    x.phase ≤ 2 := by
  cases x with
  | setAtomic call value point =>
      cases call with
      | map => exact Nat.zero_le _
      | shuffle => exact le_rfl
      | reduce =>
          cases point with
          | lock | read => rcases h.2 with h | h <;> cases h
          | _ => cases h.2
  | barrierReduce =>
      rcases h with ⟨h, -⟩ | h | h
      · exact absurd hmain h
      · cases h
      · cases h
  | reduceFlag | returned => rcases h with h | h <;> cases h
  | reduceTest | semWait | reduceRetest | reduceLock | reduceTake | reducing | reduceCount
  | reduceUnlock | semPost | noFront => cases h
  | _ => simp [phase]

/-- In `shuffle_phase` there is only the main worker. -/
theorem Point.main_of_during {σ : Stage} (h : x.during main σ) (hphase : x.phase = 2) : main := by
  cases x with
  | setAtomic call value point =>
      cases call with
      | shuffle allPairs => cases point <;> exact h.1 rfl
      | _ => cases hphase
  | shuffleCollect | shuffleTop | shuffleLoop | shuffleCount | shufflePush | shufflePost | noTop =>
      exact h.1
  | _ => cases hphase

/-- Beginning a stage leaves every other worker at a point that belongs to it. -/
theorem Point.during_stage {call : SetCall P} (h : x.during main call.before)
    (hfree : x.holdsSetAtomic = false) (hmain : call.ofMain = true → ¬ main)
    (hshuffle : 2 ≤ (call.next : Point P).phase → 1 ≤ x.phase)
    (hreduce : 4 ≤ (call.next : Point P).phase → 3 ≤ x.phase) : x.during main call.stage := by
  cases call with
  | map => exact during_mapStage h hfree
  | shuffle allPairs => exact during_shuffleStage h (hmain rfl) (hshuffle le_rfl) hfree
  | reduce => exact during_reduceStage h (hreduce le_rfl) hfree

end begin

/-! ## Moves outside `set_atomic` -/

/-- A worker can go from `x` to `y` in any stage in which it can be at `x`, without crossing a
barrier or the mutex of `set_atomic`. -/
structure Leads (x y : Point P) : Prop where
  during : ∀ main σ, x.during main σ → y.during main σ
  phase : x.phase ≤ y.phase
  barrier : 2 ≤ y.phase → 2 ≤ x.phase
  barrierReduce : 4 ≤ y.phase → 4 ≤ x.phase
  free : x.holdsSetAtomic = false
  free_after : y.holdsSetAtomic = false

/-- The worker `i` goes to `y`, and what `set_atomic` writes stays. -/
structure Moves (i : Fin T) (s s' : Shared T P Out) (y : Point P) : Prop where
  pc : s'.pc = update s.pc i y
  stage : s'.log.stage = s.log.stage
  isSet : ∀ τ, s'.isSet τ = s.isSet τ
  mutex : s'.mutexSetAtomic = s.mutexSetAtomic

/-- A move from one statement to another of the same phase. -/
theorem Leads.within {x y : Point P} (hduring : ∀ main σ, x.during main σ → y.during main σ)
    (hphase : y.phase = x.phase) (hfree : x.holdsSetAtomic = false)
    (hfree' : y.holdsSetAtomic = false) : Leads x y :=
  ⟨hduring, hphase.ge, fun h => hphase ▸ h, fun h => hphase ▸ h, hfree, hfree'⟩

section steps

variable {i : Fin T} {pick : ℕ} {s s' : Shared T (K × V) Out}

theorem mapStep_leads (h : mapStep client input i s = some s') :
    ∃ y, Moves i s s' y ∧ Leads (s.pc i) y := by
  cases mapStep_cases h with
  | _ hpc =>
      rw [hpc]
      exact ⟨_, ⟨rfl, rfl, fun _ => rfl, rfl⟩, .within (fun _ _ h => h) rfl rfl rfl⟩

theorem sortStep_leads (h : sortStep i s = some s') :
    ∃ y, Moves i s s' y ∧ Leads (s.pc i) y := by
  cases sortStep_cases h with
  | finish hpc =>
      -- to the barrier
      rw [hpc]
      exact ⟨_, ⟨rfl, rfl, fun _ => rfl, rfl⟩,
        ⟨fun _ _ h => .inl h, Nat.zero_le _, nofun, nofun, rfl, rfl⟩⟩
  | _ hpc =>
      rw [hpc]
      exact ⟨_, ⟨rfl, rfl, fun _ => rfl, rfl⟩, .within (fun _ _ h => h) rfl rfl rfl⟩

theorem shuffleStep_leads (h : shuffleStep client i pick s = some s') :
    ∃ y, Moves i s s' y ∧ Leads (s.pc i) y := by
  cases shuffleStep_cases h with
  | collect hpc =>
      rw [hpc]
      exact ⟨_, ⟨rfl, rfl, fun _ => rfl, rfl⟩,
        .within (fun _ _ h => ⟨fun _ => h.1, .inl h.2⟩) rfl rfl rfl⟩
  | finish hpc =>
      -- to the second barrier
      rw [hpc]
      exact ⟨_, ⟨rfl, rfl, fun _ => rfl, rfl⟩,
        ⟨fun _ _ h => .inr (.inl h.2), (by decide : 2 ≤ 3), fun _ => le_rfl,
          fun h => absurd h (by decide : ¬ 4 ≤ 3), rfl, rfl⟩⟩
  | _ hpc =>
      rw [hpc]
      exact ⟨_, ⟨rfl, rfl, fun _ => rfl, rfl⟩, .within (fun _ _ h => h) rfl rfl rfl⟩

theorem reduceStep_leads (h : reduceStep client i s = some s') :
    ∃ y, Moves i s s' y ∧ Leads (s.pc i) y := by
  cases reduceStep_cases h with
  | begin hpc =>
      rw [hpc]
      exact ⟨_, ⟨rfl, rfl, fun _ => rfl, rfl⟩, .within (fun _ _ h => ⟨nofun, h⟩) rfl rfl rfl⟩
  | post hpc =>
      rw [hpc]
      exact ⟨_, ⟨rfl, rfl, fun _ => rfl, rfl⟩, .within (fun _ _ h => .inr h) rfl rfl rfl⟩
  | _ hpc =>
      rw [hpc]
      exact ⟨_, ⟨rfl, rfl, fun _ => rfl, rfl⟩, .within (fun _ _ h => h) rfl rfl rfl⟩

end steps

/-! ## The invariant -/

/-- Nobody is past a barrier at which somebody has not arrived. -/
structure Phased (pc : Fin T → Point P) : Prop where
  barrier : ∀ i j, 2 ≤ (pc i).phase → 1 ≤ (pc j).phase
  barrierReduce : ∀ i j, 4 ≤ (pc i).phase → 3 ≤ (pc j).phase

/-- A worker gets further, and past a barrier only if all have arrived. -/
theorem Phased.move {pc : Fin T → Point P} (h : Phased pc) {i : Fin T} {y : Point P}
    (hle : (pc i).phase ≤ y.phase)
    (hbarrier : 2 ≤ y.phase → 2 ≤ (pc i).phase ∨ ∀ j, 1 ≤ (pc j).phase)
    (hreduce : 4 ≤ y.phase → 4 ≤ (pc i).phase ∨ ∀ j, 3 ≤ (pc j).phase) :
    Phased (update pc i y) := by
  have hge : ∀ j, (pc j).phase ≤ (update pc i y j).phase := by
    intro j
    by_cases hj : j = i
    · rw [hj, update_self]
      exact hle
    · rw [update_of_ne hj]
  constructor
  · intro k j hk
    refine le_trans ?_ (hge j)
    by_cases hki : k = i
    · rw [hki, update_self] at hk
      rcases hbarrier hk with hi | hall
      · exact h.barrier i j hi
      · exact hall j
    · rw [update_of_ne hki] at hk
      exact h.barrier k j hk
  · intro k j hk
    refine le_trans ?_ (hge j)
    by_cases hki : k = i
    · rw [hki, update_self] at hk
      rcases hreduce hk with hi | hall
      · exact h.barrierReduce i j hi
      · exact hall j
    · rw [update_of_ne hki] at hk
      exact h.barrierReduce k j hk

theorem Phased.within {pc : Fin T → Point P} (h : Phased pc) {i : Fin T} {y : Point P}
    (hphase : y.phase = (pc i).phase) : Phased (update pc i y) :=
  h.move hphase.ge (fun hy => .inl (hphase ▸ hy)) fun hy => .inl (hphase ▸ hy)

/-- Every stage is begun once, in its turn, and everybody is at a point that belongs to the stage
the job is in. -/
structure InStage (s : Shared T P Out) : Prop where
  owned : Owned Point.holdsSetAtomic s.pc s.mutexSetAtomic
  phased : Phased s.pc
  during : ∀ j : Fin T, (s.pc j).during (j.val = 0) s.log.stage
  /-- A flag that is up is the flag of a stage that has begun. -/
  begun : ∀ τ, s.isSet τ = true → τ.val ≤ s.log.stage.val
  /-- The flag of a stage that has begun is up, or about to be. -/
  flagged : ∀ τ, τ.val ≤ s.log.stage.val →
    s.isSet τ = true ∨ ∃ j call value, s.pc j = .setAtomic call value .flag ∧ call.stage = τ

namespace InStage

variable {i : Fin T} {s s' : Shared T P Out}

/-- What a move keeps that writes neither `progress` nor a flag. -/
theorem keep (h : InStage s) {y : Point P} (hpc : s'.pc = update s.pc i y)
    (hstage : s'.log.stage = s.log.stage) (hisSet : ∀ τ, s'.isSet τ = s.isSet τ)
    (howned : Owned Point.holdsSetAtomic s'.pc s'.mutexSetAtomic)
    (hphased : Phased (update s.pc i y)) (hduring : y.during (i.val = 0) s.log.stage)
    (hflag : ∀ call value, s.pc i ≠ .setAtomic call value .flag) : InStage s' where
  owned := howned
  phased := by
    rw [hpc]
    exact hphased
  during j := by
    rw [hpc, hstage]
    by_cases hj : j = i
    · rw [hj, update_self]
      exact hduring
    · rw [update_of_ne hj]
      exact h.during j
  begun τ hτ := by
    rw [hstage]
    exact h.begun τ (hisSet τ ▸ hτ)
  flagged τ hτ := by
    rw [hstage] at hτ
    rw [hisSet, hpc]
    refine (h.flagged τ hτ).imp_right ?_
    rintro ⟨j, call, value, hj, hcall⟩
    have hne : j ≠ i := by
      rintro rfl
      exact hflag call value hj
    exact ⟨j, call, value, by rw [update_of_ne hne, hj], hcall⟩

theorem leads (h : InStage s) {y : Point P} (hmoves : Moves i s s' y)
    (hleads : Leads (s.pc i) y) : InStage s' := by
  refine h.keep hmoves.pc hmoves.stage hmoves.isSet ?_ ?_ (hleads.during _ _ (h.during i)) ?_
  · rw [hmoves.pc, hmoves.mutex]
    exact h.owned.keep (by rw [hleads.free, hleads.free_after])
  · exact h.phased.move hleads.phase (fun hy => .inl (hleads.barrier hy))
      fun hy => .inl (hleads.barrierReduce hy)
  · intro call value hpc
    have hfree := hleads.free
    rw [hpc] at hfree
    cases hfree

/-- Leaving the first barrier. -/
theorem leave_barrier (h : InStage s) (hpc : s.pc i = .barrier)
    (hall : ∀ j, 1 ≤ (s.pc j).phase) :
    InStage (s.goto i (if i.val = 0 then .shuffleCollect else .barrierReduce)) := by
  have hi := h.during i
  rw [hpc] at hi
  by_cases hmain : i.val = 0
  · rw [if_pos hmain]
    refine h.keep rfl rfl (fun _ => rfl) (h.owned.keep (by rw [hpc]; rfl))
      (h.phased.move (by simp [hpc, Point.phase]) (fun _ => .inr hall) nofun) ?_ (by simp [hpc])
    exact ⟨hmain, hi.resolve_right fun h => h.1 hmain⟩
  · rw [if_neg hmain]
    refine h.keep rfl rfl (fun _ => rfl) (h.owned.keep (by rw [hpc]; rfl))
      (h.phased.move (by simp [hpc, Point.phase]) (fun _ => .inr hall) nofun) ?_ (by simp [hpc])
    exact hi.imp (fun h => ⟨hmain, h⟩) fun h => .inl h.2

/-- Leaving the second barrier: the main worker is there too, so the shuffle stage has begun. -/
theorem leave_barrierReduce (h : InStage s) (hpc : s.pc i = .barrierReduce)
    (hall : ∀ j, 3 ≤ (s.pc j).phase) : InStage (s.goto i .reduceFlag) := by
  refine h.keep rfl rfl (fun _ => rfl) (h.owned.keep (by rw [hpc]; rfl))
    (h.phased.move (by simp [hpc, Point.phase]) (fun _ => .inl (by simp [hpc, Point.phase]))
      fun _ => .inr hall) ?_ (by simp [hpc])
  have hi := h.during i
  rw [hpc] at hi
  refine hi.resolve_left ?_
  rintro ⟨-, hmap⟩
  have hzero := h.during ⟨0, i.pos⟩
  have hphase := hall ⟨0, i.pos⟩
  rw [hmap] at hzero
  have := Point.not_during_mapStage hzero rfl
  omega

/-! ### In `set_atomic` -/

section setAtomic

variable {call : SetCall P} {value : ℕ} {point : SetPoint}

theorem setStep_lock (h : InStage s) (hpc : s.pc i = .setAtomic call value .lock)
    (hfree : s.mutexSetAtomic = none) :
    InStage ({ s with mutexSetAtomic := some i }.goto i (.setAtomic call value .read)) := by
  have hi := h.during i
  rw [hpc] at hi
  have howned := h.owned
  rw [hfree] at howned
  exact h.keep rfl rfl (fun _ => rfl) (howned.acquire rfl)
    (h.phased.within (by rw [hpc, SetCall.phase_setAtomic])) hi (by simp [hpc])

/-- The flag says whether the stage has begun. -/
theorem setStep_read (h : InStage s) (hpc : s.pc i = .setAtomic call value .read) :
    InStage (s.goto i
      (.setAtomic call value (if s.isSet call.stage then .unlock else .store))) := by
  have hi := h.during i
  rw [hpc] at hi
  obtain ⟨hmain, hσ⟩ := hi
  have hval := call.val_stage
  by_cases hset : s.isSet call.stage = true
  · rw [if_pos hset]
    refine h.keep rfl rfl (fun _ => rfl) (h.owned.keep (by rw [hpc]; rfl))
      (h.phased.within (by rw [hpc, SetCall.phase_setAtomic])) ⟨hmain, hσ.resolve_left ?_⟩
      (by simp [hpc])
    intro hbefore
    have := h.begun _ hset
    rw [hbefore] at this
    omega
  · rw [if_neg hset]
    refine h.keep rfl rfl (fun _ => rfl) (h.owned.keep (by rw [hpc]; rfl))
      (h.phased.within (by rw [hpc, SetCall.phase_setAtomic])) ⟨hmain, hσ.resolve_right ?_⟩
      (by simp [hpc])
    intro hstage
    rcases h.flagged call.stage (by rw [hstage]) with hset' | ⟨j, call', value', hj, -⟩
    · exact hset hset'
    · -- whoever is at the flag would hold the mutex as well
      have hji : j = i := h.owned.unique (by rw [hj]; rfl) (by rw [hpc]; rfl)
      rw [hji, hpc] at hj
      cases hj

theorem setStep_store (h : InStage s) (hpc : s.pc i = .setAtomic call value .store) :
    InStage ({ s with
      progress := packed call.stage value
      log := s.log.start call.stage value }.goto i (.setAtomic call value .flag)) := by
  have hi := h.during i
  rw [hpc] at hi
  obtain ⟨hmain, hσ⟩ := hi
  have hval := call.val_stage
  have hphase : (call.next : Point P).phase = (s.pc i).phase := by
    rw [hpc, SetCall.phase_next]
  refine ⟨h.owned.keep (by rw [hpc]; rfl),
    h.phased.within (by rw [hpc, SetCall.phase_setAtomic]), ?_, ?_, ?_⟩
  · intro j
    by_cases hj : j = i
    · rw [hj]
      change (update s.pc i _ i).during _ call.stage
      rw [update_self]
      exact ⟨hmain, rfl⟩
    · change (update s.pc i _ j).during _ call.stage
      rw [update_of_ne hj]
      have hfree : (s.pc j).holdsSetAtomic = false := by
        by_contra hholds
        exact hj (h.owned.unique (by simpa using hholds) (by rw [hpc]; rfl))
      refine Point.during_stage (hσ ▸ h.during j) hfree ?_ ?_ ?_
      · intro hof hj0
        exact hj (Fin.ext (hj0.trans (hmain hof).symm))
      · intro h2
        exact h.phased.barrier i j (hphase ▸ h2)
      · intro h4
        exact h.phased.barrierReduce i j (hphase ▸ h4)
  · intro τ hτ
    have := h.begun τ hτ
    rw [hσ] at this
    change τ.val ≤ call.stage.val
    omega
  · intro τ hτ
    change τ.val ≤ call.stage.val at hτ
    by_cases hle : τ.val ≤ call.before.val
    · refine (h.flagged τ (hσ ▸ hle)).imp_right ?_
      rintro ⟨j, call', value', hj, hcall⟩
      have hne : j ≠ i := by
        rintro rfl
        rw [hpc] at hj
        cases hj
      exact ⟨j, call', value', (update_of_ne hne ..).trans hj, hcall⟩
    · exact .inr ⟨i, call, value, update_self .., Stage.val_injective (by omega)⟩

theorem setStep_flag (h : InStage s) (hpc : s.pc i = .setAtomic call value .flag) :
    InStage ((s.markSet call.stage).goto i (.setAtomic call value .unlock)) := by
  have hi := h.during i
  rw [hpc] at hi
  have hpc' : ((s.markSet call.stage).goto i (.setAtomic call value .unlock)).pc =
      update s.pc i (.setAtomic call value .unlock) := by
    rw [Shared.goto, Shared.markSet_pc]
  have hstage : ((s.markSet call.stage).goto i (.setAtomic call value .unlock)).log.stage =
      s.log.stage := by
    rw [Shared.goto, Shared.markSet_log]
  refine ⟨?_, ?_, ?_, ?_, ?_⟩
  · rw [hpc', Shared.goto, Shared.markSet_mutexSetAtomic]
    exact h.owned.keep (by rw [hpc]; rfl)
  · rw [hpc']
    exact h.phased.within (by rw [hpc, SetCall.phase_setAtomic])
  · intro j
    rw [hpc', hstage]
    by_cases hj : j = i
    · rw [hj, update_self]
      exact hi
    · rw [update_of_ne hj]
      exact h.during j
  · intro τ hτ
    rw [hstage]
    rcases Shared.isSet_markSet.mp hτ with hset | rfl
    · exact h.begun τ hset
    · rw [hi.2]
  · intro τ hτ
    rw [hstage] at hτ
    rw [hpc']
    rcases h.flagged τ hτ with hset | ⟨j, call', value', hj, hcall⟩
    · exact .inl (Shared.isSet_markSet.mpr (.inl hset))
    · by_cases hji : j = i
      · rw [hji, hpc] at hj
        cases hj
        exact .inl (Shared.isSet_markSet.mpr (.inr hcall.symm))
      · exact .inr ⟨j, call', value', by rw [update_of_ne hji, hj], hcall⟩

theorem setStep_unlock (h : InStage s) (hpc : s.pc i = .setAtomic call value .unlock) :
    InStage ({ s with mutexSetAtomic := none }.goto i call.next) := by
  have hi := h.during i
  rw [hpc] at hi
  refine h.keep rfl rfl (fun _ => rfl) (h.owned.release (by rw [hpc]; rfl) call.free_next)
    (h.phased.within (by rw [hpc, SetCall.phase_next])) ?_ (by simp [hpc])
  rw [hi.2]
  exact SetCall.during_next hi.1

theorem setStep (h : InStage s) (hpc : s.pc i = .setAtomic call value point)
    (hstep : setStep i call value s point = some s') : InStage s' := by
  cases point with
  | lock =>
      obtain ⟨hfree, rfl⟩ := setStep_lock_iff.mp hstep
      exact h.setStep_lock hpc hfree
  | read =>
      cases hstep
      exact h.setStep_read hpc
  | store =>
      cases hstep
      exact h.setStep_store hpc
  | flag =>
      cases hstep
      exact h.setStep_flag hpc
  | unlock =>
      cases hstep
      exact h.setStep_unlock hpc

end setAtomic

end InStage

theorem inStage_fresh : InStage (freshShared input T out : Shared T P Out) where
  owned _ := ⟨nofun, nofun⟩
  phased := ⟨nofun, nofun⟩
  during _ := ⟨nofun, .inl rfl⟩
  begun τ hτ := by cases τ <;> first | exact le_rfl | cases hτ
  flagged τ hτ := by
    have : τ = .undefinedStage := Stage.val_injective (Nat.le_zero.mp hτ)
    exact .inl (by rw [this]; rfl)

/-- **Step rule.** -/
theorem InStage.step {i : Fin T} {pick : ℕ} {s s' : Shared T (K × V) Out} (h : InStage s)
    (hstep : step client input (i, pick) s = some s') : InStage s' := by
  rcases step_cases hstep with ⟨call, value, point, hpc, hs⟩ | hs | hs | ⟨hpc, hall, rfl⟩ | hs |
    ⟨hpc, hall, rfl⟩ | hs
  · exact h.setStep hpc hs
  · obtain ⟨y, hmoves, hleads⟩ := mapStep_leads hs
    exact h.leads hmoves hleads
  · obtain ⟨y, hmoves, hleads⟩ := sortStep_leads hs
    exact h.leads hmoves hleads
  · exact h.leave_barrier hpc hall
  · obtain ⟨y, hmoves, hleads⟩ := shuffleStep_leads hs
    exact h.leads hmoves hleads
  · exact h.leave_barrierReduce hpc hall
  · obtain ⟨y, hmoves, hleads⟩ := reduceStep_leads hs
    exact h.leads hmoves hleads

/-- **In every state of every job, each worker is at a point of the stage the job is in.** -/
theorem inStage_of_reachable {s : Shared T (K × V) Out}
    (h : (statements client input T out).Reachable s) : InStage s :=
  h.invariant (by rintro _ rfl; exact inStage_fresh) fun _ _ _ hP hs => hP.step hs

end CoreOS.MapReduce.Statement
