import CoreOS.MapReduce.Distribution

/-!
# Statements inside sections

What a section of a mutex is, one statement after the other.

* `Point.job`: where a worker is between two sections, given the statement it is at. A section
  counts as taken at the statement after which nobody can tell the difference: a stage begins with
  the store to `progress`, a group is taken with `front()`, and what the main worker still has to
  add for a pair, and a worker for a group it has reduced, is added at once (`Point.owes`,
  `Point.posts`, `Point.groups`).
* `Point.Knows`: what a worker has read at an earlier statement of its section is still so.
* `Informed`: the mutexes see to that; `Informed.step`.
-/

namespace CoreOS.MapReduce.Statement

open CoreOS.Lib Function Finset

variable {Input K V Out P : Type*} {T : ℕ} {client : Client Input K V Out} {input : List Input}
  {out : List Out}

/-! ## Points and sections -/

/-- The section a worker is about to take. -/
def Point.job : Point P → JobPc P
  | setAtomic .map _ .lock | setAtomic .map _ .read | setAtomic .map _ .store => .mapSet
  | setAtomic .map _ .flag | setAtomic .map _ .unlock => .mapTest []
  | setAtomic (.shuffle allPairs) _ .lock | setAtomic (.shuffle allPairs) _ .read
  | setAtomic (.shuffle allPairs) _ .store => .shuffleSet allPairs
  | setAtomic (.shuffle allPairs) _ .flag | setAtomic (.shuffle allPairs) _ .unlock =>
      .shuffleTop allPairs
  | setAtomic .reduce _ .lock | setAtomic .reduce _ .read | setAtomic .reduce _ .store => .reduceSet
  | setAtomic .reduce _ .flag | setAtomic .reduce _ .unlock => .reduceTest
  | mapTest vecs => .mapTest vecs
  | mapLock vecs | mapCheck vecs | mapDone vecs | mapClaim vecs => .mapSection vecs
  | mapUnlock vecs index | mapCall vecs index => .mapCall vecs index
  | mapPush vecs tempVec => .mapTest (vecs ++ [tempVec])
  | mapBreak vecs | mapLeft vecs | sort vecs | sortUnlock vecs => .sort vecs
  | sortPush vec vecs => .sort (vec :: vecs)
  | barrier => .barrier
  | shuffleCollect => .shuffleCollect
  | shuffleTop allPairs => .shuffleTop allPairs
  | shuffleLoop allPairs lastPair savingAllPairs => .shuffleLoop allPairs lastPair savingAllPairs
  | shuffleCount allPairs lastPair thisPair savingAllPairs =>
      if allPairs.isEmpty then .shuffleLoop allPairs thisPair []
      else .shuffleLoop allPairs lastPair savingAllPairs
  | shufflePush allPairs lastPair _ | shufflePost allPairs lastPair =>
      .shuffleLoop allPairs lastPair []
  | barrierReduce => .barrierReduce
  | reduceFlag => .reduceFlag
  | reduceTest | reduceCount _ | reduceUnlock => .reduceTest
  | semWait => .semWait
  | reduceRetest => .reduceRetest
  | reduceLock | reduceTake => .reduceLock
  | reducing elementReduce => .reducing elementReduce
  | semPost => .semPost
  | returned => .returned
  | outOfRange | noTop | noFront => .undefined

/-- What a worker still has to add to `progress` for what it has done. -/
def Point.owes : Point P → ℕ
  | shuffleCount _ _ _ _ => 1
  | reduceCount elementReduce => elementReduce.length
  | _ => 0

/-- How often the main worker still has to `sem_post`. -/
def Point.posts : Point P → ℕ
  | shuffleCount allPairs _ _ _ => if allPairs.isEmpty then 1 else 0
  | shufflePush _ _ _ | shufflePost _ _ => 1
  | _ => 0

/-- The group that the main worker still has to store. -/
def Point.groups : Point P → List (List P)
  | shuffleCount allPairs _ _ savingAllPairs => if allPairs.isEmpty then [savingAllPairs] else []
  | shufflePush _ _ savingAllPairs => [savingAllPairs]
  | _ => []

/-- In `client->reduce`. -/
def Point.reduces : Point P → Bool
  | reducing _ => true
  | _ => false

/-- Holding `Mutex_reduce`. -/
def Point.holdsReduce : Point P → Bool
  | reduceTake | reducing _ | reduceCount _ | reduceUnlock | noFront => true
  | _ => false

/-- Something undefined has happened to the worker, or an index has been refused. -/
def Point.broken : Point P → Bool
  | outOfRange | noTop | noFront => true
  | _ => false

/-! ### Points of the other phases -/

section phases

variable {x : Point P}

theorem Point.of_phase_ne_two (h : x.phase ≠ 2) : x.posts = 0 ∧ x.groups = [] := by
  cases x with
  | shuffleCount | shufflePush | shufflePost => exact absurd rfl h
  | _ => exact ⟨rfl, rfl⟩

theorem Point.owes_eq_zero {main : Prop} {σ : Stage} (h : x.during main σ)
    (hσ : σ ≠ .shuffleStage ∨ x.phase ≠ 2) (hσ' : σ ≠ .reduceStage) : x.owes = 0 := by
  cases x with
  | shuffleCount => exact absurd rfl (hσ.resolve_left fun hne => hne h.2)
  | reduceCount => exact absurd h hσ'
  | _ => rfl

theorem Point.holdsMap_of_during {main : Prop} {σ : Stage} (h : x.during main σ)
    (hσ : σ ≠ .mapStage) : x.holdsMap = false := by
  cases x with
  | mapCheck | mapDone | mapBreak | mapClaim | mapUnlock => exact absurd h hσ
  | _ => rfl

/-- The sections before and after the barriers. -/
theorem Point.reachedBarrier_job (h : 1 ≤ x.phase) (hok : x.broken = false) :
    x.job.reachedBarrier = true := by
  cases x with
  | setAtomic call value point =>
      cases call with
      | map => cases h
      | shuffle | reduce => cases point <;> rfl
  | shuffleCount allPairs =>
      cases allPairs <;> rfl
  | mapTest | mapLock | mapCheck | mapDone | mapBreak | mapClaim | mapUnlock | mapCall | mapPush
  | mapLeft | sort | sortPush | sortUnlock => cases h
  | outOfRange | noTop | noFront => cases hok
  | _ => rfl

theorem Point.reachedBarrierReduce_job (h : 3 ≤ x.phase) (hok : x.broken = false) :
    x.job.reachedBarrierReduce = true := by
  cases x with
  | setAtomic call value point =>
      cases call with
      | map => exact absurd h (by decide : ¬ 3 ≤ 0)
      | shuffle => exact absurd h (by decide : ¬ 3 ≤ 2)
      | reduce => cases point <;> rfl
  | mapTest | mapLock | mapCheck | mapDone | mapBreak | mapClaim | mapUnlock | mapCall | mapPush
  | mapLeft | sort | sortPush | sortUnlock => exact absurd h (by decide : ¬ 3 ≤ 0)
  | barrier => exact absurd h (by decide : ¬ 3 ≤ 1)
  | shuffleCollect | shuffleTop | shuffleLoop | shuffleCount | shufflePush | shufflePost =>
      exact absurd h (by decide : ¬ 3 ≤ 2)
  | outOfRange | noTop | noFront => cases hok
  | _ => rfl

end phases

/-! ## What a worker has read -/

/-- What a worker has read is still so, in a job of `size` inputs in which `num_of_pairs` and the
done field are as given. -/
def Point.Knows (size numOfPairs done : ℕ) : Point P → Prop
  | setAtomic .map value _ => value = size
  | setAtomic (.shuffle _) value _ | setAtomic .reduce value _ => value = numOfPairs
  | mapClaim _ => done + 1 ≤ size
  | mapDone _ => size < done + 1
  | _ => True

section knows

variable {size n n' d d' : ℕ} {x : Point P}

/-- The done field matters to those only who hold `Mutex_map`. -/
theorem Point.Knows.of_done (h : x.Knows size n d) (hfree : x.holdsMap = false) :
    x.Knows size n d' := by
  cases x with
  | setAtomic call => cases call <;> exact h
  | mapClaim | mapDone => cases hfree
  | _ => exact h

/-- `num_of_pairs` does not matter in the map stage to those who do not shuffle. -/
theorem Point.Knows.of_numOfPairs {main : Prop} (h : x.Knows size n d)
    (hduring : x.during main .mapStage) (hmain : ¬ main) : x.Knows size n' d := by
  cases x with
  | setAtomic call value point =>
      cases call with
      | map => exact h
      | shuffle =>
          cases point <;> exact absurd (hduring.1 rfl) hmain
      | reduce =>
          cases point with
          | lock | read => rcases hduring.2 with h | h <;> cases h
          | store | flag | unlock => cases hduring.2
  | _ => exact h

theorem SetCall.knows_setAtomic {call : SetCall P} {value : ℕ} (point point' : SetPoint) :
    (Point.setAtomic call value point).Knows size n d ↔
      (Point.setAtomic call value point').Knows size n d := by
  cases call <;> exact Iff.rfl

end knows

/-- The mutexes that a point holds, of those around what is read. -/
def Point.holds (x : Point P) : Bool × Bool := (x.holdsMap, x.holdsReduce)

/-- These mutexes, and what is read. -/
def Shared.known (s : Shared T P Out) : Option (Fin T) × Option (Fin T) × ℕ × BitVec 64 :=
  (s.mutexMap, s.mutexReduce, s.numOfPairs, s.progress)

/-- The mutexes of the sections exclude, and what a worker has read is still so. -/
structure Informed (input : List Input) (s : Shared T P Out) : Prop where
  mutexMap : Owned Point.holdsMap s.pc s.mutexMap
  mutexReduce : Owned Point.holdsReduce s.pc s.mutexReduce
  knows : ∀ j, (s.pc j).Knows input.length s.numOfPairs (jobDone s.progress)

namespace Informed

variable {i : Fin T} {s s' : Shared T P Out} {x y : Point P}

/-- A move of a worker that knows what it needs and leaves the others what they know. -/
theorem of_update (hpc : s'.pc = update s.pc i y)
    (hmap : Owned Point.holdsMap (update s.pc i y) s'.mutexMap)
    (hreduce : Owned Point.holdsReduce (update s.pc i y) s'.mutexReduce)
    (hy : y.Knows input.length s'.numOfPairs (jobDone s'.progress))
    (hothers : ∀ j, j ≠ i → (s.pc j).Knows input.length s'.numOfPairs (jobDone s'.progress)) :
    Informed input s' where
  mutexMap := by
    rw [hpc]
    exact hmap
  mutexReduce := by
    rw [hpc]
    exact hreduce
  knows j := by
    rw [hpc]
    by_cases hj : j = i
    · rw [hj, update_self]
      exact hy
    · rw [update_of_ne hj]
      exact hothers j hj

/-- A move that leaves the mutexes and what is read alone. -/
theorem keep (h : Informed input s) (hat : s.pc i = x) (hpc : s'.pc = update s.pc i y)
    (hsame : s'.known = s.known) (hholds : y.holds = x.holds)
    (hy : y.Knows input.length s.numOfPairs (jobDone s.progress)) : Informed input s' := by
  simp only [Shared.known, Prod.mk.injEq] at hsame
  obtain ⟨hmap, hreduce, hnum, hprogress⟩ := hsame
  refine of_update hpc ?_ ?_ ?_ fun j _ => ?_
  · rw [hmap]
    exact h.mutexMap.keep (hat ▸ congrArg Prod.fst hholds)
  · rw [hreduce]
    exact h.mutexReduce.keep (hat ▸ congrArg Prod.snd hholds)
  · rwa [hnum, hprogress]
  · rw [hnum, hprogress]
    exact h.knows j

/-- A move that changes `progress`, when no other worker has read it. -/
theorem progress (h : Informed input s) (hat : s.pc i = x) (hpc : s'.pc = update s.pc i y)
    (hsame : { s' with progress := s.progress }.known = s.known) (hholds : y.holds = x.holds)
    (hy : y.Knows input.length s.numOfPairs (jobDone s'.progress))
    (hfree : ∀ j, j ≠ i → (s.pc j).holdsMap = false) : Informed input s' := by
  simp only [Shared.known, Prod.mk.injEq] at hsame
  obtain ⟨hmap, hreduce, hnum, -⟩ := hsame
  refine of_update hpc ?_ ?_ ?_ fun j hj => ?_
  · rw [hmap]
    exact h.mutexMap.keep (hat ▸ congrArg Prod.fst hholds)
  · rw [hreduce]
    exact h.mutexReduce.keep (hat ▸ congrArg Prod.snd hholds)
  · rwa [hnum]
  · rw [hnum]
    exact (h.knows j).of_done (hfree j hj)

theorem setStep (h : Informed input s) (hstage : InStage s) {call : SetCall P} {value : ℕ}
    {point : SetPoint} (hpc : s.pc i = .setAtomic call value point)
    (hstep : setStep i call value s point = some s') : Informed input s' := by
  have hi := h.knows i
  rw [hpc] at hi
  have hpoint : ∀ point', (Point.setAtomic call value point').Knows input.length s.numOfPairs
      (jobDone s.progress) := fun point' => (SetCall.knows_setAtomic point point').mp hi
  cases point with
  | lock =>
      obtain ⟨-, rfl⟩ := setStep_lock_iff.mp hstep
      exact h.keep hpc rfl rfl rfl (hpoint .read)
  | read =>
      cases hstep
      exact h.keep hpc rfl rfl rfl (hpoint _)
  | store =>
      cases hstep
      have hσ := hstage.during i
      rw [hpc] at hσ
      refine h.progress hpc rfl rfl rfl ?_ fun j _ => ?_
      · cases call <;> exact hi
      · have hj := hstage.during j
        rw [hσ.2] at hj
        cases call with
        | map => exact Point.holdsMap_of_during hj (by simp [SetCall.before])
        | shuffle =>
            have hphase := hstage.phased.barrier i j (by rw [hpc]; exact le_rfl)
            exact Point.holdsMap_eq_false hphase
        | reduce => exact Point.holdsMap_of_during hj (by simp [SetCall.before])
  | flag =>
      cases hstep
      have hmark : (s.markSet call.stage).known = s.known := by
        cases call <;> rfl
      exact h.keep hpc (congrArg (update · i _) (s.markSet_pc _)) hmark rfl (hpoint .unlock)
  | unlock =>
      cases hstep
      cases call <;> exact h.keep hpc rfl rfl rfl trivial

section steps

variable {pick : ℕ} {s s' : Shared T (K × V) Out}

theorem mapStep (h : Informed input s) (hstep : mapStep client input i s = some s') :
    Informed input s' := by
  cases mapStep_cases hstep with
  | lock hpc hfree =>
      have howned := h.mutexMap
      rw [hfree] at howned
      exact of_update rfl (howned.acquire rfl) (h.mutexReduce.keep (by rw [hpc]; rfl)) trivial
        fun j _ => h.knows j
  | full hpc hall => exact h.keep hpc rfl rfl rfl hall
  | more hpc hmore => exact h.keep hpc rfl rfl rfl (not_lt.mp hmore)
  | exit hpc | unlock hpc =>
      exact of_update rfl (h.mutexMap.release (by rw [hpc]; rfl) rfl)
        (h.mutexReduce.keep (by rw [hpc]; rfl)) trivial fun j _ => h.knows j
  | claim hpc =>
      -- the others do not hold `Mutex_map`
      refine h.progress hpc rfl rfl rfl trivial fun j hj => ?_
      by_contra hholds
      exact hj (h.mutexMap.unique (by simpa using hholds) (by rw [hpc]; rfl))
  | _ hpc => exact h.keep hpc rfl rfl rfl trivial

theorem sortStep (h : Informed input s) (hstep : sortStep i s = some s') : Informed input s' := by
  cases sortStep_cases hstep with
  | _ hpc => exact h.keep hpc rfl rfl rfl trivial

theorem shuffleStep (h : Informed input s) (hstage : InStage s)
    (hstep : shuffleStep client i pick s = some s') : Informed input s' := by
  have hσ := hstage.during i
  cases shuffleStep_cases hstep with
  | collect hpc =>
      rw [hpc] at hσ
      refine of_update rfl (h.mutexMap.keep (by rw [hpc]; rfl))
        (h.mutexReduce.keep (by rw [hpc]; rfl)) rfl fun j hj => ?_
      refine (h.knows j).of_numOfPairs (hσ.2 ▸ hstage.during j) fun hj0 => hj ?_
      exact Fin.ext (hj0.trans hσ.1.symm)
  | countLast hpc | count hpc =>
      rw [hpc] at hσ
      exact h.progress hpc rfl rfl rfl trivial
        fun j _ => Point.holdsMap_of_during (hstage.during j) (by rw [hσ.2]; nofun)
  | _ hpc => exact h.keep hpc rfl rfl rfl trivial

theorem reduceStep (h : Informed input s) (hstage : InStage s)
    (hstep : reduceStep client i s = some s') : Informed input s' := by
  have hσ := hstage.during i
  cases reduceStep_cases hstep with
  | begin hpc => exact h.keep hpc rfl rfl rfl rfl
  | lock hpc hfree =>
      have howned := h.mutexReduce
      rw [hfree] at howned
      exact of_update rfl (h.mutexMap.keep (by rw [hpc]; rfl)) (howned.acquire rfl) trivial
        fun j _ => h.knows j
  | count hpc =>
      rw [hpc] at hσ
      have hreduce : s.log.stage = .reduceStage := hσ
      exact h.progress hpc rfl rfl rfl trivial
        fun j _ => Point.holdsMap_of_during (hstage.during j) (by rw [hreduce]; nofun)
  | unlock hpc =>
      exact of_update rfl (h.mutexMap.keep (by rw [hpc]; rfl))
        (h.mutexReduce.release (by rw [hpc]; rfl) rfl) trivial fun j _ => h.knows j
  | _ hpc => exact h.keep hpc rfl rfl rfl trivial

/-- **Step rule.** -/
theorem step (h : Informed input s) (hstage : InStage s)
    (hstep : step client input (i, pick) s = some s') : Informed input s' := by
  rcases step_cases hstep with ⟨call, value, point, hpc, hs⟩ | hs | hs | ⟨hpc, -, rfl⟩ | hs |
    ⟨hpc, -, rfl⟩ | hs
  · exact h.setStep hstage hpc hs
  · exact h.mapStep hs
  · exact h.sortStep hs
  · split_ifs
    · exact h.keep hpc rfl rfl rfl trivial
    · exact h.keep hpc rfl rfl rfl trivial
  · exact h.shuffleStep hstage hs
  · exact h.keep hpc rfl rfl rfl trivial
  · exact h.reduceStep hstage hs

end steps

end Informed

end CoreOS.MapReduce.Statement
