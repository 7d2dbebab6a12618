import CoreOS.MapReduce.WorkDone

/-!
# How the input is distributed

`running_map_phase` of any number of workers, on an input that the progress word can count.

* `mapped`: what `client->map` emits for the input at an index.
* `Point.Distributed`: what `intermediate_pair_vec` holds at a point, against the indices that the
  worker has drawn and the number of indices that all have drawn.
* `Distribution`: the invariant; `distribution_of_reachable`.
* `map_work_distribution`: **every index is drawn once, and by the time a worker leaves the loop all
  are drawn** and the worker holds the results of its own.
-/

namespace CoreOS.MapReduce.Statement

open CoreOS.Lib Function

variable {Input K V Out : Type*} {T : ℕ} {client : Client Input K V Out} {input : List Input}
  {out : List Out}

/-- What `client->map` emits for the input at an index, if there is one. -/
def mapped (client : Client Input K V Out) (input : List Input) (index : ℕ) :
    Option (List (K × V)) :=
  input[index]?.map client.map

/-- A worker has drawn the indices `own`, and all workers together `n` of them. -/
def Point.Distributed (client : Client Input K V Out) (input : List Input) (own : List ℕ) (n : ℕ) :
    Point (K × V) → Prop
  | setAtomic .map _ _ => own = []
  | mapTest vecs | mapLock vecs | mapCheck vecs =>
      vecs.map some = own.map (mapped client input)
  | mapClaim vecs => vecs.map some = own.map (mapped client input) ∧ n < input.length
  | mapDone vecs | mapBreak vecs | mapLeft vecs =>
      vecs.map some = own.map (mapped client input) ∧ n = input.length
  | mapUnlock vecs index | mapCall vecs index =>
      ∃ before, own = before ++ [index] ∧ vecs.map some = before.map (mapped client input)
  | mapPush vecs tempVec => (vecs ++ [tempVec]).map some = own.map (mapped client input)
  | outOfRange => False
  | _ => n = input.length

/-- Another worker draws an index, which it can while there are some left. -/
theorem Point.Distributed.drawn {own : List ℕ} {n : ℕ} {x : Point (K × V)}
    (h : x.Distributed client input own n) (hfree : x.holdsMap = false)
    (hlt : n < input.length) : x.Distributed client input own (n + 1) := by
  cases x with
  | setAtomic call =>
      cases call with
      | map => exact h
      | shuffle | reduce => exact absurd h hlt.ne
  | mapTest | mapLock | mapCall | mapPush => exact h
  | mapCheck | mapDone | mapBreak | mapClaim | mapUnlock => cases hfree
  | mapLeft => exact absurd h.2 hlt.ne
  | outOfRange => exact h
  | _ => exact absurd h hlt.ne

/-- The indices drawn so far are the first ones of the input, in order, and everybody is where the
drawing allows it. -/
structure Distribution (client : Client Input K V Out) (input : List Input)
    (s : Shared T (K × V) Out) : Prop where
  owned : Owned Point.holdsMap s.pc s.mutexMap
  range : s.log.claims.map Prod.snd = List.range s.log.claims.length
  le : s.log.claims.length ≤ input.length
  done : s.doneMap = true → s.log.claims.length = input.length
  distributed : ∀ j, (s.pc j).Distributed client input (s.log.claimsOf j) s.log.claims.length

namespace Distribution

variable {i : Fin T} {pick : ℕ} {s s' : Shared T (K × V) Out} {y : Point (K × V)}

/-- A move of a worker that draws nothing. -/
theorem move (h : Distribution client input s) (hpc : s'.pc = update s.pc i y)
    (hclaims : s'.log.claims = s.log.claims)
    (howned : Owned Point.holdsMap s'.pc s'.mutexMap)
    (hdone : s'.doneMap = true → s.log.claims.length = input.length)
    (hy : y.Distributed client input (s.log.claimsOf i) s.log.claims.length) :
    Distribution client input s' where
  owned := howned
  range := by
    rw [hclaims]
    exact h.range
  le := by
    rw [hclaims]
    exact h.le
  done := by
    rw [hclaims]
    exact hdone
  distributed j := by
    have hown : s'.log.claimsOf j = s.log.claimsOf j := by
      rw [Log.claimsOf, Log.claimsOf, hclaims]
    rw [hown, hclaims, hpc]
    by_cases hj : j = i
    · rw [hj, update_self]
      exact hy
    · rw [update_of_ne hj]
      exact h.distributed j

/-- A move away from `Mutex_map`. -/
theorem aside (h : Distribution client input s) (hpc : s'.pc = update s.pc i y)
    (hclaims : s'.log.claims = s.log.claims) (hmutex : s'.mutexMap = s.mutexMap)
    (hdone : s'.doneMap = s.doneMap) (hholds : y.holdsMap = (s.pc i).holdsMap)
    (hy : y.Distributed client input (s.log.claimsOf i) s.log.claims.length) :
    Distribution client input s' := by
  refine h.move hpc hclaims ?_ (fun hd => h.done (hdone ▸ hd)) hy
  rw [hpc, hmutex]
  exact h.owned.keep hholds

/-- An index that has been drawn is one of the input. -/
theorem index_lt (h : Distribution client input s) {index : ℕ}
    (hindex : index ∈ s.log.claimsOf i) : index < input.length := by
  have hmem : index ∈ s.log.claims.map Prod.snd := by
    rw [Log.claimsOf, List.mem_map] at hindex
    obtain ⟨claim, hclaim, rfl⟩ := hindex
    exact List.mem_map_of_mem (List.mem_filter.mp hclaim).1
  rw [h.range, List.mem_range] at hmem
  exact hmem.trans_le h.le

theorem setStep (h : Distribution client input s) {call : SetCall (K × V)} {value : ℕ}
    {point : SetPoint} (hpc : s.pc i = .setAtomic call value point)
    (hstep : setStep i call value s point = some s') : Distribution client input s' := by
  have hi := h.distributed i
  rw [hpc] at hi
  have hpoint : ∀ point', (Point.setAtomic call value point').Distributed client input
      (s.log.claimsOf i) s.log.claims.length := by
    intro point'
    cases call <;> exact hi
  have hholds : ∀ point', (Point.setAtomic call value point').holdsMap = (s.pc i).holdsMap := by
    intro point'
    rw [hpc]
    rfl
  cases point with
  | lock =>
      obtain ⟨-, rfl⟩ := setStep_lock_iff.mp hstep
      exact h.aside rfl rfl rfl rfl (hholds .read) (hpoint .read)
  | read =>
      cases hstep
      exact h.aside rfl rfl rfl rfl (hholds _) (hpoint _)
  | store =>
      cases hstep
      exact h.aside rfl rfl rfl rfl (hholds .flag) (hpoint .flag)
  | flag =>
      cases hstep
      exact h.aside (congrArg (update · i _) (s.markSet_pc _))
        (congrArg Log.claims (s.markSet_log _)) (s.markSet_mutexMap _) (s.markSet_doneMap _)
        (hholds .unlock) (hpoint .unlock)
  | unlock =>
      cases hstep
      refine h.aside rfl rfl rfl rfl ?_ ?_
      · rw [hpc]
        cases call <;> rfl
      · cases call with
        | map =>
            have hnone : s.log.claimsOf i = [] := hi
            rw [hnone]
            rfl
        | shuffle | reduce => exact hi

/-- Drawing an index: it is the number of those drawn before. -/
theorem claim (h : Distribution client input s) {vecs : List (List (K × V))}
    (hpc : s.pc i = .mapClaim vecs) (hindex : jobDone s.progress = s.log.claims.length) :
    Distribution client input ({ s with
      progress := s.progress + 1
      log := s.log.claim i (jobDone s.progress) }.goto i
        (.mapUnlock vecs (jobDone s.progress))) := by
  have hi := h.distributed i
  rw [hpc] at hi
  obtain ⟨hvecs, hlt⟩ := hi
  rw [hindex]
  set n := s.log.claims.length with hn
  have hclaims : (s.log.claim i n).claims = s.log.claims ++ [(i, n)] := rfl
  have hlen : (s.log.claim i n).claims.length = n + 1 := by
    rw [hclaims, List.length_append, List.length_singleton]
  have hown : ∀ j, (s.log.claim i n).claimsOf j =
      s.log.claimsOf j ++ if j = i then [n] else [] := by
    intro j
    rw [Log.claimsOf, hclaims, List.filter_append, List.map_append, Log.claimsOf]
    by_cases hj : j = i
    · simp [hj]
    · simp [hj, Ne.symm hj]
  refine ⟨h.owned.keep (by rw [hpc]; rfl), ?_, ?_, ?_, ?_⟩
  · change (s.log.claim i n).claims.map Prod.snd = List.range (s.log.claim i n).claims.length
    rw [hlen, hclaims, List.map_append, h.range, List.range_succ]
    rfl
  · change (s.log.claim i n).claims.length ≤ input.length
    rw [hlen]
    exact hlt
  · intro hd
    have := h.done hd
    omega
  · intro j
    change (update s.pc i _ j).Distributed client input ((s.log.claim i n).claimsOf j)
      (s.log.claim i n).claims.length
    rw [hlen, hown]
    by_cases hj : j = i
    · rw [hj, update_self, if_pos rfl]
      exact ⟨_, rfl, hvecs⟩
    · rw [update_of_ne hj, if_neg hj, List.append_nil]
      have hfree : (s.pc j).holdsMap = false := by
        by_contra hholds
        exact hj (h.owned.unique (by simpa using hholds) (by rw [hpc]; rfl))
      exact Point.Distributed.drawn (h.distributed j) hfree hlt

theorem mapStep (hlt : input.length < 2 ^ 31) (h : Distribution client input s)
    (hstage : InStage s) (haccounts : Accounts s)
    (hstep : mapStep client input i s = some s') : Distribution client input s' := by
  have hi := h.distributed i
  have hσ := hstage.during i
  have hindex : s.log.stage = .mapStage → jobDone s.progress = s.log.claims.length := by
    intro hmap
    have hle := h.le
    rw [haccounts.jobDone_eq, hmap, ← haccounts.claims, Nat.mod_eq_of_lt (by omega)]
  cases mapStep_cases hstep with
  | leave hpc hdone =>
      rw [hpc] at hi
      exact h.aside rfl rfl rfl rfl (by rw [hpc]; rfl) ⟨hi, h.done hdone⟩
  | enter hpc =>
      rw [hpc] at hi
      exact h.aside rfl rfl rfl rfl (by rw [hpc]; rfl) hi
  | lock hpc hfree =>
      rw [hpc] at hi
      have howned := h.owned
      rw [hfree] at howned
      exact h.move rfl rfl (howned.acquire rfl) h.done hi
  | full hpc hall =>
      -- the test is against the number of indices drawn so far
      rw [hpc] at hi hσ
      have hle := h.le
      rw [hindex hσ] at hall
      exact h.aside rfl rfl rfl rfl (by rw [hpc]; rfl) ⟨hi, by omega⟩
  | more hpc hmore =>
      rw [hpc] at hi hσ
      rw [hindex hσ] at hmore
      exact h.aside rfl rfl rfl rfl (by rw [hpc]; rfl) ⟨hi, by omega⟩
  | done hpc =>
      rw [hpc] at hi
      exact h.move rfl rfl (h.owned.keep (by rw [hpc]; rfl)) (fun _ => hi.2) hi
  | exit hpc | unlock hpc =>
      rw [hpc] at hi
      exact h.move rfl rfl (h.owned.release (by rw [hpc]; rfl) rfl) h.done hi
  | claim hpc =>
      rw [hpc] at hσ
      exact h.claim hpc (hindex hσ)
  | @outOfRange vecs index hpc hnone =>
      rw [hpc] at hi
      obtain ⟨before, hown, -⟩ := hi
      have hmem : index < input.length := h.index_lt (i := i) (by rw [hown]; simp)
      exact absurd hnone (by simpa using hmem)
  | @call vecs index pair hpc hpair =>
      rw [hpc] at hi
      obtain ⟨before, hown, hvecs⟩ := hi
      refine h.aside rfl rfl rfl rfl (by rw [hpc]; rfl) ?_
      change (vecs ++ [client.map pair]).map some = (s.log.claimsOf i).map (mapped client input)
      rw [hown, List.map_append, List.map_append, hvecs, List.map_singleton, List.map_singleton,
        mapped, hpair, Option.map_some]
  | push hpc =>
      rw [hpc] at hi
      exact h.aside rfl rfl rfl rfl (by rw [hpc]; rfl) hi
  | left hpc =>
      rw [hpc] at hi
      exact h.aside rfl rfl rfl rfl (by rw [hpc]; rfl) hi.2

theorem sortStep (h : Distribution client input s) (hstep : sortStep i s = some s') :
    Distribution client input s' := by
  have hi := h.distributed i
  cases sortStep_cases hstep with
  | _ hpc =>
      rw [hpc] at hi
      exact h.aside rfl rfl rfl rfl (by rw [hpc]; rfl) hi

end Distribution

section beyond

variable {s s' : Shared T (K × V) Out} {i : Fin T} {pick : ℕ}

/-- At `barrier` and after it all that matters is that every index has been drawn. -/
theorem Point.distributed_iff {x : Point (K × V)} (hphase : 1 ≤ x.phase) {own : List ℕ} {n : ℕ} :
    x.Distributed client input own n ↔ n = input.length := by
  have hzero : ¬ 1 ≤ 0 := Nat.not_succ_le_zero 0
  cases x with
  | setAtomic call =>
      cases call with
      | map => exact absurd hphase hzero
      | shuffle | reduce => exact Iff.rfl
  | mapTest | mapLock | mapCheck | mapDone | mapBreak | mapClaim | mapUnlock | mapCall | mapPush
  | mapLeft | outOfRange => exact absurd hphase hzero
  | _ => exact Iff.rfl

theorem Point.holdsMap_eq_false {P : Type*} {x : Point P} (hphase : 1 ≤ x.phase) :
    x.holdsMap = false := by
  have hzero : ¬ 1 ≤ 0 := Nat.not_succ_le_zero 0
  cases x with
  | mapCheck | mapDone | mapBreak | mapClaim | mapUnlock => exact absurd hphase hzero
  | _ => rfl

/-- The worker `i` is past `sort_phase` and writes nothing that belongs to the drawing. -/
structure Beyond (i : Fin T) (s s' : Shared T (K × V) Out) : Prop where
  phase : 1 ≤ (s.pc i).phase
  claims : s'.log.claims = s.log.claims
  mutex : s'.mutexMap = s.mutexMap
  done : s'.doneMap = s.doneMap

theorem shuffleStep_beyond (hstep : shuffleStep client i pick s = some s') : Beyond i s s' := by
  have hphase : ∀ {x : Point (K × V)}, s.pc i = x → x.phase = 2 → 1 ≤ (s.pc i).phase := by
    intro x hpc hx
    rw [hpc, hx]
    exact one_le_two
  cases shuffleStep_cases hstep with
  | _ hpc => exact ⟨hphase hpc rfl, rfl, rfl, rfl⟩

theorem reduceStep_beyond (hstep : reduceStep client i s = some s') : Beyond i s s' := by
  have hphase : ∀ {x : Point (K × V)}, s.pc i = x → x.phase = 4 → 1 ≤ (s.pc i).phase := by
    intro x hpc hx
    rw [hpc, hx]
    exact Nat.succ_le_succ (Nat.zero_le 3)
  cases reduceStep_cases hstep with
  | _ hpc => exact ⟨hphase hpc rfl, rfl, rfl, rfl⟩

/-- What is done from the first barrier on does not touch the distribution. -/
theorem Distribution.beyond (h : Distribution client input s) {y : Point (K × V)}
    (hbeyond : Beyond i s s') (hpc : s'.pc = update s.pc i y) (hle : (s.pc i).phase ≤ y.phase) :
    Distribution client input s' := by
  have hi := (Point.distributed_iff hbeyond.phase).mp (h.distributed i)
  have hphase : 1 ≤ y.phase := hbeyond.phase.trans hle
  refine h.aside hpc hbeyond.claims hbeyond.mutex hbeyond.done ?_
    ((Point.distributed_iff hphase).mpr hi)
  rw [Point.holdsMap_eq_false hphase, Point.holdsMap_eq_false hbeyond.phase]

end beyond

theorem distribution_fresh :
    Distribution client input (freshShared input T out : Shared T (K × V) Out) where
  owned _ := ⟨nofun, nofun⟩
  range := rfl
  le := Nat.zero_le _
  done := nofun
  distributed _ := rfl

/-- **Step rule.** -/
theorem Distribution.step (hlt : input.length < 2 ^ 31) {i : Fin T} {pick : ℕ}
    {s s' : Shared T (K × V) Out} (h : Distribution client input s) (hstage : InStage s)
    (haccounts : Accounts s) (hstep : step client input (i, pick) s = some s') :
    Distribution client input s' := by
  rcases step_cases hstep with ⟨call, value, point, hpc, hs⟩ | hs | hs | ⟨hpc, -, rfl⟩ | hs |
    ⟨hpc, -, rfl⟩ | hs
  · exact h.setStep hpc hs
  · exact h.mapStep hlt hstage haccounts hs
  · exact h.sortStep hs
  · refine h.beyond ⟨by simp [hpc, Point.phase], rfl, rfl, rfl⟩ rfl ?_
    split_ifs <;> simp [hpc, Point.phase]
  · obtain ⟨y, hmoves, hleads⟩ := shuffleStep_leads hs
    exact h.beyond (shuffleStep_beyond hs) hmoves.pc hleads.phase
  · exact h.beyond ⟨by simp [hpc, Point.phase], rfl, rfl, rfl⟩ rfl (by simp [hpc, Point.phase])
  · obtain ⟨y, hmoves, hleads⟩ := reduceStep_leads hs
    exact h.beyond (reduceStep_beyond hs) hmoves.pc hleads.phase

/-- **In every state of every job the distribution is as it should be.** -/
theorem distribution_of_reachable (hlt : input.length < 2 ^ 31) {s : Shared T (K × V) Out}
    (h : (statements client input T out).Reachable s) : Distribution client input s := by
  have hall : (InStage s ∧ Accounts s) ∧ Distribution client input s :=
    h.invariant (P := fun s => (InStage s ∧ Accounts s) ∧ Distribution client input s)
      (by rintro _ rfl; exact ⟨⟨inStage_fresh, accounts_fresh⟩, distribution_fresh⟩)
      fun _ _ _ hP hs => ⟨⟨hP.1.1.step hs, hP.1.2.step hP.1.1 hs⟩, hP.2.step hlt hP.1.1 hP.1.2 hs⟩
  exact hall.2

/-! ## The theorem -/

/-- The loop of `running_map_phase` has been left. -/
def Point.leftLoop {P : Type*} : Point P → Bool
  | setAtomic .map _ _ | mapTest _ | mapLock _ | mapCheck _ | mapDone _ | mapBreak _ | mapClaim _
  | mapUnlock _ _ | mapCall _ _ | mapPush _ _ | outOfRange => false
  | _ => true

theorem Point.Distributed.length_of_leftLoop {own : List ℕ} {n : ℕ} {x : Point (K × V)}
    (h : x.Distributed client input own n) (hleft : x.leftLoop = true) : n = input.length := by
  cases x with
  | setAtomic call =>
      cases call with
      | map => cases hleft
      | shuffle | reduce => exact h
  | mapTest | mapLock | mapCheck | mapDone | mapBreak | mapClaim | mapUnlock | mapCall | mapPush
  | outOfRange => cases hleft
  | mapLeft => exact h.2
  | _ => exact h

/-- **The distribution of the map work**, at every moment, for any number of workers, whenever they
start. `at` is called with indices of the input only; the indices drawn are the first ones, each
once; a worker that has left the loop leaves none undrawn; and as it leaves it holds what the client
has made of those that it has drawn, in their order. -/
theorem map_work_distribution (hlt : input.length < 2 ^ 31) {s : Shared T (K × V) Out}
    (h : (statements client input T out).Reachable s) :
    (∀ i, s.pc i ≠ .outOfRange ∧
      ∀ vecs index, s.pc i = .mapCall vecs index → index < input.length) ∧
    (s.log.claims.map Prod.snd = List.range s.log.claims.length ∧
      s.log.claims.length ≤ input.length) ∧
    (∀ i, (s.pc i).leftLoop = true →
      s.log.claims.map Prod.snd = List.range input.length) ∧
    (∀ i vecs, s.pc i = .mapLeft vecs →
      vecs.map some = (s.log.claimsOf i).map (mapped client input)) := by
  have hs := distribution_of_reachable hlt h
  refine ⟨fun i => ⟨fun hpc => ?_, fun vecs index hpc => ?_⟩, ⟨hs.range, hs.le⟩, fun i hleft => ?_,
    fun i vecs hpc => ?_⟩
  · have hi := hs.distributed i
    rw [hpc] at hi
    exact hi
  · have hi := hs.distributed i
    rw [hpc] at hi
    obtain ⟨before, hown, -⟩ := hi
    exact hs.index_lt (i := i) (by rw [hown]; simp)
  · rw [hs.range, (hs.distributed i).length_of_leftLoop hleft]
  · have hi := hs.distributed i
    rw [hpc] at hi
    exact hi.1

/-- A worker maps the whole input and leaves the loop before the other one starts. -/
theorem map_work_distribution_late : ∃ s : Shared 2 (ℕ × ℕ) ℕ,
    (statements parityClient [3, 2] 2 []).run
        (List.replicate 24 ((0 : Fin 2), 0) ++ List.replicate 4 (1, 0)) (freshShared [3, 2] 2 []) =
      some s ∧
    (∀ i, (s.pc i).leftLoop = true) ∧ s.log.claims.map Prod.snd = [0, 1] ∧
      s.pc 0 = .mapLeft [[(1, 3)], [(0, 2)]] ∧ s.pc 1 = .mapLeft [] := by
  obtain ⟨s, hs⟩ : ∃ s : Shared 2 (ℕ × ℕ) ℕ, (statements parityClient [3, 2] 2 []).run
      (List.replicate 24 ((0 : Fin 2), 0) ++ List.replicate 4 (1, 0)) (freshShared [3, 2] 2 []) =
    some s := ⟨_, rfl⟩
  have hleft : ∀ i, (s.pc i).leftLoop = true := by
    cases hs
    decide
  obtain ⟨-, -, hall, -⟩ := map_work_distribution (by decide) (.run (.init rfl) hs)
  refine ⟨s, hs, hleft, hall 0 (hleft 0), ?_, ?_⟩
  · cases hs
    rfl
  · cases hs
    rfl

end CoreOS.MapReduce.Statement
