import CoreOS.MapReduce.Correctness

/-!
# The shuffle phase on its own

`shuffle_phase` on any vectors of pairs, however many there are and however the pairs are spread
over them. With more groups than `SEM_VALUE_MAX` a `sem_post` fails, and the process exits.

* `shufflePhase`: the machine that runs it, from `collectedJob`.
* `roundsLeft`: the measure. A round takes an element off the queue, or finishes a group that has
  elements without taking one, so an element counts twice.
* `ShuffleRun`: the invariant of `ShufflePhase` together with what the progress word counts.
* `ShuffleRun.sem_le`: what the semaphore is posted to is at most the number of groups.
* `shuffle_groups`: **the shuffle terminates and groups**, if there are not too many groups, and the
  done field counts the pairs modulo `2 ^ 31`. `shuffle_overflows`: pairs of which it counts none,
  and pairs with more groups than it gets through.
-/

namespace CoreOS.MapReduce

open CoreOS.Lib Function

variable {Input K V Out P : Type*} {T : ℕ}

/-- A job whose main worker is about to enter `shuffle_phase`, `vectors` having been handed over. -/
def collectedJob (T : ℕ) (vectors : List (List P)) (progress : BitVec 64) (outputVec : List Out) :
    JobContext (T + 1) P Out where
  progress := progress
  doneMap := true
  setMap := true
  vectorOfVectors := vectors
  outputVec := outputVec
  pc i := if i.val = 0 then .shuffleCollect else .barrier

/-- The value at which `sem_post` fails with `EOVERFLOW`. -/
def semValueMax : ℕ := 2147483647

/-- The shuffle phase of the main worker, beside `T` others. A `sem_post` that fails is the last
call of the process, which `handling_semaphore` makes exit: there is no step then. -/
def shufflePhase (client : Client Input K V Out) (T : ℕ) (vectors : List (List (K × V)))
    (progress : BitVec 64) (outputVec : List Out) :
    Machine (JobContext (T + 1) (K × V) Out) ℕ where
  init s := s = collectedJob T vectors progress outputVec
  step pick s := (shuffleStep client 0 pick s).filter fun s' => s'.sem ≤ semValueMax

/-! ## The measure -/

/-- A bound on the steps to the second barrier, for `n` pairs. -/
def roundsLeft (n : ℕ) : JobPc P → ℕ
  | .shuffleCollect => 2 * n + 4
  | .shuffleSet _ => 2 * n + 3
  | .shuffleTop _ => 2 * n + 2
  | .shuffleLoop allPairs _ savingAllPairs =>
      2 * allPairs.length + (if savingAllPairs = [] then 0 else 1) + 1
  | _ => 0

/-- What the progress word says when the main worker is at the given point, for `n` pairs. -/
def WordAt (n : ℕ) (s : JobContext T P Out) : JobPc P → Prop
  | .shuffleCollect | .shuffleSet _ => s.setShuffle = false
  | .shuffleTop _ => s.progress = packed .shuffleStage n
  | .shuffleLoop allPairs _ _ => ∃ k, k + allPairs.length = n ∧
      s.progress = packed .shuffleStage n + BitVec.ofNat 64 k
  | .barrierReduce => s.progress = packed .shuffleStage n + BitVec.ofNat 64 n
  | _ => False

variable {client : Client Input K V Out} {pairs allPairs saving : List (K × V)} {out : List Out}
  {s s' : JobContext T (K × V) Out} {i : Fin T} {pick : ℕ} {last p : K × V}

/-- The state of a run, the main worker being `i`. -/
structure ShuffleRun (client : Client Input K V Out) (pairs : List (K × V)) (out : List Out)
    (i : Fin T) (s : JobContext T (K × V) Out) : Prop where
  shuffling : Shuffling client pairs out s
  word : WordAt pairs.length s (s.pc i)

/-! ## One step -/

section step

variable [IsStrictWeakOrder (K × V) client.compareByFirstElement]

/-- A round counts the element that it takes, and lowers the measure. -/
theorem WordAt.round (h : Shuffling client pairs out s) (hi : i.val = 0)
    (hpc : s.pc i = .shuffleLoop allPairs last saving)
    (hword : WordAt pairs.length s (.shuffleLoop allPairs last saving))
    (htop : client.top allPairs pick = some p) :
    let s' := shuffleRound client i pick allPairs last p saving s
    WordAt pairs.length s' (s'.pc i) ∧
      roundsLeft pairs.length (s'.pc i) <
        roundsLeft pairs.length (.shuffleLoop allPairs last saving) := by
  intro s'
  obtain ⟨k, hk, hprogress⟩ := hword
  have hlen : allPairs.length = (allPairs.eraseIdx pick).length + 1 := by
    rw [(top_eq_some htop).1.length_eq, List.length_cons]
  have hcount : s.progress + 1 = packed .shuffleStage pairs.length + BitVec.ofNat 64 (k + 1) := by
    rw [hprogress, BitVec.add_assoc, BitVec.ofNat_add]
    rfl
  by_cases hequiv : ¬ client.compareByFirstElement last p ∧ ¬ client.compareByFirstElement p last
  · have htake : ∃ last' saving', s'.pc i = .shuffleLoop (allPairs.eraseIdx pick) last' saving' ∧
        s'.progress = s.progress + 1 := by
      simp only [s', shuffleRound, if_pos hequiv]
      split_ifs
      · exact ⟨p, [], update_self .., rfl⟩
      · exact ⟨last, saving ++ [p], update_self .., rfl⟩
    obtain ⟨last', saving', hpc', hprogress'⟩ := htake
    rw [hpc']
    refine ⟨⟨k + 1, by omega, hprogress'.trans hcount⟩, ?_⟩
    simp only [roundsLeft, hlen]
    split_ifs <;> omega
  · have hcut : s' = (updateSavingAllPairs saving s).goto i (.shuffleLoop allPairs p []) := by
      simp only [s', shuffleRound, if_neg hequiv]
    -- a group that is cut has elements
    have hne : saving ≠ [] := by
      have hround := (h.round hpc htop).main i hi
      rw [show shuffleRound client i pick allPairs last p saving s = s' from rfl, hcut,
        goto_pc_self] at hround
      exact hround.1.groups.nonempty saving (by simp [updateSavingAllPairs, JobContext.goto])
    rw [hcut, goto_pc_self]
    refine ⟨⟨k, hk, hprogress⟩, ?_⟩
    simp only [roundsLeft, if_pos, if_neg hne]
    omega

omit [IsStrictWeakOrder (K × V) client.compareByFirstElement] in
/-- With the queue empty everything has been counted. -/
theorem WordAt.finish {n : ℕ} (h : WordAt n s (.shuffleLoop [] last saving)) :
    WordAt n ({ s with finishedShuffle := true }.goto i .barrierReduce) .barrierReduce := by
  obtain ⟨k, hk, hprogress⟩ := h
  obtain rfl : k = n := hk
  exact hprogress

/-- **Step lemma.** -/
theorem ShuffleRun.step (h : ShuffleRun client pairs out i s) (hi : i.val = 0) (hpairs : pairs ≠ [])
    (hstep : shuffleStep client i pick s = some s') :
    ShuffleRun client pairs out i s' ∧
      roundsLeft pairs.length (s'.pc i) < roundsLeft pairs.length (s.pc i) := by
  have hs' := h.shuffling.step hpairs hstep
  obtain ⟨hshuffling, hword⟩ := h
  have hmain := hshuffling.main i hi
  cases shuffleStep_moves hstep with
  | collect hpc =>
      rw [hpc] at hword
      rw [hpc, goto_pc_self]
      exact ⟨⟨hs', by rw [goto_pc_self]; exact hword⟩, Nat.lt_succ_self _⟩
  | set hpc =>
      rw [hpc] at hword hmain
      rw [hpc, goto_pc_self]
      refine ⟨⟨hs', ?_⟩, Nat.lt_succ_self _⟩
      rw [goto_pc_self]
      show (setAtomic .shuffleStage s.numOfPairs s).progress = _
      rw [setAtomic, if_neg (by rw [hword]; exact Bool.false_ne_true), hmain.2.1]
  | noTop hpc =>
      rw [hpc] at hmain
      exact absurd hmain.1.symm.eq_nil hpairs
  | start hpc =>
      rw [hpc] at hword hmain
      rw [hpc, goto_pc_self]
      refine ⟨⟨hs', ?_⟩, ?_⟩
      · rw [goto_pc_self]
        exact ⟨0, by rw [Nat.zero_add, hmain.1.length_eq], by rw [BitVec.add_zero]; exact hword⟩
      · simp only [roundsLeft, hmain.1.length_eq, if_pos]
        omega
  | finish hpc =>
      rw [hpc] at hword
      rw [hpc, goto_pc_self]
      refine ⟨⟨hs', ?_⟩, Nat.succ_pos _⟩
      rw [goto_pc_self]
      exact hword.finish
  | round hpc htop =>
      rw [hpc] at hword
      obtain ⟨hword', hlt⟩ := WordAt.round hshuffling hi hpc hword htop
      rw [hpc]
      exact ⟨⟨hs', hword'⟩, hlt⟩

end step

/-- The semaphore is posted at most once for each group. -/
theorem ShuffleRun.sem_le [IsStrictWeakOrder (K × V) client.compareByFirstElement]
    (h : ShuffleRun client pairs out i s) (hi : i.val = 0) :
    s.sem ≤ (classes client.compareByFirstElement pairs).length := by
  have hmain := h.shuffling.main i hi
  cases hpc : s.pc i with
  | barrier | shuffleCollect | shuffleSet | shuffleTop =>
      rw [hpc] at hmain
      exact hmain.2.2 ▸ Nat.zero_le _
  | shuffleLoop =>
      rw [hpc] at hmain
      exact hmain.2.2.2 ▸ hmain.1.length_le
  | barrierReduce =>
      rw [hpc] at hmain
      exact hmain.2.2.1 ▸ (hmain.1.forall₂_perm (isGrouping_classes pairs)).length_eq.le
  | _ =>
      rw [hpc] at hmain
      exact hmain.elim

/-! ## Whole runs -/

section runs

variable {vectors : List (List (K × V))} {progress : BitVec 64}

/-- Before the first step. -/
theorem ShuffleRun.init : ShuffleRun client vectors.flatten out (0 : Fin (T + 1))
    (collectedJob T vectors progress out) where
  shuffling := by
    refine ⟨?_, fun j hj => .inl (if_neg hj), rfl, rfl, rfl, rfl, rfl⟩
    intro j hj
    rw [show (collectedJob T vectors progress out).pc j = .shuffleCollect from if_pos hj]
    exact ⟨.refl _, rfl, rfl⟩
  word := rfl

variable [IsStrictWeakOrder (K × V) client.compareByFirstElement]

/-- **Run lemma.** -/
theorem ShuffleRun.run (hpairs : vectors.flatten ≠ []) {picks : List ℕ}
    {s : JobContext (T + 1) (K × V) Out}
    (hrun : (shufflePhase client T vectors progress out).run picks
      (collectedJob T vectors progress out) = some s) :
    ShuffleRun client vectors.flatten out 0 s ∧
      picks.length + roundsLeft vectors.flatten.length (s.pc 0) ≤ 2 * vectors.flatten.length + 4 :=
  Machine.run_measure _ (P := ShuffleRun client vectors.flatten out 0)
    (fun _ _ _ h hstep => h.step rfl hpairs (Option.filter_eq_some_iff.mp hstep).1) picks .init hrun

/-- The main worker is not stuck before the second barrier, if there are not too many groups. -/
theorem ShuffleRun.moves {s : JobContext (T + 1) (K × V) Out} (hpairs : vectors.flatten ≠ [])
    (hgroups : (classes client.compareByFirstElement vectors.flatten).length ≤ semValueMax)
    (h : ShuffleRun client vectors.flatten out 0 s) :
    s.pc 0 = .barrierReduce ∨
      ∃ pick s', (shufflePhase client T vectors progress out).step pick s = some s' := by
  have hb : s.pc 0 ≠ .barrier := by
    intro hpc
    have hword := h.word
    rw [hpc] at hword
    exact hword
  by_cases hr : s.pc 0 = .barrierReduce
  · exact .inl hr
  · obtain ⟨pick, s', hstep⟩ := h.shuffling.moves rfl hb hr
    have hsem := ((h.step rfl hpairs hstep).1.sem_le rfl).trans hgroups
    exact .inr ⟨pick, s', Option.filter_eq_some_iff.mpr ⟨hstep, by simpa using hsem⟩⟩

/-- With more groups than that it does not get there. -/
theorem ShuffleRun.ne_barrierReduce (hpairs : vectors.flatten ≠ [])
    (hgroups : semValueMax < (classes client.compareByFirstElement vectors.flatten).length)
    {picks : List ℕ} {s : JobContext (T + 1) (K × V) Out}
    (hrun : (shufflePhase client T vectors progress out).run picks
      (collectedJob T vectors progress out) = some s) : s.pc 0 ≠ .barrierReduce := by
  intro hpc
  have hmain := (ShuffleRun.run hpairs hrun).1.shuffling.main 0 rfl
  rw [hpc] at hmain
  obtain ⟨hgrouping, -, hposts, -⟩ := hmain
  have hsem : s.sem ≤ semValueMax :=
    Machine.run_invariant _ (P := fun s => s.sem ≤ semValueMax)
      (fun _ _ _ _ hstep => by simpa using (Option.filter_eq_some_iff.mp hstep).2) picks
      (Nat.zero_le _) hrun
  have hall := (hgrouping.forall₂_perm (isGrouping_classes vectors.flatten)).length_eq
  omega

end runs

/-- **The shuffle groups.** On any vectors with a pair in them, the keys of which fall into at most
`SEM_VALUE_MAX` classes, the main worker gets to the second barrier, and then has left the groups
with one token each; the done field counts the pairs modulo `2 ^ 31`. -/
theorem shuffle_groups [IsStrictWeakOrder K fun a b => client.lt a b = true]
    {vectors : List (List (K × V))} (hpairs : vectors.flatten ≠ [])
    (hgroups : (classes client.compareByFirstElement vectors.flatten).length ≤ semValueMax)
    {progress : BitVec 64} {picks : List ℕ} {s : JobContext (T + 1) (K × V) Out}
    (hrun : (shufflePhase client T vectors progress out).run picks
      (collectedJob T vectors progress out) = some s) :
    picks.length ≤ 2 * vectors.flatten.length + 4 ∧
      (s.pc 0 = .barrierReduce ∨
        ∃ pick s', (shufflePhase client T vectors progress out).step pick s = some s') ∧
      (s.pc 0 = .barrierReduce →
        IsGrouping client.compareByFirstElement vectors.flatten s.vectorOfVectors ∧
        s.numOfPairs = vectors.flatten.length ∧
        jobDone s.progress = vectors.flatten.length % 2 ^ 31 ∧
        s.sem = s.vectorOfVectors.length) := by
  obtain ⟨h, hle⟩ := ShuffleRun.run hpairs hrun
  refine ⟨by omega, h.moves hpairs hgroups, fun hpc => ?_⟩
  have hmain := h.shuffling.main 0 rfl
  have hword := h.word
  rw [hpc] at hmain hword
  obtain ⟨hgroups, hnum, hsem, -⟩ := hmain
  refine ⟨hgroups, hnum, ?_, hsem⟩
  rw [show s.progress = _ from hword, jobDone_packed_add]

/-- Three pairs in two of three vectors, on the way. -/
theorem shuffle_groups_run : ∃ s : JobContext 1 (ℕ × ℕ) ℕ,
    (shufflePhase parityClient 0 [[(1, 3), (0, 2)], [], [(1, 5)]] 0 []).run
      [0, 0, 1, 1, 0, 0, 0, 0] (collectedJob 0 [[(1, 3), (0, 2)], [], [(1, 5)]] 0 []) = some s ∧
    s.pc 0 = .barrierReduce ∧ jobDone s.progress = 3 ∧
    IsGrouping parityClient.compareByFirstElement [(1, 3), (0, 2), (1, 5)] s.vectorOfVectors := by
  obtain ⟨s, hs⟩ : ∃ s : JobContext 1 (ℕ × ℕ) ℕ,
      (shufflePhase parityClient 0 [[(1, 3), (0, 2)], [], [(1, 5)]] 0 []).run
        [0, 0, 1, 1, 0, 0, 0, 0] (collectedJob 0 [[(1, 3), (0, 2)], [], [(1, 5)]] 0 []) =
          some s := ⟨_, rfl⟩
  have hpc : s.pc 0 = .barrierReduce := by
    cases hs
    rfl
  obtain ⟨-, -, hdone⟩ := shuffle_groups (by decide) (by decide) hs
  obtain ⟨hgroups, -, hcount, -⟩ := hdone hpc
  exact ⟨s, hs, hpc, hcount, hgroups⟩

/-- The pairs of as many keys, in one vector. -/
def keyedPairs (n : ℕ) : List (List (ℕ × ℕ)) := [(List.range n).map fun k => (k, 0)]

theorem length_classes_keyedPairs (n : ℕ) :
    (classes parityClient.compareByFirstElement (keyedPairs n).flatten).length = n := by
  have hsorted : (keyedPairs n).flatten.Pairwise parityClient.compareByFirstElement := by
    rw [keyedPairs, List.flatten_singleton]
    refine List.pairwise_map.mpr (List.pairwise_lt_range.imp fun hlt => ?_)
    simpa [Client.compareByFirstElement, parityClient] using hlt
  rw [length_classes_of_pairwise hsorted]
  simp [keyedPairs]

/-- **What is too much.** Of `2 ^ 31` pairs with one key the done field counts none; and of `2 ^ 31`
pairs with as many keys the shuffle never gets to the second barrier. -/
theorem shuffle_overflows : (∃ (picks : List ℕ) (s : JobContext 1 (ℕ × ℕ) ℕ),
      (shufflePhase parityClient 0 [List.replicate (2 ^ 31) (0, 0)] 0 []).run picks
        (collectedJob 0 [List.replicate (2 ^ 31) (0, 0)] 0 []) = some s ∧
      s.pc 0 = .barrierReduce ∧ jobDone s.progress ≠ 2 ^ 31) ∧
    ∀ (picks : List ℕ) (s : JobContext 1 (ℕ × ℕ) ℕ),
      (shufflePhase parityClient 0 (keyedPairs (2 ^ 31)) 0 []).run picks
        (collectedJob 0 (keyedPairs (2 ^ 31)) 0 []) = some s → s.pc 0 ≠ .barrierReduce := by
  generalize hn : (2 : ℕ) ^ 31 = n
  have hpos : 0 < n := hn ▸ Nat.two_pow_pos 31
  constructor
  · have hlen : ([List.replicate n ((0 : ℕ), (0 : ℕ))] : List (List (ℕ × ℕ))).flatten.length = n :=
      by simp
    have hpairs : ([List.replicate n ((0 : ℕ), (0 : ℕ))] : List (List (ℕ × ℕ))).flatten ≠ [] := by
      rwa [← List.length_pos_iff, hlen]
    have hgroups : (classes parityClient.compareByFirstElement
        ([List.replicate n ((0 : ℕ), (0 : ℕ))] : List (List (ℕ × ℕ))).flatten).length ≤
          semValueMax := by
      rw [List.flatten_singleton]
      exact (length_classes_replicate n (0, 0)).trans (by decide)
    obtain ⟨picks, s, hrun, hpc⟩ : ∃ picks s,
        (shufflePhase parityClient 0 [List.replicate n (0, 0)] 0 []).run picks _ = some s ∧
          s.pc 0 = .barrierReduce :=
      Machine.exists_run_done _ (P := ShuffleRun parityClient _ [] 0)
        (fun _ _ _ h hstep => h.step rfl hpairs (Option.filter_eq_some_iff.mp hstep).1)
        (fun _ h => h.moves hpairs hgroups) .init
    refine ⟨picks, s, hrun, hpc, ?_⟩
    have hword := (ShuffleRun.run hpairs hrun).1.word
    rw [hpc] at hword
    rw [show s.progress = _ from hword, jobDone_packed_add, hlen, ← hn, Nat.mod_self]
    exact (Nat.two_pow_pos 31).ne
  · intro picks s hrun
    have hclasses := length_classes_keyedPairs n
    have hpairs : (keyedPairs n).flatten ≠ [] := by
      intro hnil
      rw [hnil] at hclasses
      exact hpos.ne hclasses
    have hmany : semValueMax <
        (classes parityClient.compareByFirstElement (keyedPairs n).flatten).length := by
      rw [hclasses, ← hn]
      decide
    exact ShuffleRun.ne_barrierReduce hpairs hmany hrun

end CoreOS.MapReduce
