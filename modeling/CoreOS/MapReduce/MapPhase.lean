import CoreOS.MapReduce.JobCases

/-!
# The map phase

How the workers share out the input and hand over what the client's `map` emitted.

* `JobPc.held client input pc`: the pairs a worker holds, those of an index it has claimed
  included.
* `Mapping client input out d s`: the invariant while workers map, after `d` indices have been
  claimed. No pair is lost or duplicated: what the workers hold, what has been handed over and what
  the unclaimed inputs will give are together the pairs of the whole input.
* `Mapping.step`: every step of `running_map_phase` and `sort_phase` keeps it.
* `Mapping.handed_over`: once everybody has arrived at the barrier, everything has been handed over.
-/

namespace CoreOS.MapReduce

open CoreOS.Lib Function

variable {Input K V Out P : Type*} {T : ℕ}

/-! ## What a worker holds -/

/-- Has left the loop of `running_map_phase`. -/
def JobPc.leftMap : JobPc P → Bool
  | sort _ | barrier => true
  | _ => false

section held

variable (client : Client Input K V Out) (input : List Input)

/-- The pairs that `map` emits for the index. -/
def mapped (index : ℕ) : List (K × V) := (input[index]?).elim [] client.map

/-- The pairs of a worker that it has not handed over. -/
def JobPc.held : JobPc (K × V) → Multiset (K × V)
  | mapTest vecs | mapSection vecs | sort vecs => ↑vecs.flatten
  | mapCall vecs index => ↑vecs.flatten + ↑(mapped client input index)
  | _ => 0

end held

/-! ## The invariant -/

/-- What the map phase does not touch. -/
def Unshuffled (out : List Out) (s : JobContext T P Out) : Prop :=
  s.setShuffle = false ∧ s.setReduce = false ∧ s.finishedShuffle = false ∧ s.numOfPairs = 0 ∧
    s.sem = 0 ∧ s.mutexReduce = none ∧ s.outputVec = out ∧ s.reduced = [] ∧ s.waited = 0

/-- The state of the map phase after `d` indices have been claimed. -/
structure Mapping (client : Client Input K V Out) (input : List Input) (out : List Out) (d : ℕ)
    (s : JobContext T (K × V) Out) : Prop where
  points : ∀ i, (s.pc i).inMap = true ∨ s.pc i = .barrier
  /-- The progress word counts the claimed indices, from the first `set_atomic` on. -/
  progress : if s.setMap then s.progress = word .mapStage input.length d
    else d = 0 ∧ ∀ i, s.pc i = .mapSet
  le : d ≤ input.length
  /-- Only indices of the input are claimed. -/
  claimed : ∀ i vecs k, s.pc i = .mapCall vecs k → k < input.length
  /-- `done_map` means that everything has been claimed. -/
  done : s.doneMap = true → d = input.length
  /-- Nobody leaves the loop before `done_map`. -/
  left : ∀ i, (s.pc i).leftMap = true → s.doneMap = true
  /-- No pair is lost or duplicated. -/
  mass : ∑ i, (s.pc i).held client input + ↑s.vectorOfVectors.flatten +
    ↑((input.drop d).flatMap client.map) = (↑(input.flatMap client.map) : Multiset (K × V))
  unshuffled : Unshuffled out s

variable {client : Client Input K V Out} {input : List Input} {out : List Out} {d d' : ℕ}
  {s s' : JobContext T (K × V) Out} {i : Fin T} {x : JobPc (K × V)}

/-- The invariant holds of a fresh job. -/
theorem Mapping.init : Mapping client input out 0 (freshJob T out) where
  points _ := .inl rfl
  progress := by simp [freshJob]
  le := Nat.zero_le _
  claimed i vecs k h := by cases h
  done := nofun
  left i h := by cases h
  mass := by simp [freshJob, JobPc.held]
  unshuffled := ⟨rfl, rfl, rfl, rfl, rfl, rfl, rfl, rfl, rfl⟩

/-- A worker that has left `set_atomic` has started the stage. -/
theorem Mapping.progress_eq (h : Mapping client input out d s) (hi : s.pc i ≠ .mapSet) :
    s.setMap = true ∧ s.progress = word .mapStage input.length d := by
  have hp := h.progress
  split_ifs at hp with hset
  · exact ⟨hset, hp⟩
  · exact absurd (hp.2 i) hi

/-- The done field counts the claimed indices. -/
theorem Mapping.jobDone_eq (h : Mapping client input out d s) (hlt : input.length < 2 ^ 31)
    (hi : s.pc i ≠ .mapSet) : jobDone s.progress = d := by
  have hle := h.le
  rw [(h.progress_eq hi).2, jobDone_word (by omega)]

/-- A worker moves: the invariant survives if what it holds, what has been handed over and what is
unclaimed are together as before. -/
theorem Mapping.move (h : Mapping client input out d s) (hpc : s'.pc = update s.pc i x)
    (hin : x.inMap = true ∨ x = .barrier) (hset : s'.setMap = true)
    (hprogress : s'.progress = word .mapStage input.length d') (hle : d' ≤ input.length)
    (hclaimed : ∀ vecs k, x = .mapCall vecs k → k < input.length)
    (hdone : s'.doneMap = true → d' = input.length) (hmono : s.doneMap = true → s'.doneMap = true)
    (hleft : x.leftMap = true → s'.doneMap = true)
    (hmass : x.held client input + ↑s'.vectorOfVectors.flatten +
      ↑((input.drop d').flatMap client.map) = (s.pc i).held client input +
        ↑s.vectorOfVectors.flatten + (↑((input.drop d).flatMap client.map) : Multiset (K × V)))
    (hun : Unshuffled out s') : Mapping client input out d' s' where
  points := hpc ▸ forall_update (p := fun y : JobPc (K × V) => y.inMap = true ∨ y = .barrier)
    h.points hin
  progress := by rw [if_pos hset, hprogress]
  le := hle
  claimed := hpc ▸ forall_update
    (p := fun y : JobPc (K × V) => ∀ vecs k, y = .mapCall vecs k → k < input.length)
    h.claimed hclaimed
  done := hdone
  left := hpc ▸ forall_update (p := fun y : JobPc (K × V) => y.leftMap = true → s'.doneMap = true)
    (fun j hj => hmono (h.left j hj)) hleft
  mass := by
    have hsum := sum_update (JobPc.held client input) s.pc i x
    refine add_right_cancel (b := (s.pc i).held client input) ?_
    rw [hpc, ← h.mass, add_right_comm, add_right_comm (∑ j, _) _ ((s.pc i).held client input), hsum,
      add_assoc, add_assoc, ← add_assoc (x.held client input), hmass]
    abel
  unshuffled := hun

/-! ## The steps -/

section steps

variable (h : Mapping client input out d s)
include h

theorem Mapping.set (hlt : input.length < 2 ^ 31) (hpc : s.pc i = .mapSet) :
    Mapping client input out d ((setAtomic .mapStage input.length s).goto i (.mapTest [])) := by
  have hp := h.progress
  by_cases hset : s.setMap = true
  · rw [if_pos hset] at hp
    simp only [setAtomic, if_pos hset]
    exact h.move (i := i) rfl (.inl rfl) hset hp h.le nofun h.done id nofun (by rw [hpc]; rfl)
      h.unshuffled
  · rw [if_neg hset] at hp
    obtain ⟨rfl, -⟩ := hp
    simp only [setAtomic, if_neg hset]
    exact h.move (i := i) rfl (.inl rfl) rfl (packed_eq hlt) h.le nofun h.done id nofun
      (by rw [hpc]; rfl)
      h.unshuffled

theorem Mapping.leave {vecs : List (List (K × V))} (hpc : s.pc i = .mapTest vecs)
    (hdone : s.doneMap = true) : Mapping client input out d (s.goto i (.sort vecs)) := by
  obtain ⟨hset, hp⟩ := h.progress_eq (i := i) (by simp [hpc])
  exact h.move (i := i) rfl (.inl rfl) hset hp h.le nofun h.done id (fun _ => hdone)
    (by rw [hpc]; rfl) h.unshuffled

theorem Mapping.enter {vecs : List (List (K × V))} (hpc : s.pc i = .mapTest vecs) :
    Mapping client input out d (s.goto i (.mapSection vecs)) := by
  obtain ⟨hset, hp⟩ := h.progress_eq (i := i) (by simp [hpc])
  exact h.move (i := i) rfl (.inl rfl) hset hp h.le nofun h.done id nofun (by rw [hpc]; rfl)
    h.unshuffled

theorem Mapping.finish {vecs : List (List (K × V))} (hpc : s.pc i = .mapSection vecs)
    (hfull : d = input.length) :
    Mapping client input out d ({ s with doneMap := true }.goto i (.sort vecs)) := by
  obtain ⟨hset, hp⟩ := h.progress_eq (i := i) (by simp [hpc])
  exact h.move (i := i) rfl (.inl rfl) hset hp h.le nofun (fun _ => hfull) (fun _ => rfl)
    (fun _ => rfl)
    (by rw [hpc]; rfl) h.unshuffled

/-- Claiming an index moves its pairs from the unclaimed ones to those the worker holds. -/
theorem Mapping.claim {vecs : List (List (K × V))} (hpc : s.pc i = .mapSection vecs)
    (hlt : d < input.length) : Mapping client input out (d + 1)
      ({ s with progress := s.progress + 1 }.goto i (.mapCall vecs d)) := by
  obtain ⟨hset, hp⟩ := h.progress_eq (i := i) (by simp [hpc])
  refine h.move (i := i) rfl (.inl rfl) hset ?_ hlt ?_ (?_) id nofun ?_ h.unshuffled
  · show s.progress + 1 = _
    rw [hp, ← word_add]
    rfl
  · rintro _ _ e
    cases e
    exact hlt
  · intro hdone
    have := h.done hdone
    omega
  · rw [hpc, List.drop_eq_getElem_cons hlt, List.flatMap_cons, ← Multiset.coe_add]
    simp only [JobPc.held, mapped, List.getElem?_eq_getElem hlt, Option.elim_some, JobContext.goto]
    abel

/-- The client's `map` turns the claimed index into pairs. -/
theorem Mapping.call {vecs : List (List (K × V))} {k : ℕ} {pair : Input}
    (hpc : s.pc i = .mapCall vecs k) (hk : input[k]? = some pair) :
    Mapping client input out d (s.goto i (.mapTest (vecs ++ [client.map pair]))) := by
  obtain ⟨hset, hp⟩ := h.progress_eq (i := i) (by simp [hpc])
  refine h.move (i := i) rfl (.inl rfl) hset hp h.le nofun h.done id nofun ?_ h.unshuffled
  rw [hpc]
  simp [JobPc.held, mapped, hk, JobContext.goto]

/-- Handing over a vector moves its pairs from the worker to `vector_of_vectors`. -/
theorem Mapping.handOver {vec : List (K × V)} {vecs : List (List (K × V))}
    (hpc : s.pc i = .sort (vec :: vecs)) : Mapping client input out d
      ({ s with vectorOfVectors := s.vectorOfVectors ++ [vec] }.goto i (.sort vecs)) := by
  obtain ⟨hset, hp⟩ := h.progress_eq (i := i) (by simp [hpc])
  refine h.move (i := i) rfl (.inl rfl) hset hp h.le nofun h.done id
    (fun _ => h.left i (by rw [hpc]; rfl)) ?_ h.unshuffled
  rw [hpc]
  simp only [JobPc.held, JobContext.goto, List.flatten_append, List.flatten_cons, List.flatten_nil,
    List.append_nil, ← Multiset.coe_add]
  abel

theorem Mapping.arrive (hpc : s.pc i = .sort []) :
    Mapping client input out d (s.goto i .barrier) := by
  obtain ⟨hset, hp⟩ := h.progress_eq (i := i) (by simp [hpc])
  exact h.move (i := i) rfl (.inr rfl) hset hp h.le nofun h.done id
    (fun _ => h.left i (by rw [hpc]; rfl)) (by rw [hpc]; rfl) h.unshuffled

/-- **Step rule.** Every step of `running_map_phase` and `sort_phase` keeps the invariant. -/
theorem Mapping.step (hlt : input.length < 2 ^ 31) (hstep : mapStep client input i s = some s') :
    ∃ d', Mapping client input out d' s' := by
  have hle := h.le
  cases mapStep_moves hstep with
  | set hpc => exact ⟨d, h.set hlt hpc⟩
  | leave hpc hdone => exact ⟨d, h.leave hpc hdone⟩
  | enter hpc => exact ⟨d, h.enter hpc⟩
  | finish hpc hall =>
      rw [h.jobDone_eq hlt (i := i) (by simp [hpc])] at hall
      exact ⟨d, h.finish hpc (by omega)⟩
  | claim hpc hmore =>
      rw [h.jobDone_eq hlt (i := i) (by simp [hpc])] at hmore ⊢
      exact ⟨d + 1, h.claim hpc (by omega)⟩
  | outOfRange hpc hnone =>
      exact absurd (List.getElem?_eq_none_iff.mp hnone) (not_le.mpr (h.claimed i _ _ hpc))
  | call hpc hpair => exact ⟨d, h.call hpc hpair⟩
  | arrive hpc => exact ⟨d, h.arrive hpc⟩
  | handOver hpc => exact ⟨d, h.handOver hpc⟩

/-- A worker that has not arrived at the barrier can move. -/
theorem Mapping.moves (hi : s.pc i ≠ .barrier) : ∃ s', mapStep client input i s = some s' := by
  have hin := h.points i
  unfold mapStep
  cases hpc : s.pc i with
  | mapSet | mapTest _ => exact ⟨_, rfl⟩
  | mapSection _ =>
      dsimp only
      split_ifs <;> exact ⟨_, rfl⟩
  | mapCall _ k =>
      dsimp only
      cases input[k]? <;> exact ⟨_, rfl⟩
  | sort vecs => cases vecs <;> exact ⟨_, rfl⟩
  | barrier => exact absurd hpc hi
  | _ => simp [hpc, JobPc.inMap] at hin

/-- **Nothing is lost on the way to the barrier.** Once everybody has arrived, the vectors handed
over hold the pairs of the whole input. -/
theorem Mapping.handed_over (i : Fin T) (hall : ∀ j, s.pc j = .barrier) :
    s.vectorOfVectors.flatten.Perm (input.flatMap client.map) := by
  have hd := h.done (h.left i (by rw [hall i]; rfl))
  have hmass := h.mass
  have hzero : ∑ j, (s.pc j).held client input = 0 :=
    Finset.sum_eq_zero fun j _ => by rw [hall j]; rfl
  rw [hzero, hd, List.drop_length, zero_add] at hmass
  exact Multiset.coe_eq_coe.mp (by simpa using hmass)

end steps

end CoreOS.MapReduce
