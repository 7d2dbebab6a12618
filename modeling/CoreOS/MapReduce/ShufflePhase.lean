import CoreOS.MapReduce.MapPhase
import CoreOS.MapReduce.ReducePhase

/-!
# The shuffle phase

How the main worker regroups the pairs while the others wait.

* `MainAlone At s`: the main worker is where `At` holds, the others are at a barrier.
* `ShuffleAt client pairs s x`: what holds of the shared data when the main worker is at `x`; the
  loop is an instance of `Cutting`.
* `Shuffling client pairs out s`: the invariant from the crossing of the first barrier to that of
  the second.
* `Shuffling.step`: every step keeps it; `Mapping.shuffling` and `Shuffling.reducing` connect it to
  the phases before and after.
-/

namespace CoreOS.MapReduce

open CoreOS.Lib Function

variable {Input K V Out : Type*} {T : ℕ} {client : Client Input K V Out} {input : List Input}
  {pairs allPairs : List (K × V)} {out : List Out} {s s' : JobContext T (K × V) Out} {i : Fin T}
  {pick : ℕ}

/-! ## The priority queue -/

/-- What is on top of the queue is one of its elements, and none is smaller. -/
theorem top_eq_some {p : K × V} (h : client.top allPairs pick = some p) :
    allPairs.Perm (p :: allPairs.eraseIdx pick) ∧
      ∀ x ∈ allPairs, ¬ client.compareByFirstElement x p := by
  obtain ⟨hget, hall⟩ := Option.filter_eq_some_iff.mp h
  obtain ⟨hlt, rfl⟩ := List.getElem?_eq_some_iff.mp hget
  exact ⟨(List.getElem_cons_eraseIdx_perm hlt).symm, by simpa using hall⟩

/-- A queue with elements has a top. -/
theorem exists_top [IsStrictWeakOrder (K × V) client.compareByFirstElement] (hne : allPairs ≠ []) :
    ∃ pick p, client.top allPairs pick = some p := by
  obtain ⟨p, hp, hmin⟩ : ∃ p ∈ allPairs, ∀ x ∈ allPairs, ¬ client.compareByFirstElement x p :=
    exists_minimal hne
  obtain ⟨pick, hget⟩ := List.mem_iff_getElem?.mp hp
  exact ⟨pick, p, Option.filter_eq_some_iff.mpr ⟨hget, by simpa using hmin⟩⟩

/-! ## One worker at work -/

/-- The main worker is where `At` holds of it and the shared data; the others are at a barrier. -/
structure MainAlone (At : JobContext T (K × V) Out → JobPc (K × V) → Prop)
    (s : JobContext T (K × V) Out) : Prop where
  main : ∀ i, i.val = 0 → At s (s.pc i)
  others : ∀ i, i.val ≠ 0 → s.pc i = .barrier ∨ s.pc i = .barrierReduce

section alone

variable {At At' : JobContext T (K × V) Out → JobPc (K × V) → Prop} {x : JobPc (K × V)}
  (h : MainAlone At s)
include h

/-- Whoever is at neither barrier is the main worker. -/
theorem MainAlone.main_of_ne (hb : s.pc i ≠ .barrier) (hr : s.pc i ≠ .barrierReduce) :
    i.val = 0 := by
  by_contra hi
  exact (h.others i hi).elim hb hr

/-- The main worker moves. -/
theorem MainAlone.move (hi : i.val = 0) (hpc : s'.pc = update s.pc i x) (hat : At' s' x) :
    MainAlone At' s' where
  main j hj := by
    obtain rfl : j = i := Fin.ext (hj.trans hi.symm)
    rwa [hpc, update_self]
  others j hj := by
    have hne : j ≠ i := fun e => hj (by rw [e, hi])
    rw [hpc, update_of_ne hne]
    exact h.others j hj

/-- A worker leaves the first barrier: the main worker for the shuffle, the others for the second
barrier. -/
theorem MainAlone.leave (hpc : s.pc i = .barrier) (hcollect : At s .barrier → At s .shuffleCollect)
    (hgoto : ∀ y x, At s x → At (s.goto i y) x) :
    MainAlone At (s.goto i (if i.val = 0 then .shuffleCollect else .barrierReduce)) := by
  by_cases hi : i.val = 0
  · have hmain := h.main i hi
    rw [hpc] at hmain
    rw [if_pos hi]
    exact h.move hi rfl (hgoto _ _ (hcollect hmain))
  · rw [if_neg hi]
    refine ⟨?_, ?_⟩
    · intro j hj
      have hne : j ≠ i := fun e => hi (e ▸ hj)
      show At (s.goto i .barrierReduce) (update s.pc i .barrierReduce j)
      rw [update_of_ne hne]
      exact hgoto _ _ (h.main j hj)
    · intro j hj
      show update s.pc i .barrierReduce j = _ ∨ update s.pc i .barrierReduce j = _
      by_cases hji : j = i
      · subst hji
        exact .inr (update_self ..)
      · rw [update_of_ne hji]
        exact h.others j hj

/-- Once everybody has arrived at the second barrier, everybody is there. -/
theorem MainAlone.all_at_barrierReduce (hat : ∀ x, At s x → x.reachedBarrierReduce = true →
    x = .barrierReduce) (hall : ∀ j, (s.pc j).reachedBarrierReduce = true) (j : Fin T) :
    s.pc j = .barrierReduce := by
  by_cases hj : j.val = 0
  · exact hat _ (h.main j hj) (hall j)
  · apply (h.others j hj).resolve_left
    intro hpc
    have hreach := hall j
    rw [hpc] at hreach
    cases hreach

end alone

/-! ## The invariant -/

/-- What the shuffle phase does not touch. -/
def Unreduced (out : List Out) (s : JobContext T (K × V) Out) : Prop :=
  s.setReduce = false ∧ s.mutexReduce = none ∧ s.outputVec = out ∧ s.reduced = [] ∧ s.waited = 0

/-- The shared data when the main worker is at the given point. -/
def ShuffleAt (client : Client Input K V Out) (pairs : List (K × V))
    (s : JobContext T (K × V) Out) : JobPc (K × V) → Prop
  | .barrier | .shuffleCollect =>
      s.vectorOfVectors.flatten.Perm pairs ∧ s.numOfPairs = 0 ∧ s.sem = 0
  | .shuffleSet allPairs | .shuffleTop allPairs =>
      allPairs.Perm pairs ∧ s.numOfPairs = pairs.length ∧ s.sem = 0
  | .shuffleLoop allPairs lastPair savingAllPairs =>
      Cutting client.compareByFirstElement pairs s.vectorOfVectors savingAllPairs lastPair
        allPairs ∧
        (allPairs = [] → savingAllPairs = []) ∧ s.numOfPairs = pairs.length ∧
          s.sem = s.vectorOfVectors.length
  | .barrierReduce =>
      IsGrouping client.compareByFirstElement pairs s.vectorOfVectors ∧
        s.numOfPairs = pairs.length ∧ s.sem = s.vectorOfVectors.length ∧ s.finishedShuffle = true
  | _ => False

/-- The state between the crossings of the two barriers. -/
structure Shuffling (client : Client Input K V Out) (pairs : List (K × V)) (out : List Out)
    (s : JobContext T (K × V) Out) : Prop where
  /-- The main worker shuffles. -/
  main : ∀ i, i.val = 0 → ShuffleAt client pairs s (s.pc i)
  /-- The others are at a barrier. -/
  others : ∀ i, i.val ≠ 0 → s.pc i = .barrier ∨ s.pc i = .barrierReduce
  unreduced : Unreduced out s

/-- The main worker has arrived at the second barrier, if it has come so far. -/
theorem ShuffleAt.eq_barrierReduce {x : JobPc (K × V)} (h : ShuffleAt client pairs s x)
    (hreach : x.reachedBarrierReduce = true) : x = .barrierReduce := by
  cases x <;> simp_all [ShuffleAt, JobPc.reachedBarrierReduce]

/-- `ShuffleAt` depends on the shared data only. -/
theorem ShuffleAt.goto {x y : JobPc (K × V)} (h : ShuffleAt client pairs s x) :
    ShuffleAt client pairs (s.goto i y) x := by
  cases x <;> exact h

/-- Before the shuffle begins everybody is at the barrier. -/
theorem Mapping.shuffling {d : ℕ} (h : Mapping client input out d s) (i : Fin T)
    (hall : ∀ j, s.pc j = .barrier) : Shuffling client (input.flatMap client.map) out s := by
  obtain ⟨-, hreduce, -, hnum, hsem, hmutex, hout, hreduced, hwaited⟩ := h.unshuffled
  refine ⟨?_, fun j _ => .inl (hall j), hreduce, hmutex, hout, hreduced, hwaited⟩
  intro j _
  rw [hall j]
  exact ⟨h.handed_over i hall, hnum, hsem⟩

/-- The reduce phase begins with a token for each group, everybody being at the second barrier. -/
theorem Unreduced.reducing (hun : Unreduced out s) (i : Fin T) (hpc : ∀ j, s.pc j = .barrierReduce)
    (hsem : s.sem = s.vectorOfVectors.length) (hfin : s.finishedShuffle = true) :
    Reducing client s.vectorOfVectors out s := by
  obtain ⟨-, hmutex, hout, hreduced, hwaited⟩ := hun
  have hzero : tally JobPc.through s.pc = 0 := tally_eq_zero.mpr fun j => by rw [hpc j]; rfl
  refine ⟨fun j => by rw [hpc j]; rfl, hfin, ?_, .inr ⟨?_, ?_⟩, ?_, ?_⟩
  · intro j
    rw [hmutex, hpc j]
    exact ⟨nofun, nofun⟩
  · intro j
    rw [hpc j]
    rfl
  · rw [hreduced, List.nil_append]
  · rw [hout, hreduced, List.flatMap_nil, List.append_nil]
  · by_cases hnil : s.vectorOfVectors = []
    · exact .inr ⟨hnil, fun j => by rw [hpc j]; nofun, .inr ⟨i, by rw [hpc]; rfl⟩⟩
    · exact .inl ⟨hnil, by rw [hzero, hsem]; rfl, by rw [hwaited, hsem, Nat.zero_add], fun j => by
        rw [hpc j]; rfl⟩

theorem Shuffling.mainAlone (h : Shuffling client pairs out s) :
    MainAlone (ShuffleAt client pairs) s :=
  ⟨h.main, h.others⟩

/-- Once everybody is at the second barrier the groups are there, with a token each. -/
theorem Shuffling.reducing (h : Shuffling client pairs out s) (hT : 0 < T)
    (hall : ∀ j, (s.pc j).reachedBarrierReduce = true) :
    ∃ groups, IsGrouping client.compareByFirstElement pairs groups ∧
      Reducing client groups out s := by
  have hpc := h.mainAlone.all_at_barrierReduce (fun _ hat => hat.eq_barrierReduce) hall
  have hmain := h.main ⟨0, hT⟩ rfl
  rw [hpc] at hmain
  obtain ⟨hgroups, -, hsem, hfinished⟩ := hmain
  exact ⟨s.vectorOfVectors, hgroups, h.unreduced.reducing ⟨0, hT⟩ hpc hsem hfinished⟩

/-! ## The steps -/

/-- The main worker moves. -/
theorem Shuffling.moveMain {x : JobPc (K × V)} (h : Shuffling client pairs out s) (hi : i.val = 0)
    (hpc : s'.pc = update s.pc i x) (hat : ShuffleAt client pairs s' x) (hun : Unreduced out s') :
    Shuffling client pairs out s' := by
  have ha : MainAlone (ShuffleAt client pairs) s' := h.mainAlone.move hi hpc hat
  exact ⟨ha.main, ha.others, hun⟩

/-- A worker leaves the first barrier. -/
theorem Shuffling.leave (h : Shuffling client pairs out s) (hpc : s.pc i = .barrier) :
    Shuffling client pairs out
      (s.goto i (if i.val = 0 then .shuffleCollect else .barrierReduce)) := by
  obtain ⟨hmain, hothers⟩ := h.mainAlone.leave hpc id fun _ _ hat => hat.goto
  exact ⟨hmain, hothers, h.unreduced⟩

section steps

variable (h : Shuffling client pairs out s)
include h

/-- Whoever is neither at a barrier nor anywhere else than in `shuffle_phase` is the main worker. -/
theorem Shuffling.main_of_ne (hb : s.pc i ≠ .barrier) (hr : s.pc i ≠ .barrierReduce) :
    i.val = 0 :=
  h.mainAlone.main_of_ne hb hr

theorem Shuffling.collect (hpc : s.pc i = .shuffleCollect) : Shuffling client pairs out
    ({ s with numOfPairs := s.numOfPairs + (s.vectorOfVectors.map List.length).sum }.goto i
      (.shuffleSet s.vectorOfVectors.flatten)) := by
  have hi := h.main_of_ne (i := i) (by simp [hpc]) (by simp [hpc])
  have hmain := h.main i hi
  rw [hpc] at hmain
  obtain ⟨hperm, hnum, hsem⟩ := hmain
  refine h.moveMain hi rfl ⟨hperm, ?_, hsem⟩ h.unreduced
  show s.numOfPairs + _ = _
  rw [hnum, Nat.zero_add, ← List.length_flatten, hperm.length_eq]

theorem Shuffling.set (hpc : s.pc i = .shuffleSet allPairs) : Shuffling client pairs out
    ((setAtomic .shuffleStage s.numOfPairs s).goto i (.shuffleTop allPairs)) := by
  have hi := h.main_of_ne (i := i) (by simp [hpc]) (by simp [hpc])
  have hmain := h.main i hi
  rw [hpc] at hmain
  unfold setAtomic
  dsimp only
  split_ifs
  · exact h.moveMain hi rfl hmain h.unreduced
  · exact h.moveMain hi rfl hmain h.unreduced

theorem Shuffling.start {p : K × V} (hpc : s.pc i = .shuffleTop allPairs)
    (htop : client.top allPairs pick = some p) : Shuffling client pairs out
      ({ s with vectorOfVectors := [] }.goto i (.shuffleLoop allPairs p [])) := by
  have hi := h.main_of_ne (i := i) (by simp [hpc]) (by simp [hpc])
  have hmain := h.main i hi
  rw [hpc] at hmain
  obtain ⟨hperm, hnum, hsem⟩ := hmain
  obtain ⟨hmem, hmin⟩ := top_eq_some htop
  have hcut := (Cutting.start (hmem.mem_iff.mpr List.mem_cons_self) hmin)
  exact h.moveMain hi rfl ⟨hcut.of_perm hperm, fun _ => rfl, hnum, hsem⟩ h.unreduced

/-- A round takes an element with the key of the group, and finishes the group if it was the last
element; or it finishes the group because the key changes. -/
theorem Shuffling.round [IsStrictWeakOrder (K × V) client.compareByFirstElement] {last p : K × V}
    {saving : List (K × V)} (hpc : s.pc i = .shuffleLoop allPairs last saving)
    (htop : client.top allPairs pick = some p) :
    Shuffling client pairs out (shuffleRound client i pick allPairs last p saving s) := by
  have hi := h.main_of_ne (i := i) (by simp [hpc]) (by simp [hpc])
  have hmain := h.main i hi
  rw [hpc] at hmain
  obtain ⟨hcut, -, hnum, hsem⟩ := hmain
  obtain ⟨hperm, hmin⟩ := top_eq_some htop
  unfold shuffleRound
  dsimp only
  split_ifs with hequiv hlast
  · have hnil : allPairs.eraseIdx pick = [] := by simpa using hlast
    have htake := hcut.take hperm hequiv
    rw [hnil] at htake
    rw [hnil]
    refine h.moveMain hi rfl
      ⟨htake.flush (by simp) nofun (absurd rfl) nofun, fun _ => rfl, hnum, ?_⟩
      h.unreduced
    show s.sem + 1 = (s.vectorOfVectors ++ [saving ++ [p]]).length
    rw [hsem, List.length_append, List.length_singleton]
  · have hne : allPairs.eraseIdx pick ≠ [] := by simpa using hlast
    exact h.moveMain hi rfl ⟨hcut.take hperm hequiv, fun hnil => absurd hnil hne, hnum, hsem⟩
      h.unreduced
  · refine h.moveMain hi rfl ⟨hcut.cut (hperm.mem_iff.mpr List.mem_cons_self) hmin hequiv,
      fun _ => rfl, hnum, ?_⟩ h.unreduced
    show s.sem + 1 = (s.vectorOfVectors ++ [saving]).length
    rw [hsem, List.length_append, List.length_singleton]

theorem Shuffling.finish {last : K × V} {saving : List (K × V)}
    (hpc : s.pc i = .shuffleLoop [] last saving) :
    Shuffling client pairs out ({ s with finishedShuffle := true }.goto i .barrierReduce) := by
  have hi := h.main_of_ne (i := i) (by simp [hpc]) (by simp [hpc])
  have hmain := h.main i hi
  rw [hpc] at hmain
  obtain ⟨hcut, hsaving, hnum, hsem⟩ := hmain
  rw [hsaving rfl] at hcut
  exact h.moveMain hi rfl ⟨hcut.finish, hnum, hsem, rfl⟩ h.unreduced

/-- **Step rule.** Every step of `shuffle_phase` keeps the invariant, if there are pairs. -/
theorem Shuffling.step [IsStrictWeakOrder (K × V) client.compareByFirstElement]
    (hpairs : pairs ≠ []) (hstep : shuffleStep client i pick s = some s') :
    Shuffling client pairs out s' := by
  cases shuffleStep_moves hstep with
  | collect hpc => exact h.collect hpc
  | set hpc => exact h.set hpc
  | noTop hpc =>
      have hmain := h.main i (h.main_of_ne (by simp [hpc]) (by simp [hpc]))
      rw [hpc] at hmain
      exact absurd hmain.1.symm.eq_nil hpairs
  | start hpc hne htop => exact h.start hpc htop
  | finish hpc => exact h.finish hpc
  | round hpc htop => exact h.round hpc htop

/-- The main worker can move until it has arrived at the second barrier. -/
theorem Shuffling.moves [IsStrictWeakOrder (K × V) client.compareByFirstElement]
    (hi : i.val = 0) (hb : s.pc i ≠ .barrier) (hr : s.pc i ≠ .barrierReduce) :
    ∃ pick s', shuffleStep client i pick s = some s' := by
  have hmain := h.main i hi
  unfold shuffleStep
  cases hpc : s.pc i with
  | shuffleCollect | shuffleSet _ => exact ⟨0, _, rfl⟩
  | shuffleTop allPairs =>
      by_cases hnil : allPairs = []
      · exact ⟨0, _, if_pos (by simpa using hnil)⟩
      · obtain ⟨pick, p, htop⟩ : ∃ pick p, client.top allPairs pick = some p := exists_top hnil
        exact ⟨pick, by dsimp only; rw [if_neg (by simpa using hnil), htop]; exact ⟨_, rfl⟩⟩
  | shuffleLoop allPairs _ _ =>
      by_cases hnil : allPairs = []
      · exact ⟨0, _, if_pos (by simpa using hnil)⟩
      · obtain ⟨pick, p, htop⟩ : ∃ pick p, client.top allPairs pick = some p := exists_top hnil
        exact ⟨pick, by dsimp only; rw [if_neg (by simpa using hnil), htop]; exact ⟨_, rfl⟩⟩
  | barrier => exact absurd hpc hb
  | barrierReduce => exact absurd hpc hr
  | _ => rw [hpc] at hmain; exact hmain.elim

end steps

end CoreOS.MapReduce
