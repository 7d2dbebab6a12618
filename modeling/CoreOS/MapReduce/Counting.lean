import CoreOS.MapReduce.Correctness

/-!
# What the progress word counts

The word through a whole job, whatever the order of the client's keys is and whether or not it emits
any pairs.

* `stageSize client input stage`: how many elements a stage has to do.
* `fetchAdd x y stage`: what a worker adds to `progress` on its way from `x` to `y`, in the code of
  the stage.
* `Counting client input out stage done s`: the invariant. `done` elements of the stage have been
  counted, and the workers, the pairs and the flags of `set_atomic` agree with that.
* `Counting.step`: **every step counts elements of the current stage, or begins the next stage after
  all of the current one has been counted** (`Advance`).
-/

namespace CoreOS.MapReduce

open CoreOS.Lib Function

variable {Input K V Out P : Type*} {T : ℕ} {client : Client Input K V Out} {input : List Input}
  {out : List Out} {i : Fin T} {pick done : ℕ} {stage : Stage}

/-! ## Counting -/

/-- The number of elements of a stage: inputs to map, or pairs. -/
def stageSize (client : Client Input K V Out) (input : List Input) : Stage → ℕ
  | .undefinedStage => 0
  | .mapStage => input.length
  | .shuffleStage | .reduceStage => (input.flatMap client.map).length

/-- What the fetch-and-adds of a worker that goes from one point to another add to `progress`, by
the stage whose code they are in.
Source: `MapReduceFramework.cpp`, `running_map_phase`, `shuffle_phase`, `reduce_phase` -/
def fetchAdd : JobPc P → JobPc P → Stage → ℕ
  | .mapSection _, .mapCall _ _ => Pi.single .mapStage 1
  | .shuffleLoop allPairs _ _, .shuffleLoop allPairs' _ _ =>
      Pi.single .shuffleStage (allPairs.length - allPairs'.length)
  | .reducing elementReduce, _ => Pi.single .reduceStage elementReduce.length
  | _, _ => 0

/-- How the count may change when `added` is added: more elements of the stage, or on to the next
stage once the stage is complete. -/
inductive Advance (size : Stage → ℕ) (stage : Stage) (done : ℕ) :
    (Stage → ℕ) → Stage → ℕ → Prop
  | count (k : ℕ) : Advance size stage done (Pi.single stage k) stage (done + k)
  | next {stage' : Stage} (hnext : stage'.val = stage.val + 1) (hfull : done = size stage) :
      Advance size stage done 0 stage' 0

/-- Nothing is counted. -/
theorem Advance.still {size : Stage → ℕ} : Advance size stage done 0 stage done := by
  have h : Advance size stage done (Pi.single stage 0) stage (done + 0) := .count 0
  rwa [Pi.single_zero] at h

/-- The count never goes back. -/
theorem Advance.le {size added : Stage → ℕ} {stage' : Stage} {done' : ℕ}
    (h : Advance size stage done added stage' done') :
    toLex (stage.val, done) ≤ toLex (stage'.val, done') := by
  rw [Prod.Lex.toLex_le_toLex]
  rcases h with ⟨k⟩ | ⟨hnext, -⟩
  · exact .inr ⟨rfl, Nat.le_add_right done k⟩
  · exact .inl (by dsimp only; omega)

/-! ## The invariant -/

section invariant

variable {s s' : JobContext T (K × V) Out}

/-- The shared data when the main worker is at the given point of the shuffle. -/
def CountAt (size : Stage → ℕ) (stage : Stage) (done : ℕ) (s : JobContext T (K × V) Out) :
    JobPc (K × V) → Prop
  | .barrier | .shuffleCollect =>
      (stage = .mapStage ∧ done = size .mapStage) ∧
        s.vectorOfVectors.flatten.length = size .shuffleStage ∧ s.numOfPairs = 0 ∧ s.sem = 0
  | .shuffleSet allPairs =>
      (stage = .mapStage ∧ done = size .mapStage) ∧ allPairs.length = size .shuffleStage ∧
        s.numOfPairs = size .shuffleStage ∧ s.sem = 0
  | .shuffleTop allPairs =>
      (stage = .shuffleStage ∧ done = 0) ∧ allPairs.length = size .shuffleStage ∧
        s.numOfPairs = size .shuffleStage ∧ s.sem = 0
  | .shuffleLoop allPairs _ savingAllPairs =>
      (stage = .shuffleStage ∧ done + allPairs.length = size .shuffleStage) ∧
        s.vectorOfVectors.flatten.length + savingAllPairs.length = done ∧
        (allPairs = [] → savingAllPairs = []) ∧ size .shuffleStage ≠ 0 ∧
        s.numOfPairs = size .shuffleStage ∧ s.sem = s.vectorOfVectors.length
  | .barrierReduce =>
      (stage = .shuffleStage ∧ done = size .shuffleStage) ∧
        s.vectorOfVectors.flatten.length = size .shuffleStage ∧ size .shuffleStage ≠ 0 ∧
        s.numOfPairs = size .shuffleStage ∧ s.sem = s.vectorOfVectors.length ∧
        s.finishedShuffle = true
  | .undefined => (stage = .shuffleStage ∧ done = 0) ∧ size .shuffleStage = 0
  | _ => False

/-- Has not been through `set_atomic(REDUCE_STAGE, ..)`. -/
def JobPc.beforeReduce : JobPc P → Bool
  | barrierReduce | reduceFlag | reduceSet => true
  | _ => false

/-- The phases of a job, when `done` elements of the stage have been counted. -/
inductive CountingPhase (client : Client Input K V Out) (input : List Input) (out : List Out)
    (stage : Stage) (done : ℕ) (s : JobContext T (K × V) Out) : Prop
  | mapping (hstage : stage.val ≤ 1) (h : Mapping client input out done s)
  | shuffling (h : MainAlone (CountAt (stageSize client input) stage done) s)
      (hun : Unreduced out s)
  | reducing (groups : List (List (K × V)))
      (hgroups : groups.flatten.length = stageSize client input .shuffleStage)
      (hsize : stageSize client input .shuffleStage ≠ 0)
      (hnum : s.numOfPairs = stageSize client input .shuffleStage)
      (h : Reducing client groups out s)
      (hstart : (stage = .shuffleStage ∧ done = stageSize client input .shuffleStage ∧
          s.reduced = [] ∧ ∀ i, (s.pc i).beforeReduce = true) ∨
        (stage = .reduceStage ∧ done = s.reduced.flatten.length))

/-- The state of a job when `done` elements of the stage have been counted. -/
structure Counting (client : Client Input K V Out) (input : List Input) (out : List Out)
    (stage : Stage) (done : ℕ) (s : JobContext T (K × V) Out) : Prop where
  progress : s.progress = word stage (stageSize client input stage) done
  le : done ≤ stageSize client input stage
  setMap : s.setMap = decide (1 ≤ stage.val)
  setShuffle : s.setShuffle = decide (2 ≤ stage.val)
  setReduce : s.setReduce = decide (3 ≤ stage.val)
  phase : CountingPhase client input out stage done s

/-- The invariant holds of a fresh job. -/
theorem Counting.init : Counting client input out .undefinedStage 0 (freshJob T out) where
  progress := word_undefinedStage.symm
  le := le_rfl
  setMap := rfl
  setShuffle := rfl
  setReduce := rfl
  phase := .mapping (by decide) .init

/-! ## Steps that count nothing -/

/-- What the reports depend on is as before. -/
structure Still (s s' : JobContext T P Out) : Prop where
  progress : s'.progress = s.progress
  setMap : s'.setMap = s.setMap
  setShuffle : s'.setShuffle = s.setShuffle
  setReduce : s'.setReduce = s.setReduce

theorem Still.goto {s : JobContext T P Out} {x : JobPc P} : Still s (s.goto i x) :=
  ⟨rfl, rfl, rfl, rfl⟩

/-- The stages in their order. -/
theorem Stage.eq_of_val_succ {target : Stage} (h : target.val = stage.val + 1) :
    (stage = .undefinedStage ∧ target = .mapStage) ∨ (stage = .mapStage ∧ target = .shuffleStage) ∨
      (stage = .shuffleStage ∧ target = .reduceStage) := by
  cases stage <;> cases target <;> simp_all [Stage.val]

section counting

variable (h : Counting client input out stage done s)
include h

/-- A step that leaves the reports alone. -/
theorem Counting.still (hs : Still s s') (hphase : CountingPhase client input out stage done s') :
    Counting client input out stage done s' where
  progress := hs.progress.trans h.progress
  le := h.le
  setMap := hs.setMap.trans h.setMap
  setShuffle := hs.setShuffle.trans h.setShuffle
  setReduce := hs.setReduce.trans h.setReduce
  phase := hphase

/-- Counting `k` elements. -/
theorem Counting.count {k : ℕ} (hprogress : s'.progress = s.progress + BitVec.ofNat 64 k)
    (hle : done + k ≤ stageSize client input stage) (hmap : s'.setMap = s.setMap)
    (hshuffle : s'.setShuffle = s.setShuffle) (hreduce : s'.setReduce = s.setReduce)
    (hphase : CountingPhase client input out stage (done + k) s') :
    Counting client input out stage (done + k) s' where
  progress := by rw [hprogress, h.progress, word_add]
  le := hle
  setMap := hmap.trans h.setMap
  setShuffle := hshuffle.trans h.setShuffle
  setReduce := hreduce.trans h.setReduce
  phase := hphase

/-- A stage is begun only once. -/
theorem Counting.setAtomic_of_le {target : Stage} {value : ℕ} (hle : target.val ≤ stage.val) :
    setAtomic target value s = s := by
  cases target with
  | undefinedStage => rfl
  | mapStage => exact if_pos (by rw [h.setMap, decide_eq_true_eq]; exact hle)
  | shuffleStage => exact if_pos (by rw [h.setShuffle, decide_eq_true_eq]; exact hle)
  | reduceStage => exact if_pos (by rw [h.setReduce, decide_eq_true_eq]; exact hle)

/-- Beginning the next stage. -/
theorem Counting.next {target : Stage} {x : JobPc (K × V)} (hnext : target.val = stage.val + 1)
    (hlt : stageSize client input target < 2 ^ 31)
    (hphase : CountingPhase client input out target 0
      ((setAtomic target (stageSize client input target) s).goto i x)) :
    Counting client input out target 0
      ((setAtomic target (stageSize client input target) s).goto i x) := by
  rcases Stage.eq_of_val_succ hnext with ⟨rfl, rfl⟩ | ⟨rfl, rfl⟩ | ⟨rfl, rfl⟩
  · have hset : setAtomic .mapStage (stageSize client input .mapStage) s = { s with
        progress := packed .mapStage (stageSize client input .mapStage), setMap := true } :=
      if_neg (by rw [h.setMap]; decide)
    rw [hset] at hphase ⊢
    exact ⟨packed_eq hlt, Nat.zero_le _, rfl, h.setShuffle, h.setReduce, hphase⟩
  · have hset : setAtomic .shuffleStage (stageSize client input .shuffleStage) s = { s with
        progress := packed .shuffleStage (stageSize client input .shuffleStage),
        setShuffle := true } :=
      if_neg (by rw [h.setShuffle]; decide)
    rw [hset] at hphase ⊢
    exact ⟨packed_eq hlt, Nat.zero_le _, h.setMap, rfl, h.setReduce, hphase⟩
  · have hset : setAtomic .reduceStage (stageSize client input .reduceStage) s = { s with
        progress := packed .reduceStage (stageSize client input .reduceStage),
        setReduce := true } :=
      if_neg (by rw [h.setReduce]; decide)
    rw [hset] at hphase ⊢
    exact ⟨packed_eq hlt, Nat.zero_le _, h.setMap, h.setShuffle, rfl, hphase⟩

end counting

/-! ## The map phase -/

/-- The stages up to the map stage. -/
theorem Stage.of_val_le_one (h : stage.val ≤ 1) : stage = .undefinedStage ∨ stage = .mapStage := by
  cases stage <;> simp_all [Stage.val]

/-- **What a step of the map phase counts.** -/
theorem mapStep_counts (h : mapStep client input i s = some s') :
    (s.pc i = .mapSet ∧ s' = (setAtomic .mapStage input.length s).goto i (.mapTest [])) ∨
    (∃ vecs, s.pc i = .mapSection vecs ∧ jobDone s.progress < input.length ∧
      s' = { s with progress := s.progress + 1 }.goto i (.mapCall vecs (jobDone s.progress))) ∨
    (s.pc i ≠ .mapSet ∧ Still s s' ∧ fetchAdd (s.pc i) (s'.pc i) = 0) := by
  cases mapStep_moves h with
  | set hpc => exact .inl ⟨hpc, rfl⟩
  | claim hpc hmore => exact .inr (.inl ⟨_, hpc, by omega, rfl⟩)
  | _ hpc => exact .inr (.inr ⟨by simp [hpc], ⟨rfl, rfl, rfl, rfl⟩, by simp [hpc, fetchAdd]⟩)

/-- The number of claimed indices is determined by the progress word. -/
theorem Mapping.done_unique {d d' : ℕ} (h : Mapping client input out d s)
    (h' : Mapping client input out d' s') (hlt : input.length < 2 ^ 31) (hs : Still s s') :
    d' = d := by
  have hp := h.progress
  have hp' := h'.progress
  have hle := h.le
  have hle' := h'.le
  rw [hs.setMap, hs.progress] at hp'
  split_ifs at hp hp' with hset
  · rw [hp] at hp'
    have hdone := congrArg jobDone hp'
    rw [jobDone_word (by omega), jobDone_word (by omega)] at hdone
    exact hdone.symm
  · rw [hp.1, hp'.1]

/-- **Step rule** of the map phase. -/
theorem Counting.mapStep (h : Counting client input out stage done s)
    (hm : Mapping client input out done s) (hstage : stage.val ≤ 1) (hlt : input.length < 2 ^ 31)
    (hstep : mapStep client input i s = some s') : ∃ stage' done',
      Counting client input out stage' done' s' ∧
        Advance (stageSize client input) stage done (fetchAdd (s.pc i) (s'.pc i)) stage' done' := by
  rcases mapStep_counts hstep with ⟨hpc, rfl⟩ | ⟨vecs, hpc, hlt', rfl⟩ | ⟨-, hs, hadd⟩
  · have hm' := hm.set hlt hpc
    have hadd : fetchAdd (s.pc i) (.mapTest []) = 0 := by rw [hpc]; rfl
    rw [goto_pc_self, hadd]
    rcases Stage.of_val_le_one hstage with rfl | rfl
    · obtain rfl : done = 0 := Nat.le_zero.mp h.le
      exact ⟨.mapStage, 0, h.next rfl hlt (.mapping le_rfl hm'), .next rfl rfl⟩
    · rw [h.setAtomic_of_le le_rfl] at hm' ⊢
      exact ⟨.mapStage, done, h.still .goto (.mapping le_rfl hm'), .still⟩
  · obtain ⟨hset, hprogress⟩ := hm.progress_eq (i := i) (by simp [hpc])
    have hdone : jobDone s.progress = done := hm.jobDone_eq hlt (i := i) (by simp [hpc])
    have hstage' : stage = .mapStage := by
      rw [h.setMap, decide_eq_true_eq] at hset
      rcases Stage.of_val_le_one hstage with rfl | rfl
      · exact absurd hset (by decide)
      · rfl
    subst hstage'
    have hadd : fetchAdd (s.pc i) (.mapCall vecs (jobDone s.progress)) = Pi.single .mapStage 1 := by
      rw [hpc]; rfl
    rw [goto_pc_self, hadd, hdone]
    rw [hdone] at hlt'
    exact ⟨.mapStage, done + 1,
      h.count rfl hlt' rfl rfl rfl (.mapping le_rfl (hm.claim hpc hlt')), .count 1⟩
  · obtain ⟨d', hm'⟩ := hm.step hlt hstep
    obtain rfl := hm.done_unique hm' hlt hs
    rw [hadd]
    exact ⟨stage, d', h.still hs (.mapping hstage hm'), .still⟩

/-! ## The shuffle phase -/

section shuffle

variable {allPairs saving : List (K × V)} {last p : K × V}

/-- Taking an element off the queue counts one. -/
theorem fetchAdd_take {saving' : List (K × V)} {last' : K × V}
    (hlen : allPairs.length = (allPairs.eraseIdx pick).length + 1) :
    fetchAdd (.shuffleLoop allPairs last saving)
      (.shuffleLoop (allPairs.eraseIdx pick) last' saving') = Pi.single .shuffleStage 1 := by
  rw [fetchAdd, show allPairs.length - (allPairs.eraseIdx pick).length = 1 by omega]

/-- Finishing a group counts nothing. -/
theorem fetchAdd_cut : fetchAdd (.shuffleLoop allPairs last saving) (.shuffleLoop allPairs p []) =
    0 := by
  rw [fetchAdd, Nat.sub_self, Pi.single_zero]

/-- A round of the loop: an element is taken and counted, or a group is finished. -/
theorem Counting.round (h : Counting client input out stage done s)
    (ha : MainAlone (CountAt (stageSize client input) stage done) s) (hun : Unreduced out s)
    (hpc : s.pc i = .shuffleLoop allPairs last saving) (htop : client.top allPairs pick = some p) :
    ∃ done', Counting client input out stage done' (shuffleRound client i pick allPairs last p
        saving s) ∧ Advance (stageSize client input) stage done
          (fetchAdd (s.pc i) ((shuffleRound client i pick allPairs last p saving s).pc i)) stage
          done' := by
  have hi := ha.main_of_ne (i := i) (by simp [hpc]) (by simp [hpc])
  have hmain := ha.main i hi
  rw [hpc] at hmain ⊢
  obtain ⟨⟨rfl, hdone⟩, hvec, -, hsize, hnum, hsem⟩ := hmain
  have hlen : allPairs.length = (allPairs.eraseIdx pick).length + 1 :=
    (top_eq_some htop).1.length_eq
  unfold shuffleRound
  dsimp only
  split_ifs with hequiv hlast
  · have hnil : allPairs.eraseIdx pick = [] := by simpa using hlast
    rw [goto_pc_self, fetchAdd_take hlen]
    refine ⟨done + 1, h.count rfl (by rw [hnil] at hlen; exact hdone ▸ hlen ▸ le_rfl) rfl rfl rfl
      (.shuffling (ha.move hi rfl ⟨⟨rfl, by omega⟩, ?_, fun _ => rfl, hsize, hnum, ?_⟩) hun),
      .count 1⟩
    · simp only [updateSavingAllPairs, JobContext.goto, List.flatten_append, List.flatten_cons,
        List.flatten_nil, List.append_nil, List.length_append, List.length_cons, List.length_nil]
      omega
    · simp only [updateSavingAllPairs, JobContext.goto, List.length_append, List.length_cons,
        List.length_nil, hsem]
  · have hne : allPairs.eraseIdx pick ≠ [] := by simpa using hlast
    rw [goto_pc_self, fetchAdd_take hlen]
    refine ⟨done + 1, h.count rfl (by rw [← hdone]; omega) rfl rfl rfl
      (.shuffling (ha.move hi rfl ⟨⟨rfl, by omega⟩, ?_, fun hnil => absurd hnil hne, hsize, hnum,
        hsem⟩) hun), .count 1⟩
    simp only [JobContext.goto, List.length_append, List.length_cons, List.length_nil]
    omega
  · rw [goto_pc_self, fetchAdd_cut]
    refine ⟨done, h.still ⟨rfl, rfl, rfl, rfl⟩
      (.shuffling (ha.move hi rfl ⟨⟨rfl, hdone⟩, ?_, fun _ => rfl, hsize, hnum, ?_⟩) hun), .still⟩
    · simp only [updateSavingAllPairs, JobContext.goto, List.flatten_append, List.flatten_cons,
        List.flatten_nil, List.append_nil, List.length_append, List.length_nil]
      omega
    · simp only [updateSavingAllPairs, JobContext.goto, List.length_append, List.length_cons,
        List.length_nil, hsem]

end shuffle

/-- **Step rule** of the shuffle phase. -/
theorem Counting.shuffleStep (h : Counting client input out stage done s)
    (ha : MainAlone (CountAt (stageSize client input) stage done) s) (hun : Unreduced out s)
    (hlt : stageSize client input .shuffleStage < 2 ^ 31)
    (hstep : shuffleStep client i pick s = some s') : ∃ stage' done',
      Counting client input out stage' done' s' ∧
        Advance (stageSize client input) stage done (fetchAdd (s.pc i) (s'.pc i)) stage' done' := by
  have hmain : ∀ {x}, s.pc i = x → x.inShuffle = true →
      i.val = 0 ∧ CountAt (stageSize client input) stage done s x := by
    rintro x rfl hx
    have hi := ha.main_of_ne (i := i) (fun hpc => by rw [hpc] at hx; cases hx)
      (fun hpc => by rw [hpc] at hx; cases hx)
    exact ⟨hi, ha.main i hi⟩
  cases shuffleStep_moves hstep with
  | collect hpc =>
      obtain ⟨hi, hstage, hvec, hnum, hsem⟩ := hmain hpc rfl
      rw [goto_pc_self, hpc]
      refine ⟨stage, done, h.still ⟨rfl, rfl, rfl, rfl⟩
        (.shuffling (ha.move hi rfl ⟨hstage, hvec, ?_, hsem⟩) hun), .still⟩
      show s.numOfPairs + _ = _
      rw [hnum, Nat.zero_add, ← List.length_flatten, hvec]
  | @set allPairs hpc =>
      obtain ⟨hi, ⟨rfl, hdone⟩, hlen, hnum, hsem⟩ := hmain hpc rfl
      have hset : s.setShuffle = false := h.setShuffle
      rw [goto_pc_self, hpc, hnum]
      refine ⟨.shuffleStage, 0, h.next rfl hlt
        (.shuffling (ha.move (x := .shuffleTop allPairs) hi ?_ ?_) ?_), .next rfl hdone⟩
      · rw [JobContext.goto, setAtomic_pc]
      · simp only [setAtomic, hset]
        exact ⟨⟨rfl, rfl⟩, hlen, hnum, hsem⟩
      · simp only [setAtomic, hset]
        exact hun
  | noTop hpc =>
      obtain ⟨hi, ⟨rfl, rfl⟩, hlen, hnum, hsem⟩ := hmain hpc rfl
      rw [goto_pc_self, hpc]
      exact ⟨.shuffleStage, 0, h.still ⟨rfl, rfl, rfl, rfl⟩
        (.shuffling (ha.move hi rfl ⟨⟨rfl, rfl⟩, hlen.symm⟩) hun), .still⟩
  | start hpc hne htop =>
      obtain ⟨hi, ⟨rfl, rfl⟩, hlen, hnum, hsem⟩ := hmain hpc rfl
      have hsize : stageSize client input .shuffleStage ≠ 0 := by
        rw [← hlen]
        exact (List.length_pos_iff.mpr hne).ne'
      rw [goto_pc_self, hpc]
      exact ⟨.shuffleStage, 0, h.still ⟨rfl, rfl, rfl, rfl⟩ (.shuffling (ha.move hi rfl
        ⟨⟨rfl, by omega⟩, rfl, fun _ => rfl, hsize, hnum, hsem⟩) hun), .still⟩
  | finish hpc =>
      obtain ⟨hi, ⟨rfl, hdone⟩, hvec, hsaving, hsize, hnum, hsem⟩ := hmain hpc rfl
      rw [hsaving rfl] at hvec
      rw [goto_pc_self, hpc]
      exact ⟨.shuffleStage, done, h.still ⟨rfl, rfl, rfl, rfl⟩ (.shuffling (ha.move hi rfl
        ⟨⟨rfl, hdone⟩, hvec.trans hdone, hsize, hnum, hsem, rfl⟩) hun), .still⟩
  | round hpc htop =>
      obtain ⟨done', hround⟩ := h.round ha hun hpc htop
      exact ⟨stage, done', hround⟩

/-! ## The reduce phase -/

/-- **What a step of the reduce phase counts.** -/
theorem reduceStep_counts (hfin : s.finishedShuffle = true)
    (h : reduceStep client i s = some s') : s'.numOfPairs = s.numOfPairs ∧
    ((s.pc i = .reduceSet ∧ s'.reduced = s.reduced ∧
        s' = (setAtomic .reduceStage s.numOfPairs s).goto i .reduceTest) ∨
      (∃ g, s.pc i = .reducing g ∧ s'.reduced = s.reduced ++ [g] ∧ s'.setMap = s.setMap ∧
        s'.setShuffle = s.setShuffle ∧ s'.setReduce = s.setReduce ∧
        s'.progress = s.progress + BitVec.ofNat 64 g.length) ∨
      (fetchAdd (s.pc i) (s'.pc i) = 0 ∧ s'.reduced = s.reduced ∧ Still s s' ∧
        ((s.pc i).beforeReduce = true → s'.pc = update s.pc i .reduceSet))) := by
  cases reduceStep_moves h with
  | begin hpc => exact ⟨rfl, .inr (.inr ⟨by simp [hpc, fetchAdd], rfl, .goto, fun _ => rfl⟩)⟩
  | skip hpc hfinished => exact absurd hfin hfinished
  | set hpc =>
      have hsame : (setAtomic .reduceStage s.numOfPairs s).numOfPairs = s.numOfPairs ∧
          (setAtomic .reduceStage s.numOfPairs s).reduced = s.reduced := by
        unfold setAtomic
        dsimp only
        split_ifs <;> exact ⟨rfl, rfl⟩
      exact ⟨hsame.1, .inl ⟨hpc, hsame.2, rfl⟩⟩
  | @reduce g hpc => exact ⟨rfl, .inr (.inl ⟨g, hpc, rfl, rfl, rfl, rfl, rfl⟩)⟩
  | _ hpc =>
      exact ⟨rfl, .inr (.inr ⟨by simp [hpc, fetchAdd], rfl, ⟨rfl, rfl, rfl, rfl⟩,
        fun hb => by rw [hpc] at hb; cases hb⟩)⟩

/-- **Step rule** of the reduce phase. -/
theorem Counting.reduceStep {groups : List (List (K × V))}
    (h : Counting client input out stage done s) (hr : Reducing client groups out s)
    (hgroups : groups.flatten.length = stageSize client input .shuffleStage)
    (hsize : stageSize client input .shuffleStage ≠ 0)
    (hnum : s.numOfPairs = stageSize client input .shuffleStage)
    (hstart : (stage = .shuffleStage ∧ done = stageSize client input .shuffleStage ∧
        s.reduced = [] ∧ ∀ i, (s.pc i).beforeReduce = true) ∨
      (stage = .reduceStage ∧ done = s.reduced.flatten.length))
    (hlt : stageSize client input .shuffleStage < 2 ^ 31)
    (hstep : reduceStep client i s = some s') : ∃ stage' done',
      Counting client input out stage' done' s' ∧
        Advance (stageSize client input) stage done (fetchAdd (s.pc i) (s'.pc i)) stage' done' := by
  have hr' := hr.step hstep
  obtain ⟨hnum', hcases⟩ := reduceStep_counts hr.finished hstep
  rw [hnum] at hnum'
  rcases hcases with ⟨hpc, hred, rfl⟩ | ⟨g, hpc, hred, hmap, hshuffle, hreduce, hprogress⟩ |
    ⟨hadd, hred, hstill, hbefore⟩
  · rw [goto_pc_self, hpc]
    rcases hstart with ⟨rfl, hdone, hnil, -⟩ | ⟨rfl, hdone⟩
    · rw [hnum] at hr' hred ⊢
      rw [hnum] at hnum'
      exact ⟨.reduceStage, 0, h.next rfl hlt (.reducing groups hgroups hsize hnum' hr'
        (.inr ⟨rfl, (congrArg (fun l => l.flatten.length) (hred.trans hnil)).symm⟩)),
        .next rfl hdone⟩
    · rw [h.setAtomic_of_le le_rfl] at hr' hred hnum' ⊢
      exact ⟨.reduceStage, done, h.still .goto (.reducing groups hgroups hsize hnum' hr'
        (.inr ⟨rfl, by rw [hred, hdone]⟩)), .still⟩
  · rcases hstart with ⟨-, -, -, hall⟩ | ⟨rfl, hdone⟩
    · have := hall i
      rw [hpc] at this
      cases this
    · have hcount : s'.reduced.flatten.length = done + g.length := by
        rw [hred, List.flatten_append, List.length_append, hdone, List.flatten_singleton]
      have hle : s'.reduced.flatten.length ≤ groups.flatten.length :=
        hr'.reduced_prefix.sublist.flatten.length_le
      rw [hcount, hgroups] at hle
      rw [show fetchAdd (s.pc i) (s'.pc i) = Pi.single .reduceStage g.length by rw [hpc]; rfl]
      exact ⟨.reduceStage, done + g.length, h.count hprogress hle hmap hshuffle hreduce
        (.reducing groups hgroups hsize hnum' hr' (.inr ⟨rfl, hcount.symm⟩)), .count _⟩
  · rw [hadd]
    refine ⟨stage, done, h.still hstill (.reducing groups hgroups hsize hnum' hr' ?_), .still⟩
    rw [hred]
    refine hstart.imp (fun ⟨hstage, hdone, hnil, hall⟩ => ⟨hstage, hdone, hnil, ?_⟩) id
    rw [hbefore (hall i)]
    exact forall_update (p := fun y : JobPc (K × V) => y.beforeReduce = true) hall rfl

/-! ## All steps -/

/-- Where the main worker can be in the shuffle phase. -/
theorem CountAt.points {size : Stage → ℕ} {x : JobPc (K × V)} (h : CountAt size stage done s x) :
    x = .barrier ∨ x = .barrierReduce ∨ x = .undefined ∨ x.inShuffle = true := by
  cases x with
  | barrier => exact .inl rfl
  | barrierReduce => exact .inr (.inl rfl)
  | undefined => exact .inr (.inr (.inl rfl))
  | shuffleCollect | shuffleSet | shuffleTop | shuffleLoop => exact .inr (.inr (.inr rfl))
  | _ => exact h.elim

/-- The main worker has arrived at the second barrier, if it has come so far. -/
theorem CountAt.eq_barrierReduce {size : Stage → ℕ} {x : JobPc (K × V)}
    (h : CountAt size stage done s x) (hreach : x.reachedBarrierReduce = true) :
    x = .barrierReduce := by
  rcases h.points with rfl | rfl | rfl | hin
  · cases hreach
  · rfl
  · cases hreach
  · rw [(JobPc.of_reachedBarrierReduce hreach).2.2] at hin
    cases hin

/-- `CountAt` depends on the shared data only. -/
theorem CountAt.goto {size : Stage → ℕ} {x y : JobPc (K × V)} (h : CountAt size stage done s x) :
    CountAt size stage done (s.goto i y) x := by
  cases x <;> exact h

/-- Where a worker can be in the shuffle phase. -/
theorem MainAlone.count_points {size : Stage → ℕ} (h : MainAlone (CountAt size stage done) s)
    (i : Fin T) : s.pc i = .barrier ∨ s.pc i = .barrierReduce ∨ s.pc i = .undefined ∨
      (s.pc i).inShuffle = true := by
  by_cases hi : i.val = 0
  · exact (h.main i hi).points
  · rcases h.others i hi with hpc | hpc
    · exact .inl hpc
    · exact .inr (.inl hpc)

/-- Once everybody is at the first barrier all of the map stage has been counted. -/
theorem Counting.mainAlone (h : Counting client input out stage done s)
    (hm : Mapping client input out done s) (hstage : stage.val ≤ 1)
    (hall : ∀ j, s.pc j = .barrier) (i : Fin T) :
    MainAlone (CountAt (stageSize client input) stage done) s ∧ Unreduced out s := by
  obtain ⟨-, hreduce, -, hnum, hsem, hmutex, hout, hreduced, hwaited⟩ := hm.unshuffled
  refine ⟨⟨fun j _ => ?_, fun j _ => .inl (hall j)⟩, hreduce, hmutex, hout, hreduced, hwaited⟩
  have hset := (hm.progress_eq (i := i) (by simp [hall i])).1
  rw [h.setMap, decide_eq_true_eq] at hset
  have hdone : done = input.length := hm.done (hm.left i (by rw [hall i]; rfl))
  rw [hall j]
  refine ⟨⟨?_, hdone⟩, (hm.handed_over i hall).length_eq, hnum, hsem⟩
  rcases Stage.of_val_le_one hstage with rfl | rfl
  · exact absurd hset (by decide)
  · rfl

/-- **Step rule.** Every step of a job counts elements of the current stage, or begins the next
stage once all of the current one has been counted. -/
theorem Counting.step (hlt : input.length < 2 ^ 31)
    (hplt : (input.flatMap client.map).length < 2 ^ 31)
    (h : Counting client input out stage done s)
    (hstep : jobStep client input (i, pick) s = some s') : ∃ stage' done',
      Counting client input out stage' done' s' ∧
        Advance (stageSize client input) stage done (fetchAdd (s.pc i) (s'.pc i)) stage' done' := by
  cases h.phase with
  | mapping hstage hm =>
      rcases jobStep_mapping (hm.points i) hstep with hstep | ⟨hpc, hall, rfl⟩
      · exact h.mapStep hm hstage hlt hstep
      · obtain ⟨ha, hun⟩ := h.mainAlone hm hstage (hm.all_at_barrier hall) i
        rw [hpc]
        exact ⟨stage, done,
          h.still .goto (.shuffling (ha.leave hpc id fun _ _ hat => hat.goto) hun),
          .still⟩
  | shuffling ha hun =>
      rcases jobStep_shuffling (ha.count_points i) hstep with
        ⟨hpc, rfl⟩ | hstep' | ⟨hpc, hall, rfl⟩
      · rw [hpc]
        exact ⟨stage, done,
          h.still .goto (.shuffling (ha.leave hpc id fun _ _ hat => hat.goto) hun),
          .still⟩
      · exact h.shuffleStep ha hun hplt hstep'
      · have hpcs := ha.all_at_barrierReduce (fun _ hat => hat.eq_barrierReduce) hall
        have hmain := ha.main ⟨0, Fin.pos i⟩ rfl
        rw [hpcs] at hmain
        obtain ⟨⟨rfl, hdone⟩, hgroups, hsize, hnum, hsem, hfin⟩ := hmain
        have hr : Reducing client s.vectorOfVectors out s := hun.reducing i hpcs hsem hfin
        have hr' := hr.jobStep hstep
        rw [hpc]
        refine ⟨.shuffleStage, done, h.still .goto (.reducing s.vectorOfVectors hgroups hsize hnum
          hr' (.inl ⟨rfl, hdone, hun.2.2.2.1, ?_⟩)), .still⟩
        exact forall_update (p := fun y : JobPc (K × V) => y.beforeReduce = true)
          (fun j => by rw [hpcs j]; rfl) rfl
  | reducing groups hgroups hsize hnum hr hstart =>
      rcases jobStep_reducing (hr.points i) hstep with ⟨hpc, rfl⟩ | hstep'
      · have hr' := hr.jobStep hstep
        rw [hpc]
        refine ⟨stage, done, h.still .goto (.reducing groups hgroups hsize hnum hr' ?_), .still⟩
        refine hstart.imp (fun ⟨hstage, hdone, hnil, hall⟩ => ⟨hstage, hdone, hnil, ?_⟩) id
        exact forall_update (p := fun y : JobPc (K × V) => y.beforeReduce = true) hall rfl
      · exact h.reduceStep hr hgroups hsize hnum hstart hplt hstep'

end invariant

/-- **Run rule.** The invariant holds along every schedule. -/
theorem counting_of_reachable {level : ℕ} {s : JobContext (numOfThreads level input) (K × V) Out}
    (hlt : input.length < 2 ^ 31) (hplt : (input.flatMap client.map).length < 2 ^ 31)
    (h : (mapReduce client input level out).Reachable s) :
    ∃ stage done, Counting client input out stage done s := by
  refine h.invariant (P := fun s => ∃ stage done, Counting client input out stage done s) ?_ ?_
  · rintro _ rfl
    exact ⟨.undefinedStage, 0, .init⟩
  · rintro ⟨i, pick⟩ s s' ⟨stage, done, hs⟩ hstep
    obtain ⟨stage', done', hs', -⟩ := hs.step hlt hplt hstep
    exact ⟨stage', done', hs'⟩

/-- Who has returned has been through the reduce phase. -/
theorem Counting.reducing_of_returned (h : Counting client input out stage done s)
    (hpc : s.pc i = .returned) :
    ∃ groups : List (List (K × V)),
      groups.flatten.length = stageSize client input .shuffleStage ∧
      stageSize client input .shuffleStage ≠ 0 ∧
      s.numOfPairs = stageSize client input .shuffleStage ∧ Reducing client groups out s ∧
      stage = .reduceStage ∧ done = s.reduced.flatten.length := by
  cases h.phase with
  | mapping _ hm =>
      have hpoint := hm.points i
      rw [hpc] at hpoint
      rcases hpoint with hpoint | hpoint <;> cases hpoint
  | shuffling ha _ =>
      have hpoint := ha.count_points i
      rw [hpc] at hpoint
      rcases hpoint with hpoint | hpoint | hpoint | hpoint <;> cases hpoint
  | reducing groups hgroups hsize hnum hr hstart =>
      rcases hstart with ⟨-, -, -, hbefore⟩ | ⟨hstage, hdone⟩
      · have hbefore := hbefore i
        rw [hpc] at hbefore
        cases hbefore
      · exact ⟨groups, hgroups, hsize, hnum, hr, hstage, hdone⟩

end CoreOS.MapReduce
