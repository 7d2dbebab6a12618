import CoreOS.MapReduce.Reporting

/-!
# Counting in the progress word

A stage begins with the word `set_atomic` stores and adds 1 or the size of a group to it at a time.

* `Within value ks`: the running sum of the increments never exceeds the size of the stage.
* `Reads progress stage toDo done`: what `getJobState` and `running_map_phase` read in the word.
* `Contained progress k`: an increment that leaves the size and the stage alone.
* `incremented_packed`: within the size, every word of a stage is read as what was stored and
  added, every increment is contained, and the words of different stages, sizes or sums differ.
* `increment_contained`: so is every increment in a run of a job.
-/

namespace CoreOS.MapReduce

open CoreOS.Lib

variable {stage stage' : Stage} {value toDo toDo' done done' k : ℕ} {progress : BitVec 64}
  {ks ms : List ℕ}

/-! ## What is read and what is added -/

/-- The word is read as the given stage, size and count: by `getJobState`, with all three masks,
and by `running_map_phase`, with `MASK_JOB_DONE`. -/
structure Reads (progress : BitVec 64) (stage : Stage) (toDo done : ℕ) : Prop where
  stage_eq : jobStage progress = stage
  toDo_eq : jobToDo progress = toDo
  done_eq : jobDone progress = done
  report_eq : getJobState progress =
    ⟨stage, if toDo = 0 then none else some (percentage done toDo)⟩

/-- Adding `k` carries into no bit of the size or the stage, and keeps them. -/
structure Contained (progress : BitVec 64) (k : ℕ) : Prop where
  carry : ∀ i, bitsToDoDone ≤ i → BitVec.carry i progress (BitVec.ofNat 64 k) false = false
  toDo : (progress + BitVec.ofNat 64 k) &&& maskJobToDo = progress &&& maskJobToDo
  stage : (progress + BitVec.ofNat 64 k) &&& maskStage = progress &&& maskStage

/-- The running sum of the increments never exceeds the size. -/
def Within (value : ℕ) (ks : List ℕ) : Prop := ∀ ms, ms <+: ks → ms.sum ≤ value

/-- The running sum is highest at the end. -/
theorem within_iff : Within value ks ↔ ks.sum ≤ value := by
  refine ⟨fun h => h ks List.prefix_rfl, fun h ms hpre => ?_⟩
  obtain ⟨rest, rfl⟩ := hpre
  rw [List.sum_append] at h
  omega

instance : Decidable (Within value ks) := decidable_of_iff _ within_iff.symm

/-! ## The word of a stage -/

/-- The word is read as what it was made of. -/
theorem reads_word (ht : toDo < 2 ^ 31) (hd : done < 2 ^ 31) :
    Reads (word stage toDo done) stage toDo done where
  stage_eq := jobStage_word ht hd
  toDo_eq := jobToDo_word ht hd
  done_eq := jobDone_word hd
  report_eq := by rw [getJobState, jobStage_word ht hd, jobToDo_word ht hd, jobDone_word hd]

/-- A word is read in one way. -/
theorem Reads.unique (h : Reads progress stage toDo done) (h' : Reads progress stage' toDo' done') :
    (stage, toDo, done) = (stage', toDo', done') := by
  rw [← h.stage_eq, ← h.toDo_eq, ← h.done_eq, h'.stage_eq, h'.toDo_eq, h'.done_eq]

/-- **An increment that the done field has room for is contained.** -/
theorem contained_of_lt (hroom : jobDone progress + k < 2 ^ 31) : Contained progress k := by
  have hk : (BitVec.ofNat 64 k).toNat = k := Nat.mod_eq_of_lt (by omega)
  have hlow : progress.toNat % 2 ^ bitsToDoDone + (BitVec.ofNat 64 k).toNat < 2 ^ bitsToDoDone := by
    rw [hk, bitsToDoDone, ← jobDone_eq_mod]
    exact hroom
  exact {
    carry := fun i hi => carry_eq_false hlow hi
    toDo := add_and_mask hlow (by decide)
    stage := add_and_mask hlow (by decide) }

/-- The word of a stage after some of its increments. -/
theorem incremented_packed_eq (hvalue : value < 2 ^ 31) :
    incremented (packed stage value) ks = word stage value ks.sum := by
  rw [incremented_eq, packed_eq hvalue, word_add, Nat.zero_add]

/-- What is read after some of the increments of a stage. -/
theorem reads_incremented (hvalue : value < 2 ^ 31) (hsum : ks.sum ≤ value) :
    Reads (incremented (packed stage value) ks) stage value ks.sum := by
  rw [incremented_packed_eq hvalue]
  exact reads_word hvalue (hsum.trans_lt hvalue)

/-- **The words of a stage**: what was stored and added is what is read, nothing is carried out of
the done field, and no other stage, size or sum has the same word. -/
theorem incremented_packed (hvalue : value < 2 ^ 31) (hks : Within value ks) :
    (∀ ms, ms <+: ks → Reads (incremented (packed stage value) ms) stage value ms.sum) ∧
      (∀ ms k, ms ++ [k] <+: ks → Contained (incremented (packed stage value) ms) k) ∧
      ∀ stage' value' ks', value' < 2 ^ 31 → Within value' ks' →
        (incremented (packed stage value) ks = incremented (packed stage' value') ks' ↔
          (stage, value, ks.sum) = (stage', value', ks'.sum)) := by
  have hreads : ∀ ms, ms <+: ks → Reads (incremented (packed stage value) ms) stage value ms.sum :=
    fun ms hpre => reads_incremented hvalue (hks ms hpre)
  refine ⟨hreads, fun ms k hpre => ?_, fun stage' value' ks' hvalue' hks' => ⟨fun heq => ?_, ?_⟩⟩
  · have hsum : (ms ++ [k]).sum ≤ value := hks _ hpre
    rw [List.sum_append, List.sum_singleton] at hsum
    apply contained_of_lt
    rw [(hreads ms ((List.prefix_append ms [k]).trans hpre)).done_eq]
    omega
  · have hother : Reads (incremented (packed stage' value') ks') stage' value' ks'.sum :=
      reads_incremented hvalue' (within_iff.mp hks')
    rw [← heq] at hother
    exact (hreads ks List.prefix_rfl).unique hother
  · intro heq
    obtain ⟨rfl, rfl, hsum⟩ : stage = stage' ∧ value = value' ∧ ks.sum = ks'.sum := by
      simpa only [Prod.mk.injEq] using heq
    rw [incremented_packed_eq hvalue, incremented_packed_eq hvalue, hsum]

/-- A reduce stage of the largest size, in two groups. -/
theorem incremented_packed_reduceStage :
    Reads (incremented (packed .reduceStage (2 ^ 31 - 1)) [5, 2 ^ 31 - 6]) .reduceStage
        (2 ^ 31 - 1) (2 ^ 31 - 1) ∧
      Contained (incremented (packed .reduceStage (2 ^ 31 - 1)) [5]) (2 ^ 31 - 6) ∧
      incremented (packed .reduceStage (2 ^ 31 - 1)) [5, 2 ^ 31 - 6] ≠
        incremented (packed .shuffleStage (2 ^ 31 - 1)) [2 ^ 31 - 1] := by
  obtain ⟨hreads, hcontained, hother⟩ := @incremented_packed .reduceStage
    (2 ^ 31 - 1) [5, 2 ^ 31 - 6] (by decide) (by decide)
  refine ⟨hreads _ List.prefix_rfl, hcontained [5] _ List.prefix_rfl, ?_⟩
  rw [Ne, hother .shuffleStage (2 ^ 31 - 1) [2 ^ 31 - 1] (by decide) (by decide)]
  decide

/-- One increment more reaches the stage: the done field overflows into a full size field. -/
example :
    jobStage (incremented (packed .mapStage (2 ^ 31 - 1)) [2 ^ 31 - 1, 1]) = .shuffleStage := by
  decide

/-! ## The increments of a job -/

/-- What is added finds room in the current stage. -/
theorem Advance.room {size added : Stage → ℕ} (h : Advance size stage done added stage' done')
    (hle : done ≤ size stage) (hle' : done' ≤ size stage') (stage₁ : Stage) :
    done + added stage₁ ≤ size stage := by
  rcases h with ⟨k⟩ | ⟨-, -⟩
  · rcases eq_or_ne stage₁ stage with rfl | hne
    · rwa [Pi.single_eq_same]
    · rwa [Pi.single_eq_of_ne hne, Nat.add_zero]
  · rwa [Pi.zero_apply, Nat.add_zero]

/-- **No increment in a run of a job leaves the done field**, whatever the schedule. -/
theorem increment_contained {Input K V Out : Type*} [LinearOrder K] {client : Client Input K V Out}
    {input : List Input} {level pick : ℕ} {out : List Out} {i : Fin (numOfThreads level input)}
    {s s' : JobContext (numOfThreads level input) (K × V) Out} (hlt : input.length < 2 ^ 31)
    (hplt : (input.flatMap client.map).length < 2 ^ 31)
    (h : (mapReduce client input level out).Reachable s)
    (hstep : (mapReduce client input level out).step (i, pick) s = some s') (stage : Stage) :
    Contained s.progress (fetchAdd (s.pc i) (s'.pc i) stage) := by
  obtain ⟨stage₀, done, hs⟩ := counting_of_reachable hlt hplt h
  obtain ⟨stage', done', hs', hadvance⟩ := hs.step hlt hplt hstep
  have hroom := hadvance.room hs.le hs'.le stage
  have hsize := stageSize_lt hlt hplt stage₀
  apply contained_of_lt
  rw [(hs.fields hlt hplt).2.2]
  omega

end CoreOS.MapReduce
