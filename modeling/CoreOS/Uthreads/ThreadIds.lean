import CoreOS.Uthreads.Preservation

/-!
# Thread ids

Ids are taken from the heap `ids` by `uthread_spawn` and given back by `uthread_terminate`, in
arbitrary order.

* `liveIds s`: the keys of `threads`; `IdsPartition n s`: the heap holds the other admissible ids,
  each once.
* `ncard_liveIds_add`: live and free ids together are `MAX_THREAD_NUM` many, so that the heap is
  empty exactly when that many threads exist.
* `Spawns id s s'`: what a successful `uthread_spawn` does.
* `thread_ids`: the partition holds in every reachable state, and decides what a spawn does there.
-/

namespace CoreOS.Uthreads

open CoreOS.Lib

variable {n : ℕ} {q : ℤ} {s s' : State}

/-! ## Live and free ids -/

/-- The ids of the live threads: the keys of `threads`. -/
def liveIds (s : State) : Set ℤ := {t | (s.threads t).isSome = true}

theorem mem_liveIds {t : ℤ} : t ∈ liveIds s ↔ (s.threads t).isSome = true := Iff.rfl

theorem not_mem_liveIds {t : ℤ} : t ∉ liveIds s ↔ s.threads t = none := by
  rw [mem_liveIds, Bool.not_eq_true, Option.isSome_eq_false_iff, Option.isNone_iff_eq_none]

/-- The free ids are the admissible ones that no thread has. -/
structure IdsPartition (n : ℕ) (s : State) : Prop where
  /-- No id is free twice. -/
  nodup : s.ids.toList.Nodup
  /-- No free id is in use. -/
  disjoint : ∀ t ∈ s.ids, t ∉ liveIds s
  /-- An id is free or in use exactly when it is one of `0, .., MAX_THREAD_NUM - 1`. -/
  cover : ∀ t, (t ∈ s.ids ∨ t ∈ liveIds s) ↔ 0 ≤ t ∧ t < n

theorem Containers.idsPartition (h : Containers n s) : IdsPartition n s where
  nodup := h.idsNodup
  disjoint t ht := not_mem_liveIds.mpr (h.free_of_mem_ids t ht)
  cover t := by
    rw [h.ids, mem_liveIds]
    cases hth : s.threads t with
    | none => simp
    | some th => simpa using h.bounded t th hth

/-- Live and free ids together are `MAX_THREAD_NUM` many. -/
theorem IdsPartition.ncard_liveIds_add (h : IdsPartition n s) :
    (liveIds s).ncard + s.ids.toList.length = n := by
  have hfree : {t | t ∈ s.ids}.ncard = s.ids.toList.length := by
    rw [← List.toFinset_card_of_nodup h.nodup, ← Set.ncard_coe_finset]
    congr 1
    ext t
    simp [MinHeap.mem_def]
  have hunion : liveIds s ∪ {t | t ∈ s.ids} = Set.Ico 0 (n : ℤ) := by
    ext t
    rw [Set.mem_union, or_comm]
    exact h.cover t
  have hfinite : (liveIds s ∪ {t | t ∈ s.ids}).Finite := hunion ▸ Set.finite_Ico _ _
  have hdisj : Disjoint (liveIds s) {t | t ∈ s.ids} :=
    Set.disjoint_right.mpr h.disjoint
  rw [← hfree, ← Set.ncard_union_eq hdisj (hfinite.subset Set.subset_union_left)
    (hfinite.subset Set.subset_union_right), hunion, ← Nat.card_coe_set_eq]
  simp

/-- A free id is left exactly when fewer than `MAX_THREAD_NUM` threads exist. -/
theorem IdsPartition.top?_ne_none (h : IdsPartition n s) :
    s.ids.top? ≠ none ↔ (liveIds s).ncard < n := by
  have hsum := h.ncard_liveIds_add
  rw [MinHeap.top?, ne_eq, List.head?_eq_none_iff, ← List.length_eq_zero_iff]
  omega

/-- The top of the heap is the least id that is not in use. -/
theorem IdsPartition.isLeast_top (h : IdsPartition n s) {id : ℤ} (htop : s.ids.top? = some id) :
    IsLeast {t | 0 ≤ t ∧ t ∉ liveIds s} id := by
  have hmem : id ∈ s.ids := by
    rw [MinHeap.mem_def, MinHeap.toList_of_top? htop]
    exact List.mem_cons_self
  obtain ⟨hpos, hlt⟩ := (h.cover id).mp (.inl hmem)
  refine ⟨⟨hpos, h.disjoint id hmem⟩, ?_⟩
  rintro t ⟨ht, hfree⟩
  by_cases hn : t < n
  · exact MinHeap.top_le htop (((h.cover t).mpr ⟨ht, hn⟩).resolve_right hfree)
  · omega

/-! ## Spawning -/

/-- The call returned an id. -/
def SpawnSucceeds (entryPoint : ℕ) (s : State) : Prop :=
  ∃ id cerr s', uthreadSpawn entryPoint s = .ok (.returns id cerr, s') ∧ id ≠ failure

/-- A spawn that returned `id` has created that thread and changed no other one. -/
structure Spawns (id : ℤ) (s s' : State) : Prop where
  /-- `id` is the smallest non-negative id no live thread has. -/
  least : IsLeast {t | 0 ≤ t ∧ t ∉ liveIds s} id
  /-- The new thread is `READY`, has never run and need not sleep. -/
  created : s'.threads id = some { id := id }
  /-- It is at the end of `ready_queue`. -/
  queue : s'.readyQueue = s.readyQueue ++ [id]
  /-- The other threads are as they were, and so are their places. -/
  others : (∀ t, t ≠ id → s'.threads t = s.threads t) ∧ s'.blocked = s.blocked ∧
    s'.sleeping = s.sleeping ∧ s'.runningThread = s.runningThread

/-- What `uthread_spawn` returns and leaves, by what it checks. -/
theorem uthreadSpawn_cases (h : IdsPartition n s) (e : ℕ) :
    ((s.ids.top? = none ∨ e = 0) ∧ ∃ cerr, uthreadSpawn e s = .ok (.returns failure cerr, s)) ∨
    (e ≠ 0 ∧ ∃ id, s.ids.top? = some id ∧
      uthreadSpawn e s = .ok (.returns id "", spawned id s)) := by
  unfold uthreadSpawn
  cases htop : s.ids.top? with
  | none => exact .inl ⟨.inl rfl, _, rfl⟩
  | some id =>
      by_cases he : e = 0
      · exact .inl ⟨.inr he, _, if_pos he⟩
      · have hfree := not_mem_liveIds.mp (h.isLeast_top htop).1.2
        refine .inr ⟨he, id, rfl, ?_⟩
        simp [he, hfree, spawned, State.setThread]

theorem IdsPartition.spawns (h : IdsPartition n s) {id : ℤ} (htop : s.ids.top? = some id) :
    Spawns id s (spawned id s) where
  least := h.isLeast_top htop
  created := by simp [spawned]
  queue := rfl
  others := ⟨fun t ht => by simp [spawned, ht], rfl, rfl, rfl⟩

/-- A spawn with an entry point succeeds exactly when a free id is left. -/
theorem IdsPartition.spawnSucceeds_iff (h : IdsPartition n s) {e : ℕ} (he : e ≠ 0) :
    SpawnSucceeds e s ↔ s.ids.top? ≠ none := by
  rcases uthreadSpawn_cases h e with ⟨hnone, cerr, hspawn⟩ | ⟨-, id, htop, hspawn⟩
  · have hnone := hnone.resolve_right he
    constructor
    · rintro ⟨id, cerr', s', hs', hid⟩
      rw [hspawn] at hs'
      cases hs'
      exact absurd rfl hid
    · intro htop
      exact absurd hnone htop
  · have hid : id ≠ failure := by
      have hpos := (h.isLeast_top htop).1.1
      intro e
      rw [e] at hpos
      exact absurd hpos (by decide)
    exact ⟨fun _ => by simp [htop], fun _ => ⟨id, _, _, hspawn, hid⟩⟩

/-- **Thread-id allocation.** In every reachable state the free ids are those of
`0, .., MAX_THREAD_NUM - 1` that no thread has, each once; a spawn with an entry point succeeds if
and only if fewer than `MAX_THREAD_NUM` threads exist; one that succeeds has created the thread
with the least free id and nothing else; one that fails has changed nothing. -/
theorem thread_ids (h : (library n q).Reachable s) :
    IdsPartition n s ∧
    (∀ e, e ≠ 0 → (SpawnSucceeds e s ↔ (liveIds s).ncard < n)) ∧
    (∀ e id cerr s', uthreadSpawn e s = .ok (.returns id cerr, s') → id ≠ failure →
      Spawns id s s') ∧
    (∀ e, ¬ SpawnSucceeds e s → ∃ cerr, uthreadSpawn e s = .ok (.returns failure cerr, s)) := by
  have hp := (reachable_consistent h).idsPartition
  refine ⟨hp, ?_, ?_, ?_⟩
  · intro e he
    rw [hp.spawnSucceeds_iff he, hp.top?_ne_none]
  · intro e id cerr s' hs' hid
    rcases uthreadSpawn_cases hp e with ⟨-, cerr', hspawn⟩ | ⟨-, id', htop, hspawn⟩
    · rw [hspawn] at hs'
      cases hs'
      exact absurd rfl hid
    · rw [hspawn] at hs'
      cases hs'
      exact hp.spawns htop
  · intro e hfail
    rcases uthreadSpawn_cases hp e with ⟨-, hspawn⟩ | ⟨he, id, htop, hspawn⟩
    · exact hspawn
    · exact absurd ((hp.spawnSucceeds_iff he).mpr (by simp [htop])) hfail

/-- With room for three threads: 1 and 2 are spawned, 1 is terminated, and its id is the next to
be given out. -/
theorem thread_ids_run : ∃ s s', (library 3 100).run [.spawn 1, .spawn 1, .terminate 1]
      (afterInit 3 100) = some s ∧ uthreadSpawn 1 s = .ok (.returns 1 "", s') ∧
      (SpawnSucceeds 1 s ↔ (liveIds s).ncard < 3) ∧ Spawns 1 s s' := by
  obtain ⟨s, hs⟩ : ∃ s, (library 3 100).run [.spawn 1, .spawn 1, .terminate 1]
      (afterInit 3 100) = some s := ⟨_, rfl⟩
  obtain ⟨-, hiff, hspawns, -⟩ := thread_ids
    (reachable_afterInit (by decide) (by decide) (by decide) hs)
  obtain ⟨s', hs'⟩ : ∃ s', uthreadSpawn 1 s = .ok (.returns 1 "", s') := by
    cases hs
    exact ⟨_, rfl⟩
  exact ⟨s, s', hs, hs', hiff 1 (by decide), hspawns 1 1 "" s' hs' (by decide)⟩

end CoreOS.Uthreads
