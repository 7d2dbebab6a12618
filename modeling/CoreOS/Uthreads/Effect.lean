import CoreOS.Uthreads.Decision

/-!
# What each operation does

`Effect op s s'` lists the ways an operation can take the globals from `s` to `s'`, with the
guards the code has checked by then. Operations that give up the processor end with
`makeSchedulingDecision` on one of four states: `preempted`, `selfBlocked`, `selfTerminated` and
`fellAsleep`. `exec_effect` says that the list is complete; invariants are proved by cases on it,
without unfolding a call again.
-/

namespace CoreOS.Uthreads

open CoreOS.Lib

/-! ## The states a scheduling decision starts from -/

/-- `scheduler` up to the decision. -/
def preempted (thread : Thread) (s : State) : State :=
  { s with readyQueue := s.readyQueue ++ [s.runningThread] }.setThread s.runningThread
    thread.changeStateToReady

/-- `uthread_block` of the running thread up to the decision. -/
def selfBlocked (tid : ℤ) (thread : Thread) (s : State) : State :=
  { s.setThread tid thread.changeStateToBlocked with
    blocked := s.blocked.insert tid
    timer := cancelTimer
    setTimer := true
    runningThread := noThread }

/-- `uthread_terminate` of the running thread up to the decision. -/
def selfTerminated (tid : ℤ) (s : State) : State :=
  releaseThread tid { s with timer := cancelTimer, setTimer := true, runningThread := noThread }

/-- `uthread_sleep` up to the decision. -/
def fellAsleep (numQuantums : ℤ) (thread : Thread) (s : State) : State :=
  { s.setThread s.runningThread (thread.setSleeping s.quantum numQuantums).changeStateToReady with
    sleeping := s.sleeping.insert s.runningThread
    runningThread := noThread
    timer := cancelTimer
    setTimer := true }

/-! ## The states the other operations end in -/

/-- `uthread_spawn` on success, for an id without a thread. -/
def spawned (id : ℤ) (s : State) : State :=
  { s.setThread id { id := id } with ids := s.ids.pop, readyQueue := s.readyQueue ++ [id] }

/-- `uthread_terminate` of a `READY` thread. -/
def terminatedReady (tid : ℤ) (thread : Thread) (s : State) : State :=
  releaseThread tid { s with
    readyQueue := s.readyQueue.erase tid
    sleeping := if thread.checkSleeping then s.sleeping else s.sleeping.erase tid }

/-- `uthread_terminate` of a `BLOCKED` thread. -/
def terminatedBlocked (tid : ℤ) (thread : Thread) (s : State) : State :=
  releaseThread tid { s with
    blocked := s.blocked.erase tid
    sleeping := if thread.checkSleeping then s.sleeping else s.sleeping.erase tid }

/-- `uthread_block` of a `READY` thread. -/
def blockedReady (tid : ℤ) (thread : Thread) (s : State) : State :=
  { s.setThread tid thread.changeStateToBlocked with
    readyQueue := if thread.checkSleeping then s.readyQueue.erase tid else s.readyQueue
    blocked := s.blocked.insert tid }

/-- `uthread_resume` of a `BLOCKED` thread. -/
def resumed (tid : ℤ) (thread : Thread) (s : State) : State :=
  { s.setThread tid thread.changeStateToReady with
    blocked := s.blocked.erase tid
    readyQueue := if thread.checkSleeping then s.readyQueue ++ [thread.id] else s.readyQueue }

/-! ## The list -/

/-- The ways an operation returns or switches. -/
inductive Effect : Op → State → State → Prop
  /-- An error, or an operation without effect. -/
  | unchanged (op : Op) (s : State) : Effect op s s
  | spawn {entryPoint : ℕ} {id : ℤ} {s : State} (hentry : entryPoint ≠ 0)
      (htop : s.ids.top? = some id) (hfree : s.threads id = none) :
      Effect (.spawn entryPoint) s (spawned id s)
  | terminateReady {tid : ℤ} {thread : Thread} {s : State} (hmain : tid ≠ 0)
      (hth : s.threads tid = some thread) (hstate : thread.state = .ready)
      (hq : tid ∈ s.readyQueue) (hs : thread.checkSleeping = false → tid ∈ s.sleeping) :
      Effect (.terminate tid) s (terminatedReady tid thread s)
  | terminateBlocked {tid : ℤ} {thread : Thread} {s : State} (hmain : tid ≠ 0)
      (hth : s.threads tid = some thread) (hstate : thread.state = .blocked)
      (hb : tid ∈ s.blocked) (hs : thread.checkSleeping = false → tid ∈ s.sleeping) :
      Effect (.terminate tid) s (terminatedBlocked tid thread s)
  | terminateSelf {tid : ℤ} {thread : Thread} {s s' : State} (hmain : tid ≠ 0)
      (hth : s.threads tid = some thread) (hstate : thread.state = .running)
      (h : makeSchedulingDecision (selfTerminated tid s) = .ok s') : Effect (.terminate tid) s s'
  | blockReady {tid : ℤ} {thread : Thread} {s : State} (hmain : tid ≠ 0)
      (hth : s.threads tid = some thread) (hstate : thread.state = .ready)
      (hq : thread.checkSleeping = true → tid ∈ s.readyQueue) :
      Effect (.block tid) s (blockedReady tid thread s)
  | blockSelf {tid : ℤ} {thread : Thread} {s s' : State} (hmain : tid ≠ 0)
      (hth : s.threads tid = some thread) (hstate : thread.state = .running)
      (h : makeSchedulingDecision (selfBlocked tid thread s) = .ok s') : Effect (.block tid) s s'
  | resume {tid : ℤ} {thread : Thread} {s : State} (hth : s.threads tid = some thread)
      (hstate : thread.state = .blocked) (hb : tid ∈ s.blocked) :
      Effect (.resume tid) s (resumed tid thread s)
  | sleep {numQuantums : ℤ} {thread : Thread} {s s' : State} (hmain : s.runningThread ≠ 0)
      (hth : s.threads s.runningThread = some thread)
      (h : makeSchedulingDecision (fellAsleep numQuantums thread s) = .ok s') :
      Effect (.sleep numQuantums) s s'
  | tick {thread : Thread} {s s' : State} (hth : s.threads s.runningThread = some thread)
      (h : makeSchedulingDecision (preempted thread s) = .ok s') : Effect .tick s s'

/-! ## Taking results apart -/

theorem setTimerThreads_cancel (s : State) :
    setTimerThreads cancelTimer s = .ok { s with timer := cancelTimer } := by
  simp [setTimerThreads, cancelTimer, Timeval.Valid]

theorem eraseFound_ok {x : ℤ} {l l' : List ℤ} :
    eraseFound x l = .ok l' ↔ x ∈ l ∧ l' = l.erase x := by
  unfold eraseFound
  split_ifs with h <;> simp [h, eq_comm]

theorem eraseKey_ok {k : ℤ} {m m' : SortedKeys ℤ} :
    eraseKey k m = .ok m' ↔ k ∈ m ∧ m' = m.erase k := by
  unfold eraseKey
  split_ifs with h <;> simp [h, eq_comm]

/-- A sequence that returns has returned at its first step. -/
theorem bind_ok {α β : Type} {x : Except Stop α} {f : α → Except Stop β} {b : β} :
    (x >>= f) = .ok b ↔ ∃ a, x = .ok a ∧ f a = .ok b := by
  cases x <;> simp [bind, Except.bind]

theorem purgeSleeping_ok {thread : Thread} {tid : ℤ} {m m' : SortedKeys ℤ} :
    purgeSleeping tid thread m = .ok m' ↔ (thread.checkSleeping = false → tid ∈ m) ∧
      m' = if thread.checkSleeping then m else m.erase tid := by
  unfold purgeSleeping
  cases h : thread.checkSleeping
  · simp [eraseKey_ok]
  · simp [eq_comm]

theorem purgeReadyQueue_ok {thread : Thread} {tid : ℤ} {l l' : List ℤ} :
    purgeReadyQueue tid thread l = .ok l' ↔ (thread.checkSleeping = true → tid ∈ l) ∧
      l' = if thread.checkSleeping then l.erase tid else l := by
  unfold purgeReadyQueue
  cases h : thread.checkSleeping
  · simp [eq_comm]
  · simp [eraseFound_ok]

theorem scheduler_effect {s s' : State} {r : Reply} (h : scheduler s = .ok (r, s')) :
    Effect .tick s s' := by
  unfold scheduler at h
  split at h
  · cases h
  · next thread hth =>
    obtain ⟨s₁, h₁, h⟩ := bind_ok.mp h
    cases h
    exact .tick hth h₁

theorem uthreadSpawn_effect {e : ℕ} {s s' : State} {r : Reply}
    (hfree : ∀ id ∈ s.ids, s.threads id = none)
    (h : uthreadSpawn e s = .ok (r, s')) : Effect (.spawn e) s s' := by
  unfold uthreadSpawn at h
  split at h
  · cases h; exact .unchanged _ _
  · next id htop =>
    have hnone : s.threads id = none := hfree id (by
      rw [MinHeap.mem_def, MinHeap.toList_of_top? htop]; exact List.mem_cons_self)
    split_ifs at h with he
    · cases h; exact .unchanged _ _
    · simp only [hnone, Option.isSome_none, Bool.false_eq_true, if_false] at h
      cases h
      exact .spawn he htop hnone

theorem uthreadTerminate_effect {tid : ℤ} {s s' : State} {r : Reply}
    (h : uthreadTerminate tid s = .ok (r, s')) : Effect (.terminate tid) s s' := by
  unfold uthreadTerminate at h
  split_ifs at h with hmain
  split at h
  · cases h; exact .unchanged _ _
  · next thread hth =>
    split at h
    · next hstate =>
      obtain ⟨rq, hrq, h⟩ := bind_ok.mp h
      obtain ⟨sl, hsl, h⟩ := bind_ok.mp h
      obtain ⟨hq, rfl⟩ := eraseFound_ok.mp hrq
      obtain ⟨hs, rfl⟩ := purgeSleeping_ok.mp hsl
      cases h
      exact .terminateReady hmain hth hstate hq hs
    · next hstate =>
      rw [setTimerThreads_cancel] at h
      obtain ⟨s₁, h₁, h⟩ := bind_ok.mp h
      cases h₁
      obtain ⟨s₂, h₂, h⟩ := bind_ok.mp h
      cases h
      exact .terminateSelf hmain hth hstate h₂
    · next hstate =>
      obtain ⟨bl, hbl, h⟩ := bind_ok.mp h
      obtain ⟨sl, hsl, h⟩ := bind_ok.mp h
      obtain ⟨hb, rfl⟩ := eraseKey_ok.mp hbl
      obtain ⟨hs, rfl⟩ := purgeSleeping_ok.mp hsl
      cases h
      exact .terminateBlocked hmain hth hstate hb hs

theorem uthreadBlock_effect {tid : ℤ} {s s' : State} {r : Reply}
    (h : uthreadBlock tid s = .ok (r, s')) : Effect (.block tid) s s' := by
  unfold uthreadBlock at h
  split_ifs at h with hmain
  · cases h; exact .unchanged _ _
  split at h
  · cases h; exact .unchanged _ _
  · next thread hth =>
    split at h
    · cases h; exact .unchanged _ _
    · next hstate =>
      obtain ⟨rq, hrq, h⟩ := bind_ok.mp h
      obtain ⟨hq, rfl⟩ := purgeReadyQueue_ok.mp hrq
      cases h
      exact .blockReady hmain hth hstate hq
    · next hstate =>
      dsimp only at h
      rw [setTimerThreads_cancel] at h
      obtain ⟨s₁, h₁, h⟩ := bind_ok.mp h
      cases h₁
      obtain ⟨s₂, h₂, h⟩ := bind_ok.mp h
      cases h
      exact .blockSelf hmain hth hstate h₂

theorem uthreadResume_effect {tid : ℤ} {s s' : State} {r : Reply}
    (h : uthreadResume tid s = .ok (r, s')) : Effect (.resume tid) s s' := by
  unfold uthreadResume at h
  split at h
  · cases h; exact .unchanged _ _
  · next thread hth =>
    by_cases hstate : thread.state = .blocked
    · rw [if_pos hstate] at h
      obtain ⟨bl, hbl, h⟩ := bind_ok.mp h
      obtain ⟨hb, rfl⟩ := eraseKey_ok.mp hbl
      have heq : resumed tid thread s = s' := by
        dsimp only at h
        split_ifs at h with hc <;> cases h <;> simp [resumed, hc, State.setThread]
      exact heq ▸ .resume hth hstate hb
    · rw [if_neg hstate] at h
      cases h
      exact .unchanged _ _

theorem uthreadSleep_effect {n : ℤ} {s s' : State} {r : Reply}
    (h : uthreadSleep n s = .ok (r, s')) : Effect (.sleep n) s s' := by
  unfold uthreadSleep threadsAt at h
  split_ifs at h with hmain
  · cases h; exact .unchanged _ _
  · cases hth : s.threads s.runningThread with
    | none => rw [hth] at h; cases h
    | some thread =>
        rw [hth] at h
        simp only [setTimerThreads_cancel] at h
        obtain ⟨s₁, h₁, h⟩ := bind_ok.mp h
        cases h₁
        obtain ⟨s₂, h₂, h⟩ := bind_ok.mp h
        cases h₂
        obtain ⟨s₃, h₃, h⟩ := bind_ok.mp h
        cases h
        exact .sleep hmain hth h₃

/-- **The list is complete**, wherever free ids have no thread. -/
theorem exec_effect {op : Op} {s s' : State} {r : Reply} (hfree : ∀ id ∈ s.ids, s.threads id = none)
    (h : exec op s = .ok (r, s')) : Effect op s s' := by
  cases op with
  | spawn e => exact uthreadSpawn_effect hfree h
  | terminate tid => exact uthreadTerminate_effect h
  | block tid => exact uthreadBlock_effect h
  | resume tid => exact uthreadResume_effect h
  | sleep n => exact uthreadSleep_effect h
  | tick => exact scheduler_effect h

end CoreOS.Uthreads
