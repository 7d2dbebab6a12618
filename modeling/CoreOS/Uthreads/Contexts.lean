import CoreOS.Uthreads.Atomicity

/-!
# The saved environments

Whether there is something to jump to when the library jumps, with ticks between any two statements.

* `Call.Waits`: a call that leaves its thread waiting for the environment it has saved.
  `Point.exposed` is where a tick makes the handler write over an environment that is needed.
* `Punctual`: the guard, that no tick comes there or in a critical section, and that no call
  terminates a thread that sleeps.
* `Point.Kept`, `Kept`: the invariant, that every thread that does not run has an environment.
  `exec_threads` and `exec_running` say once what a statement does to what it speaks of.
* `stuck_iff`: **under the guard the library can always go on**, except at `exit` and where
  `uthread_get_quantums` reads a thread that is gone.
-/

namespace CoreOS.Uthreads

open CoreOS.Lib Function

/-! ## The guard -/

/-- The call gives up the processor, and its thread, which is `id`, goes on from the environment
that the call has saved. -/
def Call.Waits (id : ℤ) : Call → Prop
  | .block tid => tid = id ∧ tid ≠ mainThreadId
  | .sleep _ => id ≠ mainThreadId
  | .spawn _ | .terminate _ | .resume _ => False

instance (id : ℤ) : ∀ c : Call, Decidable (c.Waits id)
  | .block tid => inferInstanceAs (Decidable (tid = id ∧ tid ≠ mainThreadId))
  | .sleep _ => inferInstanceAs (Decidable (id ≠ mainThreadId))
  | .spawn _ | .terminate _ | .resume _ => inferInstanceAs (Decidable False)

/-- A tick makes the handler write over an environment that is needed: the one that a call has saved
and will wait for, or the one that `run_thread` is about to jump to. -/
def Point.exposed (id : ℤ) : Point → Bool
  | .block c => decide (c.Waits id)
  | .jump _ => true
  | .user | .query _ _ | .start _ | .inspect _ | .test _ _ | .body _ _ | .resumed | .ret _ _ => false

/-- The processor is at such a point. -/
def Control.exposed (id : ℤ) : Control → Bool
  | .at p => p.exposed id
  | .scheduler _ _ => false

/-- A call is about to terminate a thread that is `READY` and sleeps. -/
def Control.terminatesSleeper (s : State) : Control → Bool
  | .at (.inspect (.terminate tid)) =>
      decide (tid ≠ mainThreadId) && (s.threads tid).any fun thread =>
        decide (thread.state = .ready) && !thread.checkSleeping
  | _ => false

/-- Ticks come in time, and sleepers are not terminated. -/
def Punctual (s : System) (a : Act) : Prop :=
  Honoured s a ∧ ¬ (a = .tick ∧ s.control.exposed s.globals.runningThread = true) ∧
    ¬ (a = .step ∧ s.control.terminatesSleeper s.globals = true)

instance (s : System) (a : Act) : Decidable (Punctual s a) := inferInstanceAs (Decidable (_ ∧ _))

theorem Punctual.of_reachableBy {n : ℕ} {q : ℤ} {s : System}
    (h : (preemptive n q).ReachableBy Punctual s) : (preemptive n q).ReachableBy Honoured s := by
  induction h with
  | init h => exact .init h
  | step _ hok h ih => exact ih.step hok.1 h

/-! ## Statements -/

section Statements

variable {st : Statement} {g g' : State} {s : System}

/-- One object at most is written over, and keeps its id. -/
def Rewritten (g g' : State) : Prop :=
  g'.threads = g.threads ∨ ∃ tid x y, g.threads tid = some x ∧
    g'.threads = update g.threads tid (some y) ∧ y.id = x.id

theorem deref_eq_ok {tid : ℤ} {x : Thread} : deref tid g = .ok x ↔ g.threads tid = some x := by
  unfold deref
  cases g.threads tid <;> simp

theorem threadsAt_eq_ok {tid : ℤ} {x : Thread} :
    threadsAt tid g = .ok x ↔ g.threads tid = some x := by
  unfold threadsAt
  cases g.threads tid <;> simp

/-- A turn of the loop over `sleeping`. -/
theorem rewritten_wake {tid : ℤ} (h : wakeSleeping [tid] g = .ok g') :
    Rewritten g g' ∧ g'.runningThread = g.runningThread := by
  cases hth : g.threads tid with
  | none =>
      simp only [wakeSleeping, hth] at h
      cases h
  | some th =>
      rw [wakeSleeping_cons hth, wakeSleeping] at h
      cases h
      exact ⟨.inr ⟨tid, th, th.reduceSleeping g.quantum, hth, wakeOne_threads, rfl⟩,
        (wakeOne_frame tid th g).2.1⟩

theorem setTimerThreads_frame {item : Itimerval} (h : setTimerThreads item g = .ok g') :
    g'.threads = g.threads ∧ g'.runningThread = g.runningThread := by
  unfold setTimerThreads at h
  split_ifs at h
  cases h
  exact ⟨rfl, rfl⟩

/-- What a statement does to the keys of `threads`. -/
theorem exec_threads (h : st.exec g = .ok g') : Rewritten g g' ∨
    (∃ id, st = .insertThread id ∧ g'.threads = update g.threads id (some { id := id })) ∨
    ∃ tid, st = .eraseThread tid ∧ g'.threads = update g.threads tid none := by
  cases st with
  | popId | construct | pushReady | insertBlocked | pushId | clearRunning | setFlag
  | countQuantum | eraseFront | block =>
      cases h
      exact .inl (.inl rfl)
  | insertThread id =>
      cases h
      split_ifs
      · exact .inl (.inl rfl)
      · exact .inr (.inl ⟨id, rfl, rfl⟩)
  | eraseThread tid =>
      cases h
      exact .inr (.inr ⟨tid, rfl, rfl⟩)
  | eraseReady tid | eraseBlocked tid =>
      obtain ⟨_, -, h⟩ := bind_ok.mp h
      cases h
      exact .inl (.inl rfl)
  | purgeReady tid | purgeSleeping tid =>
      obtain ⟨_, -, h⟩ := bind_ok.mp h
      obtain ⟨_, -, h⟩ := bind_ok.mp h
      cases h
      exact .inl (.inl rfl)
  | requeue tid =>
      obtain ⟨_, -, h⟩ := bind_ok.mp h
      cases h
      split_ifs <;> exact .inl (.inl rfl)
  | markBlocked tid | markReady tid | markRunning tid | useQuantum tid =>
      obtain ⟨_, hx, h⟩ := bind_ok.mp h
      cases h
      exact .inl (.inr ⟨_, _, _, deref_eq_ok.mp hx, rfl, rfl⟩)
  | setSleeping | markSelfReady =>
      obtain ⟨_, hx, h⟩ := bind_ok.mp h
      cases h
      exact .inl (.inr ⟨_, _, _, threadsAt_eq_ok.mp hx, rfl, rfl⟩)
  | insertSleeping | setRunning tid =>
      obtain ⟨_, -, h⟩ := bind_ok.mp h
      cases h
      exact .inl (.inl rfl)
  | cancel | installQuantum => exact .inl (.inl (setTimerThreads_frame h).1)
  | wake tid => exact .inl (rewritten_wake h).1

/-- The statements that change `running_thread`. -/
def Statement.switches : Statement → Bool
  | .clearRunning | .setRunning _ => true
  | _ => false

/-- What the other statements do to it. -/
theorem exec_running (h : st.exec g = .ok g') (hst : st.switches = false) :
    g'.runningThread = g.runningThread := by
  cases st with
  | clearRunning | setRunning => cases hst
  | popId | construct | pushReady | insertBlocked | pushId | setFlag | countQuantum
  | eraseFront | block | eraseThread =>
      cases h
      rfl
  | insertThread id =>
      cases h
      split_ifs <;> rfl
  | eraseReady tid | eraseBlocked tid =>
      obtain ⟨_, -, h⟩ := bind_ok.mp h
      cases h
      rfl
  | purgeReady tid | purgeSleeping tid =>
      obtain ⟨_, -, h⟩ := bind_ok.mp h
      obtain ⟨_, -, h⟩ := bind_ok.mp h
      cases h
      rfl
  | requeue tid =>
      obtain ⟨_, -, h⟩ := bind_ok.mp h
      cases h
      split_ifs <;> rfl
  | markBlocked tid | markReady tid | markRunning tid | useQuantum tid | setSleeping k
  | markSelfReady | insertSleeping =>
      obtain ⟨_, -, h⟩ := bind_ok.mp h
      cases h
      rfl
  | cancel | installQuantum => exact (setTimerThreads_frame h).2
  | wake tid => exact (rewritten_wake h).2

theorem Rewritten.isSome (h : Rewritten g g') {tid : ℤ} :
    (g'.threads tid).isSome = (g.threads tid).isSome := by
  rcases h with h | ⟨t, x, y, hx, h, -⟩
  · rw [h]
  · rw [h]
    by_cases ht : tid = t
    · rw [ht, update_self, hx]
      rfl
    · rw [update_of_ne ht]

theorem Rewritten.identified (h : Rewritten g g') (hid : Identified g) : Identified g' := by
  intro t th hth
  rcases h with h | ⟨t', x, y, hx, h, hy⟩
  · rw [h] at hth
    exact hid t th hth
  · rw [h] at hth
    by_cases ht : t = t'
    · rw [ht, update_self] at hth
      cases hth
      rw [hy, ht, hid t' x hx]
    · rw [update_of_ne ht] at hth
      exact hid t th hth

/-- A thread that is there afterwards was there before, or has been inserted. -/
theorem exec_isSome (h : st.exec g = .ok g') {tid : ℤ} (hsome : (g'.threads tid).isSome) :
    st = .insertThread tid ∨ ((g.threads tid).isSome ∧ st ≠ .eraseThread tid) := by
  have hst : st ≠ .eraseThread tid := by
    rintro rfl
    cases h
    simp at hsome
  rcases exec_threads h with hre | ⟨id, rfl, hth⟩ | ⟨t, rfl, hth⟩
  · exact .inr ⟨hre.isSome ▸ hsome, hst⟩
  · by_cases ht : tid = id
    · exact .inl (congrArg _ ht.symm)
    · rw [hth, update_of_ne ht] at hsome
      exact .inr ⟨hsome, hst⟩
  · rw [hth, update_of_ne fun heq => hst (congrArg _ heq.symm)] at hsome
    exact .inr ⟨hsome, hst⟩

theorem exec_identified (h : st.exec g = .ok g') (hid : Identified g) : Identified g' := by
  rcases exec_threads h with hre | ⟨id, -, hth⟩ | ⟨tid, -, hth⟩
  · exact hre.identified hid
  · intro t th ht
    rw [hth] at ht
    by_cases heq : t = id
    · rw [heq, update_self] at ht
      cases ht
      exact heq.symm
    · rw [update_of_ne heq] at ht
      exact hid t th ht
  · intro t th ht
    rw [hth] at ht
    by_cases heq : t = tid
    · rw [heq, update_self] at ht
      cases ht
    · rw [update_of_ne heq] at ht
      exact hid t th ht

/-- A statement saves at most the environment of the thread that it makes. -/
theorem effect_env_ne_dead {tid : ℤ} (h : st ≠ .construct tid → s.env tid ≠ .dead) :
    (st.effect s).env tid ≠ .dead := by
  cases st with
  | construct id =>
      show update s.env id .entry tid ≠ .dead
      by_cases ht : tid = id
      · rw [ht, update_self]
        exact Context.noConfusion
      · rw [update_of_ne ht]
        exact h fun heq => ht (Statement.construct.inj heq).symm
  | _ => exact h Statement.noConfusion

theorem effect_env_handler {id : ℤ} {p : Point} {m : SignalSet}
    (h : (st.effect s).env id = .handler p m) : s.env id = .handler p m := by
  cases st with
  | construct i =>
      change update s.env i .entry id = .handler p m at h
      by_cases ht : id = i
      · rw [ht, update_self] at h
        cases h
      · rwa [update_of_ne ht] at h
  | _ => exact h

end Statements

/-! ## The invariant -/

/-- Every thread but the one that runs has an environment. -/
def Others (g : State) (env : ℤ → Context) : Prop :=
  ∀ tid, (g.threads tid).isSome → tid ≠ g.runningThread → env tid ≠ .dead

/-- The call returns after the statements. -/
def Tail.returns : Tail → Bool
  | .leave _ _ | .unblock _ _ => true
  | .wakeLoop | .dispatch | .run _ | .arm _ | .resume _ => false

/-- The thread that `run_thread` has chosen. -/
def Tail.chosen : Tail → Option ℤ
  | .arm id | .resume id => some id
  | .wakeLoop | .dispatch | .run _ | .leave _ _ | .unblock _ _ => none

/-- At a sequence of statements. -/
structure BodyKept (g : State) (env : ℤ → Context) (code : List Statement) (tail : Tail) :
    Prop where
  /-- Whoever will be there has an environment, or gets one, apart from a thread that goes on. -/
  live : ∀ tid, (g.threads tid).isSome ∨ .insertThread tid ∈ code → .eraseThread tid ∉ code →
    .construct tid ∉ code → (tail.returns = true → tid ≠ g.runningThread) → env tid ≠ .dead
  /-- No code inserts a thread and erases one. -/
  apart : ∀ id tid, .insertThread id ∈ code → .eraseThread tid ∉ code
  /-- A call that returns leaves `running_thread` alone. -/
  stays : tail.returns = true → ∀ st ∈ code, st.switches = false
  /-- The thread that was chosen runs in the end. -/
  chosen : ∀ id, tail.chosen = some id → (.setRunning id ∈ code ∨ g.runningThread = id) ∧
    ∀ st ∈ code, st.switches = true → st = .setRunning id

/-- What holds at a point. -/
def Point.Kept (g : State) (env : ℤ → Context) : Point → Prop
  | .user | .query _ _ | .start _ | .resumed | .ret _ _ => Others g env
  | .block c | .inspect c =>
      Others g env ∧ (c.Waits g.runningThread → env g.runningThread ≠ .dead)
  | .test c _ => (Others g env ∧ (c.Waits g.runningThread → env g.runningThread ≠ .dead)) ∧
      ∀ tid, c = .block tid → tid ≠ mainThreadId
  | .body code tail => BodyKept g env code tail
  | .jump id => g.runningThread = id ∧ ∀ tid, (g.threads tid).isSome → env tid ≠ .dead

/-- What holds of the control. -/
def Control.Kept (g : State) (env : ℤ → Context) : Control → Prop
  | .at p => p.Kept g env
  | .scheduler p _ => Others g env ∧ p.exposed g.runningThread = false

/-- The first checks are over. -/
def Point.begun : Point → Bool
  | .test _ _ | .body _ _ => true
  | .user | .query _ _ | .start _ | .block _ | .inspect _ | .resumed | .jump _ | .ret _ _ => false

/-- **The invariant.** -/
structure Kept (s : System) : Prop where
  control : s.control.Kept s.globals s.env
  /-- Nobody was interrupted where the environment is needed. -/
  handlers : ∀ id p m, s.env id = .handler p m → p.exposed id = false
  identified : Identified s.globals
  /-- A call that has begun can be completed. -/
  completes : ∀ p, s.control = .at p → p.begun = true → ∃ g, p.finish s.globals = .ok g

/-! ## A call -/

section Calls

variable {n : ℕ} {q : ℤ} {g g' : State} {env env' : ℤ → Context} {c : Call} {k : ℕ} {p : Point}
  {st : Statement} {code : List Statement} {tail : Tail}

/-- A code that returns and inserts no thread. -/
theorem BodyKept.returning (h : Others g env) (htail : tail.returns = true)
    (hcode : ∀ st ∈ code, st.switches = false ∧ ∀ id, st ≠ .insertThread id) :
    BodyKept g env code tail where
  live tid hthere _ _ hne := by
    rcases hthere with hthere | hmem
    · exact h tid hthere (hne htail)
    · exact absurd rfl ((hcode _ hmem).2 tid)
  apart id tid hmem := absurd rfl ((hcode _ hmem).2 id)
  stays _ st hst := (hcode st hst).1
  chosen id hid := by
    cases tail with
    | leave | unblock => cases hid
    | _ => cases htail

/-- A code that gives up the processor. -/
theorem BodyKept.yielding (htail : tail.returns = false) (hchosen : tail.chosen = none)
    (hcode : ∀ st ∈ code, ∀ id, st ≠ .insertThread id)
    (h : ∀ tid, (g.threads tid).isSome → .eraseThread tid ∉ code → env tid ≠ .dead) :
    BodyKept g env code tail where
  live tid hthere herase _ _ := by
    rcases hthere with hthere | hmem
    · exact h tid hthere herase
    · exact absurd rfl (hcode _ hmem tid)
  apart id tid hmem := absurd rfl (hcode _ hmem id)
  stays hret := by
    rw [htail] at hret
    cases hret
  chosen id hid := by
    rw [hchosen] at hid
    cases hid

/-- **One statement.** -/
theorem BodyKept.step {s : System} (hk : BodyKept g s.env (st :: code) tail) (hid : Identified g)
    (h : st.exec g = .ok g') : BodyKept g' (st.effect s).env code tail where
  live tid hthere herase hconstruct hne := by
    refine effect_env_ne_dead fun hst => ?_
    have hthere' : (g.threads tid).isSome ∨ .insertThread tid ∈ st :: code := by
      rcases hthere with hsome | hmem
      · rcases exec_isSome h hsome with rfl | ⟨hsome, -⟩
        · exact .inr List.mem_cons_self
        · exact .inl hsome
      · exact .inr (List.mem_cons_of_mem _ hmem)
    refine hk.live tid hthere' ?_ ?_ ?_
    · rw [List.mem_cons, not_or]
      refine ⟨?_, herase⟩
      rintro rfl
      rcases hthere with hsome | hmem
      · rcases exec_isSome h hsome with heq | ⟨-, hne⟩
        · cases heq
        · exact hne rfl
      · exact hk.apart tid tid (List.mem_cons_of_mem _ hmem) List.mem_cons_self
    · rw [List.mem_cons, not_or]
      exact ⟨fun heq => hst heq.symm, hconstruct⟩
    · intro hret
      rw [← exec_running h (hk.stays hret st List.mem_cons_self)]
      exact hne hret
  apart id tid hmem hmem' := hk.apart id tid (List.mem_cons_of_mem _ hmem)
    (List.mem_cons_of_mem _ hmem')
  stays hret st' hst' := hk.stays hret st' (List.mem_cons_of_mem _ hst')
  chosen id hchosen := by
    obtain ⟨hruns, honly⟩ := hk.chosen id hchosen
    refine ⟨?_, fun st' hst' => honly st' (List.mem_cons_of_mem _ hst')⟩
    cases hsw : st.switches with
    | true =>
        obtain rfl := honly st List.mem_cons_self hsw
        obtain ⟨x, hx, h⟩ := bind_ok.mp h
        cases h
        exact .inr (hid id x (deref_eq_ok.mp hx))
    | false =>
        rw [exec_running h hsw]
        refine hruns.imp_left fun hmem => (List.mem_cons.mp hmem).resolve_left ?_
        rintro rfl
        cases hsw

/-- A new thread has its environment before it is there. -/
theorem BodyKept.spawn (h : Others g env) (id val : ℤ) (cerr : String) :
    BodyKept g env [.popId, .construct id, .insertThread id, .pushReady id]
      (.unblock val cerr) where
  live tid hthere _ hconstruct hne := by
    rcases hthere with hthere | hmem
    · exact h tid hthere (hne rfl)
    · obtain rfl : tid = id := by simpa using hmem
      exact absurd (by simp) hconstruct
  apart id' tid _ := by simp
  stays _ := by simp [Statement.switches]
  chosen id' hid := by cases hid

/-- **The first checks.** -/
theorem check_kept (hk : (Point.inspect c).Kept g env) (h : c.check g = .ok p) :
    p.Kept g env := by
  have hfails : ∀ {tail : Tail}, tail.returns = true → (Point.body [] tail).Kept g env :=
    fun htail => .returning hk.1 htail (by simp)
  cases c with
  | spawn entryPoint =>
      unfold Call.check at h
      dsimp only at h
      split at h
      · cases h
        exact hfails rfl
      · split_ifs at h
        · cases h
          exact hfails rfl
        · cases h
          exact .spawn hk.1 _ _ _
  | terminate tid =>
      unfold Call.check at h
      dsimp only at h
      split_ifs at h
      · cases h
        exact hfails rfl
      · cases h
        exact ⟨hk, fun _ heq => by cases heq⟩
  | block tid =>
      unfold Call.check at h
      dsimp only at h
      split_ifs at h with hmain
      · cases h
        exact hfails rfl
      · cases h
        exact hfails rfl
      · cases h
        refine ⟨hk, fun tid' heq => ?_⟩
        cases heq
        exact hmain
  | resume tid =>
      unfold Call.check at h
      dsimp only at h
      split_ifs at h
      · cases h
        exact hfails rfl
      · cases h
        exact ⟨hk, fun _ heq => by cases heq⟩
  | sleep numQuantums =>
      unfold Call.check at h
      dsimp only at h
      split_ifs at h with hmain
      · cases h
        exact hfails rfl
      · cases h
        refine .yielding rfl rfl (by simp) fun tid hthere _ => ?_
        by_cases hrun : tid = g.runningThread
        · rw [hrun]
          exact hk.2 hmain
        · exact hk.1 tid hthere hrun

/-- **A test.** A thread that is found `RUNNING` is the one that makes the call. -/
theorem decide_kept (hc : Consistent n q g) (hk : (Point.test c k).Kept g env)
    (h : c.decide k g = .ok p) : p.Kept g env := by
  obtain ⟨⟨hothers, hwaits⟩, hblock⟩ := hk
  have hcode : ∀ {code : List Statement} {tail : Tail}, tail.returns = true →
      (∀ st ∈ code, st.switches = false ∧ ∀ id, st ≠ .insertThread id) →
      (Point.body code tail).Kept g env := fun htail hcode => .returning hothers htail hcode
  unfold Call.decide at h
  obtain ⟨thread, hthread, h⟩ := bind_ok.mp h
  rw [deref_eq_ok] at hthread
  split at h
  · next state code hbranch =>
    split_ifs at h with hstate
    · cases h
      have hmem := List.mem_of_getElem? hbranch
      cases c with
      | spawn | sleep => cases hmem
      | terminate tid =>
          simp only [Call.branches, List.mem_cons, List.not_mem_nil, or_false, Prod.mk.injEq]
            at hmem
          rcases hmem with ⟨-, rfl⟩ | ⟨rfl, rfl⟩ | ⟨-, rfl⟩
          · exact hcode rfl (by simp [releaseStatements, Statement.switches])
          · refine .yielding rfl rfl (by simp [releaseStatements]) fun t hthere herase => ?_
            refine hothers t hthere fun hrun => herase ?_
            rw [hrun, ← hc.unique tid thread hthread hstate]
            simp [releaseStatements]
          · exact hcode rfl (by simp [releaseStatements, Statement.switches])
      | block tid =>
          simp only [Call.branches, List.mem_cons, List.not_mem_nil, or_false, Prod.mk.injEq]
            at hmem
          rcases hmem with ⟨-, rfl⟩ | ⟨-, rfl⟩ | ⟨rfl, rfl⟩
          · exact hcode rfl (by simp)
          · exact hcode rfl (by simp [Statement.switches])
          · refine .yielding rfl rfl (by simp) fun t hthere _ => ?_
            by_cases hrun : t = g.runningThread
            · rw [hrun]
              exact hwaits ⟨hc.unique tid thread hthread hstate, hblock tid rfl⟩
            · exact hothers t hthere hrun
      | resume tid =>
          simp only [Call.branches, List.mem_cons, List.not_mem_nil, or_false, Prod.mk.injEq]
            at hmem
          obtain ⟨-, rfl⟩ := hmem
          exact hcode rfl (by simp [Statement.switches])
    · cases h
      exact ⟨⟨hothers, hwaits⟩, hblock⟩
  · cases h
    cases c with
    | terminate tid =>
        exact hcode rfl (by simp [Call.otherwise, releaseStatements, Statement.switches])
    | spawn | block | resume | sleep => exact hcode rfl (by simp [Call.otherwise])

/-- **The end of a sequence of statements.** -/
theorem follow_kept (hid : Identified g) (hk : BodyKept g env [] tail)
    (h : tail.follow g = .ok p) : p.Kept g env := by
  have hall : tail.returns = false → ∀ tid, (g.threads tid).isSome → env tid ≠ .dead :=
    fun hret tid hthere => hk.live tid (.inl hthere) (by simp) (by simp) (by simp [hret])
  unfold Tail.follow at h
  cases tail with
  | wakeLoop =>
      cases h
      exact .yielding rfl rfl (by simp) fun tid hthere _ => hall rfl tid hthere
  | dispatch =>
      dsimp only at h
      split at h
      · cases h
      · cases h
        exact .yielding rfl rfl (by simp) fun tid hthere _ => hall rfl tid hthere
  | run next =>
      obtain ⟨thread, hthread, h⟩ := bind_ok.mp h
      cases h
      rw [hid next thread (threadsAt_eq_ok.mp hthread)]
      exact {
        live := fun tid hthere _ _ _ => hthere.elim (hall rfl tid) (by simp [runStatements])
        apart := by simp [runStatements]
        stays := fun hret => by cases hret
        chosen := fun id heq => by
          cases heq
          simp [runStatements, Statement.switches] }
  | arm id =>
      cases h
      have hrun : g.runningThread = id := (hk.chosen id rfl).1.resolve_left (by simp)
      have hcode : ∀ st ∈ armStatements g.setTimer, st.switches = false ∧
          ∀ id, st ≠ .insertThread id := by
        unfold armStatements
        split_ifs <;> simp [Statement.switches]
      exact {
        live := fun tid hthere _ _ _ => hthere.elim (hall rfl tid)
          fun hmem => absurd rfl ((hcode _ hmem).2 tid)
        apart := fun id tid hmem => absurd rfl ((hcode _ hmem).2 id)
        stays := fun hret => by cases hret
        chosen := fun id' heq => by
          cases heq
          refine ⟨.inr hrun, fun st hst hsw => ?_⟩
          rw [(hcode st hst).1] at hsw
          cases hsw }
  | resume id =>
      cases h
      exact ⟨(hk.chosen id rfl).1.resolve_left (by simp), hall rfl⟩
  | leave val cerr | unblock val cerr =>
      cases h
      exact fun tid hthere hne =>
        hk.live tid (.inl hthere) (by simp) (by simp) fun _ => hne

end Calls

/-! ## A switch -/

section Switch

variable {n : ℕ} {q : ℤ} {s s' : System} {id : ℤ}

/-- Outside the critical sections, and where its environment is not needed, all that holds of a
thread is that the others have theirs. -/
theorem Point.kept_of_others {g : State} {env : ℤ → Context} {p : Point}
    (hcrit : p.critical = false) (hexposed : p.exposed g.runningThread = false)
    (h : Others g env) : p.Kept g env := by
  cases p with
  | user | query | start | resumed | ret => exact h
  | block c => exact ⟨h, fun hw => absurd hw (of_decide_eq_false hexposed)⟩
  | jump => cases hexposed
  | inspect | test | body => cases hcrit

/-- Who has something to jump to. -/
structure Switching (s : System) (id : ℤ) : Prop where
  runs : s.globals.runningThread = id
  live : ∀ tid, (s.globals.threads tid).isSome → s.env tid ≠ .dead
  there : (s.globals.threads id).isSome
  handlers : ∀ id p m, s.env id = .handler p m → p.exposed id = false
  calm : Calm s.env

/-- **A jump** leads back to where the thread was. -/
theorem Switching.jump (h : Switching s id) : ∃ s', jumpTo id s = some s' ∧
    s'.globals = s.globals ∧ s'.control.Kept s'.globals s'.env ∧
    (∀ i p m, s'.env i = .handler p m → p.exposed i = false) ∧
    ∀ p, s'.control = .at p → p.begun = false := by
  have hothers : Others s.globals (update s.env id .dead) := by
    intro tid hthere hne
    rw [h.runs] at hne
    rw [update_of_ne hne]
    exact h.live tid hthere
  have hhandlers : ∀ i p m, update s.env id .dead i = .handler p m → p.exposed i = false := by
    intro i p m hi
    by_cases hid : i = id
    · rw [hid, update_self] at hi
      cases hi
    · rw [update_of_ne hid] at hi
      exact h.handlers i p m hi
  unfold jumpTo
  cases henv : s.env id with
  | dead => exact absurd henv (h.live id h.there)
  | entry =>
      exact ⟨_, rfl, rfl, fun tid hthere _ => h.live tid hthere, h.handlers,
        fun p hp => by cases hp; rfl⟩
  | handler p m =>
      have hcalm := h.calm id
      rw [henv] at hcalm
      refine ⟨_, rfl, rfl, ?_, hhandlers, fun p' hp => ?_⟩
      · refine Point.kept_of_others hcalm.1 ?_ hothers
        rw [h.runs]
        exact h.handlers id p m henv
      · cases hp
        cases p with
        | test | body => cases hcalm.1
        | _ => rfl
  | blocking m => exact ⟨_, rfl, rfl, hothers, hhandlers, fun p hp => by cases hp; rfl⟩
  | sleeping m => exact ⟨_, rfl, rfl, hothers, hhandlers, fun p hp => by cases hp; rfl⟩

/-- A decision adds no thread and takes none away. -/
theorem Decision.isSome {g g' : State} (hd : Decision g g') (tid : ℤ) :
    (g'.threads tid).isSome = (g.threads tid).isSome := by
  have hrested : (rested g tid).isSome = (g.threads tid).isSome := by
    unfold rested
    split_ifs
    · rw [Option.isSome_map]
    · rfl
  by_cases ht : tid = g'.runningThread
  · obtain ⟨th, hth, hrun⟩ := hd.dispatched
    rw [← hrested, ht, hth, hrun]
    rfl
  · rw [hd.others tid ht, hrested]

/-- A tick ends in a decision. -/
theorem Consistent.decision_of_scheduler {g g' : State} {r : Reply} (h : Consistent n q g)
    (hs : scheduler g = .ok (r, g')) : ∃ th, g.threads g.runningThread = some th ∧
      Decision (preempted th g) g' := by
  obtain ⟨th, hth, -⟩ := h.running
  have hp := h.suspended_preempted hth
  unfold scheduler at hs
  rw [hth] at hs
  obtain ⟨u, hu, hs⟩ := bind_ok.mp hs
  cases hs
  exact ⟨th, hth, makeSchedulingDecision_cases hp.identified hp.sleepersLive hu⟩

/-- A tick adds no thread and takes none away. -/
theorem Consistent.isSome_scheduler {g g' : State} {r : Reply} (h : Consistent n q g)
    (hs : scheduler g = .ok (r, g')) (tid : ℤ) :
    (g'.threads tid).isSome = (g.threads tid).isSome := by
  obtain ⟨th, hth, hd⟩ := h.decision_of_scheduler hs
  rw [hd.isSome]
  show (update g.threads g.runningThread (some th.changeStateToReady) tid).isSome = _
  by_cases ht : tid = g.runningThread
  · rw [ht, update_self, hth]
    rfl
  · rw [update_of_ne ht]

/-- What `scheduler` leaves is consistent. -/
theorem Consistent.scheduled {g g' : State} {r : Reply} (h : Consistent n q g)
    (hs : scheduler g = .ok (r, g')) : Consistent n q g' := by
  have hstep : (library n q).step .tick g = some g' := by
    simp only [library, exec, hs, h.armed, not_true_eq_false, and_false, if_false]
    rfl
  exact h.step hstep

/-- The thread that was interrupted and all others have something to be resumed from. -/
theorem Consistent.live_scheduled {g g' : State} {r : Reply} (h : Consistent n q g)
    (hs : scheduler g = .ok (r, g')) {env : ℤ → Context} (hothers : Others g env) (p : Point)
    (m : SignalSet) (tid : ℤ) (hthere : (g'.threads tid).isSome) :
    update env g.runningThread (.handler p m) tid ≠ .dead := by
  rw [h.isSome_scheduler hs] at hthere
  by_cases hrun : tid = g.runningThread
  · rw [hrun, update_self]
    exact Context.noConfusion
  · rw [update_of_ne hrun]
    exact hothers tid hthere hrun

end Switch

/-! ## Steps -/

section Steps

variable {n : ℕ} {q : ℤ} {s s' : System} {t : State} {p : Point}

theorem Kept.init (h : (preemptive n q).init s) : Kept s := by
  obtain ⟨g, m, hg, rfl⟩ := h
  obtain ⟨rfl, -, -, -⟩ := library_init.mp hg
  refine ⟨fun tid hthere hne => ?_, fun id p m henv => ?_, (Consistent.init hg).identified,
    fun p hp hbegun => ?_⟩
  · obtain ⟨th, hth⟩ := Option.isSome_iff_exists.mp hthere
    exact absurd (afterInit_threads hth).1 hne
  · cases henv
  · cases hp
    cases hbegun

/-- At a point outside the critical sections. -/
theorem Point.Kept.others {g : State} {env : ℤ → Context} (h : p.Kept g env)
    (hcrit : p.critical = false) : Others g env := by
  cases p with
  | user | query | start | resumed | ret => exact h
  | block c => exact h.1
  | jump => exact fun tid hthere _ => h.2 tid hthere
  | inspect | test | body => cases hcrit

/-- A step to a point where no call has begun. -/
theorem Kept.calm {env : ℤ → Context} {m : SignalSet} (hk : Kept s) (hp : p.Kept s.globals env)
    (henv : ∀ id p m, env id = .handler p m → p.exposed id = false) (hbegun : p.begun = false) :
    Kept { s with mask := m, env := env, control := .at p } where
  control := hp
  handlers := henv
  identified := hk.identified
  completes p' hp' hb := by
    cases hp'
    rw [hbegun] at hb
    cases hb

/-- An environment is saved that is no handler's. -/
theorem handlers_update {env : ℤ → Context} {id : ℤ} {c : Context}
    (h : ∀ id p m, env id = .handler p m → p.exposed id = false)
    (hc : ∀ p m, c = .handler p m → p.exposed id = false) :
    ∀ i p m, update env id c i = .handler p m → p.exposed i = false := by
  intro i p m hi
  by_cases hid : i = id
  · rw [hid, update_self] at hi
    rw [hid]
    exact hc p m hi
  · rw [update_of_ne hid] at hi
    exact h i p m hi

/-- What is saved for the thread that runs is not needed by the others. -/
theorem Others.update {g : State} {env : ℤ → Context} (h : Others g env) (c : Context) :
    Others g (update env g.runningThread c) := by
  intro tid hthere hne
  rw [update_of_ne hne]
  exact h tid hthere hne

/-- What `run_thread` has to jump to. -/
theorem Kept.switching_jump (hk : Kept s) {id : ℤ} (hs : s.control = .at (.jump id))
    (hrunning : (s.globals.threads s.globals.runningThread).isSome) (hcalm : Calm s.env) :
    Switching s id := by
  have hkept := hk.control
  rw [hs] at hkept
  exact ⟨hkept.1, hkept.2, hkept.1 ▸ hrunning, hk.handlers, hcalm⟩

/-- **The invariant is kept** by a step of a thread. -/
theorem Kept.point_step (ht : (library n q).Reachable t) (hf : Follows s t) (hk : Kept s)
    (hs : s.control = .at p) (hok : s.control.terminatesSleeper s.globals = false)
    (h : p.step n s = some s') : Kept s' := by
  have hc := reachable_consistent ht
  have hkept := hk.control
  rw [hs] at hkept
  change p.Kept s.globals s.env at hkept
  cases p with
  | user => cases h
  | query tid r =>
      cases r with
      | block | find | miss | hit =>
          cases h
          exact hk.calm hkept hk.handlers rfl
      | read k =>
          obtain ⟨-, h⟩ := Option.ite_none_right_eq_some.mp h
          obtain ⟨thread, -, h⟩ := Option.bind_eq_some_iff.mp h
          cases h
          exact hk.calm hkept hk.handlers rfl
  | start c =>
      obtain ⟨env, henv, h⟩ := Option.bind_eq_some_iff.mp h
      cases h
      unfold saveEnv at henv
      split_ifs at henv
      cases henv
      refine hk.calm (p := .block c) ⟨hkept.update _, fun _ => ?_⟩
        (handlers_update hk.handlers fun p m hp => ?_) rfl
      · rw [update_self]
        split <;> exact Context.noConfusion
      · split at hp <;> cases hp
  | block c =>
      cases h
      exact hk.calm (p := .inspect c) hkept hk.handlers rfl
  | inspect c =>
      obtain ⟨p', hp', h⟩ := Option.bind_eq_some_iff.mp h
      cases h
      have hcheck := toOption_eq_some.mp hp'
      refine ⟨check_kept hkept hcheck, hk.handlers, hk.identified, fun p'' hp'' _ => ?_⟩
      cases hp''
      have hglobals : s.globals = t := hf.observing (.inspect c) hs rfl
      have hmain : c.op ≠ .terminate 0 := by
        rintro heq
        cases c <;> cases heq
        cases hcheck
      have hsleeper : ¬ TerminatesSleeper c.op s.globals := by
        rintro ⟨tid, th, heq, hne, hth, hst, hsl⟩
        cases c <;> cases heq
        rw [hs] at hok
        simp [Control.terminatesSleeper, hth, hst, hsl, mainThreadId, hne] at hok
      obtain ⟨r, g, hexec⟩ := hc.exec_ok c.op hmain (hglobals ▸ hsleeper)
      refine ⟨g, ?_⟩
      show p'.finish s.globals = _
      rw [← (check_finish hcheck).1, finish_inspect, hglobals, hexec]
      rfl
  | test c k =>
      obtain ⟨p', hp', h⟩ := Option.bind_eq_some_iff.mp h
      cases h
      have hdecide := toOption_eq_some.mp hp'
      have hglobals : s.globals = t := hf.observing (.test c k) hs rfl
      refine ⟨decide_kept (hglobals ▸ hc) hkept hdecide, hk.handlers, hk.identified,
        fun p'' hp'' _ => ?_⟩
      cases hp''
      show ∃ g, p'.finish s.globals = .ok g
      rw [← (decide_finish hdecide).1]
      exact hk.completes _ hs rfl
  | body code tail =>
      cases code with
      | cons st code =>
          obtain ⟨g, hg, h⟩ := Option.bind_eq_some_iff.mp h
          cases h
          have hexec := toOption_eq_some.mp hg
          refine ⟨?_, fun id p m henv => ?_, ?_, fun p hp _ => ?_⟩
          · rw [effect_globals, effect_control]
            exact BodyKept.step (s := { s with globals := g, control := .at (.body code tail) })
              hkept hk.identified hexec
          · exact hk.handlers id p m (effect_env_handler (s := { s with
              globals := g, control := .at (.body code tail) }) henv)
          · rw [effect_globals]
            exact exec_identified hexec hk.identified
          · rw [effect_control] at hp
            cases hp
            rw [effect_globals]
            obtain ⟨g', hg'⟩ := hk.completes _ hs rfl
            exact ⟨g', (finishCode_cons_ok hexec).symm.trans hg'⟩
      | nil =>
          obtain ⟨p', hp', h⟩ := Option.bind_eq_some_iff.mp h
          cases h
          have hfollow := toOption_eq_some.mp hp'
          refine ⟨follow_kept hk.identified hkept hfollow, hk.handlers, hk.identified,
            fun p'' hp'' _ => ?_⟩
          cases hp''
          show ∃ g, p'.finish s.globals = .ok g
          rw [← (follow_finish hfollow).1]
          exact hk.completes _ hs rfl
  | resumed =>
      cases h
      exact hk.calm (p := .ret 0 "") hkept hk.handlers rfl
  | jump id =>
      have hglobals : s.globals = t := hf.calm (by rw [hs]; rfl)
      obtain ⟨thread, hthread, -⟩ := hc.running
      obtain ⟨s'', hs'', hglobals', hcontrol, hhandlers, hbegun⟩ :=
        (hk.switching_jump hs (by rw [hglobals, hthread]; rfl) hf.contexts).jump
      change jumpTo id s = some s' at h
      rw [hs''] at h
      cases h
      refine ⟨hcontrol, hhandlers, hglobals' ▸ hk.identified, fun p hp hb => ?_⟩
      rw [hbegun p hp] at hb
      cases hb
  | ret val cerr =>
      cases h
      split
      · exact hk.calm (p := .user) (hkept.update _)
          (handlers_update hk.handlers fun _ _ hp => by cases hp) rfl
      · exact hk.calm (p := .user) (hkept.update _)
          (handlers_update hk.handlers fun _ _ hp => by cases hp) rfl
      · exact hk.calm (p := .user) hkept hk.handlers rfl

/-- What `scheduler` leaves to jump to, when it has interrupted the thread at `p`. -/
theorem Kept.switching (ht : (library n q).Reachable t) (hf : Follows s t) (hk : Kept s)
    {m : SignalSet} (hs : s.control = .scheduler p m) {r : Reply} {g : State}
    (hg : scheduler s.globals = .ok (r, g)) : Switching { s with
      globals := g
      env := update s.env s.globals.runningThread (.handler p m) } g.runningThread := by
  have hglobals : s.globals = t := hf.calm (by rw [hs]; rfl)
  have hc : Consistent n q s.globals := hglobals ▸ reachable_consistent ht
  have hkept := hk.control
  rw [hs] at hkept
  obtain ⟨hothers, hexposed⟩ := hkept
  have hcalm := (hf.interrupted p m hs).1
  obtain ⟨thread, hthread, -⟩ := (hc.scheduled hg).running
  refine ⟨rfl, hc.live_scheduled hg hothers p m, Option.isSome_iff_exists.mpr ⟨thread, hthread⟩,
    handlers_update hk.handlers fun p' m' hp => ?_, hf.contexts.update _ hcalm⟩
  cases hp
  exact hexposed

/-- **The handler goes through.** -/
theorem Kept.handle (ht : (library n q).Reachable t) (hf : Follows s t) (hk : Kept s)
    {m : SignalSet} (hs : s.control = .scheduler p m) :
    ∃ s', CoreOS.Uthreads.handle n p m s = some s' ∧ Kept s' := by
  have hc := reachable_consistent ht
  have hglobals : s.globals = t := hf.calm (by rw [hs]; rfl)
  obtain ⟨g, hg⟩ := hc.scheduler_ok
  rw [← hglobals] at hg
  have hswitching := hk.switching ht hf hs hg
  obtain ⟨s', hs', hglobals', hcontrol, hhandlers, hbegun⟩ := hswitching.jump
  obtain ⟨thread, hthread, -⟩ := hc.running
  have hbounds := hc.bounded _ thread hthread
  rw [← hglobals] at hbounds
  refine ⟨s', ?_, hcontrol, hhandlers, ?_, fun p' hp hb => ?_⟩
  · unfold CoreOS.Uthreads.handle saveEnv
    rw [if_pos hbounds, hg]
    exact hs'
  · rw [hglobals']
    exact (Consistent.scheduled (hglobals ▸ hc) hg).identified
  · rw [hbegun p' hp] at hb
    cases hb

/-- **The invariant is kept**, while the ticks are punctual. -/
theorem Kept.act {a : Act} (ht : (library n q).Reachable t) (hf : Follows s t) (hk : Kept s)
    (hok : Punctual s a) (h : s.act n a = some s') : Kept s' := by
  have hact := h
  unfold System.act at h
  split at h
  · next c hs =>
    have hkept := hk.control
    rw [hs] at hkept
    cases h
    cases c with
    | block | sleep => exact hk.calm (p := .start _) hkept hk.handlers rfl
    | spawn | terminate | resume =>
        exact hk.calm (p := .block _) ⟨hkept, fun hw => hw.elim⟩ hk.handlers rfl
  · next tid hs =>
    have hkept := hk.control
    rw [hs] at hkept
    cases h
    exact hk.calm (p := .query tid .block) hkept hk.handlers rfl
  · next p hs =>
    refine hk.point_step ht hf hs ?_ h
    by_contra hno
    exact hok.2.2 ⟨rfl, Bool.eq_true_of_not_eq_false hno⟩
  · next p m hs =>
    obtain ⟨u, hu, hku⟩ := hk.handle ht hf hs
    rw [hu] at h
    cases h
    exact hku
  · have hcalm := (hf.tick hok.1 hact).interrupted
    obtain ⟨p, hs, -, rfl⟩ := tick_cases hact
    have hkept := hk.control
    rw [hs] at hkept
    have hexposed : p.exposed s.globals.runningThread = false := by
      by_contra hno
      refine hok.2.1 ⟨rfl, ?_⟩
      rw [hs]
      exact Bool.eq_true_of_not_eq_false hno
    exact ⟨⟨hkept.others (hcalm p s.mask rfl).1.1, hexposed⟩, hk.handlers,
      hk.identified, fun p hp => by cases hp⟩
  · cases h

/-- **Run rule.** -/
theorem kept_of_reachable (h : (preemptive n q).ReachableBy Punctual s) : Kept s := by
  refine h.invariant (P := Kept) (fun s => Kept.init) ?_
  intro a s s' hs hk hok hstep
  obtain ⟨t, ht, hf⟩ := ReachableBy.follows (Punctual.of_reachableBy hs)
  exact hk.act ht hf hok hstep

end Steps

/-! ## Progress -/

section Progress

variable {n : ℕ} {q : ℤ} {s : System} {t : State} {p : Point}

/-- Where a call can be completed, what follows a sequence of statements is defined. -/
theorem exists_follow {tail : Tail} {g g' : State} (h : tail.finish g = .ok g') :
    ∃ p, tail.follow g = .ok p := by
  cases tail with
  | dispatch =>
      cases hq : g.readyQueue with
      | nil => simp [Tail.finish, finishDispatch, hq] at h
      | cons next rest => exact ⟨_, by simp only [Tail.follow, hq]; rfl⟩
  | run next =>
      obtain ⟨thread, hthread, -⟩ := bind_ok.mp h
      exact ⟨_, bind_ok.mpr ⟨thread, hthread, rfl⟩⟩
  | _ => exact ⟨_, rfl⟩

/-- A step of a call that can be completed. -/
theorem exists_step_of_finish {g : State} (hp : p.begun = true)
    (h : p.finish s.globals = .ok g) : ∃ s', p.step n s = some s' := by
  cases p with
  | test c k =>
      obtain ⟨thread, hthread, -⟩ := bind_ok.mp h
      obtain ⟨p', hp'⟩ : ∃ p', c.decide k s.globals = .ok p' := by
        unfold Call.decide
        rw [hthread]
        cases c.branches[k]? <;> exact ⟨_, rfl⟩
      exact ⟨_, Option.bind_eq_some_iff.mpr ⟨p', toOption_eq_some.mpr hp', rfl⟩⟩
  | body code tail =>
      cases code with
      | cons st code =>
          change finishCode (st :: code, tail) s.globals = .ok g at h
          rw [finishCode_cons] at h
          obtain ⟨g', hg', -⟩ := bind_ok.mp h
          exact ⟨_, Option.bind_eq_some_iff.mpr ⟨g', toOption_eq_some.mpr hg', rfl⟩⟩
      | nil =>
          have hfinish : tail.finish s.globals = .ok g := h
          obtain ⟨p', hp'⟩ := exists_follow hfinish
          exact ⟨_, Option.bind_eq_some_iff.mpr ⟨p', toOption_eq_some.mpr hp', rfl⟩⟩
  | _ => cases hp

/-- The first checks end the process if the main thread is to be terminated. -/
theorem exists_check {c : Call} {g : State} (hc : c ≠ .terminate mainThreadId) :
    ∃ p, c.check g = .ok p := by
  cases c with
  | terminate tid =>
      have hmain : ¬ tid = mainThreadId := fun heq => hc (heq ▸ rfl)
      unfold Call.check
      dsimp only
      rw [if_neg hmain]
      split_ifs <;> exact ⟨_, rfl⟩
  | spawn entryPoint =>
      unfold Call.check
      dsimp only
      split
      · exact ⟨_, rfl⟩
      · split_ifs <;> exact ⟨_, rfl⟩
  | block | resume | sleep =>
      unfold Call.check
      dsimp only
      split_ifs <;> exact ⟨_, rfl⟩

/-- A thread at a point can take its next step, with three exceptions. -/
theorem Kept.goes_on (ht : (library n q).Reachable t) (hf : Follows s t) (hk : Kept s)
    (hs : s.control = .at p) : (∃ s', p.step n s = some s') ∨ p = .user ∨
      p = .inspect (.terminate mainThreadId) ∨
      ∃ tid k, p = .query tid (.read k) ∧ s.Gone tid k := by
  have hc := reachable_consistent ht
  obtain ⟨thread, hthread, -⟩ := hc.running
  cases p with
  | user => exact .inr (.inl rfl)
  | query tid r =>
      cases r with
      | block | find | miss | hit => exact .inl ⟨_, rfl⟩
      | read k =>
          by_cases hgone : s.Gone tid k
          · exact .inr (.inr (.inr ⟨tid, k, rfl, hgone⟩))
          · obtain ⟨hthere, hmade⟩ := not_or.mp hgone
            obtain ⟨x, hx⟩ := Option.ne_none_iff_exists'.mp hthere
            refine .inl ⟨_, (if_pos (not_not.mp hmade)).trans
              (Option.bind_eq_some_iff.mpr ⟨x, ?_, rfl⟩)⟩
            exact toOption_eq_some.mpr (deref_ok hx)
  | start c =>
      have hglobals : s.globals = t := hf.calm (by rw [hs]; rfl)
      have hbounds := hc.bounded _ thread hthread
      rw [← hglobals] at hbounds
      exact .inl ⟨_, Option.bind_eq_some_iff.mpr ⟨_, if_pos hbounds, rfl⟩⟩
  | inspect c =>
      by_cases hmain : c = .terminate mainThreadId
      · exact .inr (.inr (.inl (congrArg _ hmain)))
      · obtain ⟨p', hp'⟩ := exists_check (g := s.globals) hmain
        exact .inl ⟨_, Option.bind_eq_some_iff.mpr ⟨p', toOption_eq_some.mpr hp', rfl⟩⟩
  | test | body =>
      obtain ⟨g, hg⟩ := hk.completes _ hs rfl
      exact .inl (exists_step_of_finish rfl hg)
  | jump id =>
      have hglobals : s.globals = t := hf.calm (by rw [hs]; rfl)
      obtain ⟨s', hs', -⟩ := (hk.switching_jump hs (by rw [hglobals, hthread]; rfl)
        hf.contexts).jump
      exact .inl ⟨s', hs'⟩
  | block | resumed | ret => exact .inl ⟨_, rfl⟩

/-- **Progress**, with unbounded counters. While ticks come in time and no sleeper is terminated,
the library can always take its next step, except that it waits for the user code, that `exit` ends
the process, and that `uthread_get_quantums` may read a thread that has been terminated since it
found it, whether or not its id is in use again. -/
theorem stuck_iff (h : (preemptive n q).ReachableBy Punctual s) :
    (preemptive n q).step .step s = none ↔ s.control = .at .user ∨
      s.control = .at (.inspect (.terminate mainThreadId)) ∨
      ∃ tid k, s.control = .at (.query tid (.read k)) ∧ s.Gone tid k := by
  have hk := kept_of_reachable h
  obtain ⟨t, ht, hf⟩ := ReachableBy.follows (Punctual.of_reachableBy h)
  show s.act n .step = none ↔ _
  unfold System.act
  cases hs : s.control with
  | scheduler p m =>
      obtain ⟨s', hs', -⟩ := hk.handle ht hf hs
      simp [hs']
  | «at» p =>
      dsimp only
      constructor
      · intro hnone
        rcases hk.goes_on ht hf hs with ⟨s', hs'⟩ | rfl | rfl | ⟨tid, k, rfl, hgone⟩
        · rw [hs'] at hnone
          cases hnone
        · exact .inl rfl
        · exact .inr (.inl rfl)
        · exact .inr (.inr ⟨tid, k, rfl, hgone⟩)
      · rintro (heq | heq | ⟨tid, k, heq, hgone⟩)
        · cases heq
          rfl
        · cases heq
          rfl
        · cases heq
          rcases hgone with hnone | hmade
          · simp [Point.step, Query.step, deref, hnone, Except.toOption]
          · exact if_neg hmade

end Progress

/-- A tick that is not punctual: thread 1 has saved its environment in `uthread_sleep` and not yet
blocked the signals. It comes back, sleeps, and `scheduler` has nothing to jump to. -/
example : ∃ s, (preemptive 4 100).run
      (.call (.spawn 1) :: steps 8 ++
        [.tick, .step, .call (.sleep 1), .step, .tick, .step, .tick, .step] ++ steps 23 ++ [.tick])
      smallProcess = some s ∧ s.globals.readyQueue = [1] ∧
    (preemptive 4 100).step .step s = none :=
  ⟨_, rfl, rfl, rfl⟩

end CoreOS.Uthreads
