import CoreOS.Uthreads.Atomicity

/-!
# The signal mask across a call

Whether a call leaves the signals of `group_of_signals` blocked exactly if it found them blocked,
with ticks between any two of its statements.

* `Visit`: a call in progress, with what it found. `History` has one for each thread, which travels
  with the thread as its saved environment does.
* `Point.restoring`: a step that does its part in restoring the mask.
* `watched`: the machine with that history, which reaches the same states (`watched_reachable`,
  `preemptive_reachable`); `Watched` is its invariant.
* `mask_restored_iff`: **a call restores the mask if and only if all its steps do their part.**
  `mask_not_restored` is a call one of whose steps does not.
-/

namespace CoreOS.Uthreads

open CoreOS.Lib Function

/-- The signals of `group_of_signals` are blocked. -/
def SignalSet.groupBlocked (m : SignalSet) : Bool := decide (blockSignals m = m)

theorem groupBlocked_eq (m : SignalSet) : m.groupBlocked = m.alrm := by
  rcases m with ⟨_ | _, _ | _⟩ <;> rfl

/-! ## Calls in progress -/

/-- A call in progress. -/
structure Visit where
  /-- The signals were blocked when it was made. -/
  before : Bool
  /-- All its steps so far have been restoring ones. -/
  met : Bool := true
  deriving DecidableEq, Repr

/-- A step from the point, with the globals `g`, does its part for a call that found the signals
blocked or not. A call that goes on to `return` without `unblock_signals` has to have found them
blocked, as has `uthread_sleep` where it blocks them again and returns; a call that is about to
unblock them and `return` has to have found them unblocked. -/
def Point.restoring (g : State) (before : Bool) : Point → Bool
  | .inspect (.spawn entryPoint) => before || (g.ids.top?.isSome && decide (entryPoint ≠ 0))
  | .inspect (.terminate tid) => before || (g.threads tid).isSome
  | .inspect (.block tid) => before || (decide (tid ≠ mainThreadId) && (g.threads tid).isSome)
  | .test (.block tid) 0 => before || (g.threads tid).all fun thread => thread.state ≠ .blocked
  | .body [] (.unblock _ _) | .query _ .miss | .query _ (.hit _) => !before
  | .resumed => before
  | _ => true

/-- The call makes a step from the point. -/
def Visit.pass (p : Point) (g : State) (v : Visit) : Visit :=
  { v with met := v.met && p.restoring g v.before }

/-- The calls in progress: that of the thread that runs, and those of the saved environments. -/
structure History where
  /-- The call of the thread that runs. -/
  current : Option Visit
  /-- The call of the thread that has saved its environment there. -/
  saved : ℤ → Option Visit

namespace History

/-- The environment of the thread that runs is saved under the id. -/
def save (g : History) (id : ℤ) : History := { g with saved := update g.saved id g.current }

/-- The processor jumps to the environment. -/
def jump (g : History) (id : ℤ) (env : ℤ → Context) : History :=
  { g with current := if env id = .entry then none else g.saved id }

/-- What a step of the machine changes. -/
def note (a : Act) (s s' : System) (g : History) : History :=
  match a, s.control with
  | .call _, _ | .getQuantums _, _ => { g with current := some { before := s.mask.groupBlocked } }
  | .tick, _ => g
  | .step, .scheduler p m =>
      (g.save s.globals.runningThread).jump s'.globals.runningThread
        (update s.env s.globals.runningThread (.handler p m))
  | .step, .at (.start _) => g.save s.globals.runningThread
  | .step, .at (.jump id) => g.jump id s.env
  | .step, .at p => { g with current := g.current.map (Visit.pass p s.globals) }

end History

/-- The library with ticks between any two statements, and with the history. -/
def watched (maxThreadNum : ℕ) (quantumUsecs : ℤ) : Machine (System × History) Act :=
  (preemptive maxThreadNum quantumUsecs).observe ⟨none, fun _ => none⟩ History.note

section runs

variable {n : ℕ} {q : ℤ}

/-- Without its history, a run with a history is one of the library. -/
theorem preemptive_reachable {p : System × History} (h : (watched n q).Reachable p) :
    (preemptive n q).Reachable p.1 :=
  Machine.reachableBy_of_observe h

/-- Every run of the library has its history. -/
theorem watched_reachable {s : System} (h : (preemptive n q).Reachable s) :
    ∃ g, (watched n q).Reachable (s, g) :=
  Machine.ReachableBy.observe h

end runs

/-! ## The invariant -/

/-- What holds of the call of a thread at the point, with the signals blocked or not. -/
def Point.Visited (blocked : Bool) (v : Option Visit) : Point → Prop
  | .user | .jump _ => True
  | .start _ | .block _ | .query _ .block | .resumed => v = some ⟨blocked, true⟩
  | .inspect _ | .test _ _ | .query _ .find | .query _ .miss | .query _ (.hit _) =>
      blocked = true ∧ ∃ b, v = some ⟨b, true⟩
  | .body _ (.leave _ _) => blocked = true ∧ ∃ b, v = some ⟨b, b⟩
  | .body _ _ => blocked = true ∧ ∃ b, v = some ⟨b, true⟩
  | .query _ (.read _) => blocked = false ∧ ∃ b, v = some ⟨b, !b⟩
  | .ret _ _ => ∃ b met, v = some ⟨b, met⟩ ∧ (blocked = b ↔ met = true)

/-- What holds of the call of a thread with the environment. -/
def Context.Visited (v : Option Visit) : Context → Prop
  | .handler p m => p.Visited m.alrm v
  | .blocking m | .sleeping m => v = some ⟨m.alrm, true⟩
  | .dead | .entry => True

/-- What holds of the call of the thread that runs, or that the handler has interrupted. -/
def Control.Visited (blocked : Bool) (v : Option Visit) : Control → Prop
  | .at p => p.Visited blocked v
  | .scheduler p m => p.Visited m.alrm v

/-- The calls in progress are where the history says they are. -/
structure Watched (p : System × History) : Prop where
  current : p.1.control.Visited p.1.mask.alrm p.2.current
  saved : ∀ id, (p.1.env id).Visited (p.2.saved id)

section steps

variable {g : State} {c : Call} {k : ℕ} {p p' : Point} {v : Option Visit} {b : Bool} {n : ℕ} {q : ℤ}
  {s s' : System} {h : History}

/-- The first checks of a call. -/
theorem check_visited (hcheck : c.check g = .ok p') :
    p'.Visited true (some ⟨b, (Point.inspect c).restoring g b⟩) := by
  rcases c with entryPoint | tid | tid | tid | numQuantums
  · simp only [Call.check] at hcheck
    split at hcheck
    · next htop =>
      cases hcheck
      exact ⟨rfl, b, by simp [Point.restoring, htop]⟩
    · next id htop =>
      split_ifs at hcheck with h0
      · cases hcheck
        exact ⟨rfl, b, by simp [Point.restoring, h0]⟩
      · cases hcheck
        exact ⟨rfl, b, by simp [Point.restoring, htop, h0]⟩
  · simp only [Call.check] at hcheck
    split_ifs at hcheck with hmain hnone
    · cases hcheck
      exact ⟨rfl, b, by simp [Point.restoring, Option.isNone_iff_eq_none.mp hnone]⟩
    · cases hcheck
      exact ⟨rfl, b, by simp_all [Point.restoring, Option.isSome_iff_ne_none]⟩
  · simp only [Call.check] at hcheck
    split_ifs at hcheck with hmain hnone
    · cases hcheck
      exact ⟨rfl, b, by simp [Point.restoring, hmain]⟩
    · cases hcheck
      exact ⟨rfl, b, by simp [Point.restoring, Option.isNone_iff_eq_none.mp hnone]⟩
    · cases hcheck
      exact ⟨rfl, b, by simp_all [Point.restoring, Option.isSome_iff_ne_none]⟩
  · simp only [Call.check] at hcheck
    split_ifs at hcheck
    · cases hcheck
      exact ⟨rfl, b, rfl⟩
    · cases hcheck
      exact ⟨rfl, b, rfl⟩
  · simp only [Call.check] at hcheck
    split_ifs at hcheck
    · cases hcheck
      exact ⟨rfl, b, rfl⟩
    · cases hcheck
      exact ⟨rfl, b, rfl⟩

/-- The first test of `uthread_block`, the one that leads to a `return` without
`unblock_signals`. -/
theorem block_test_visited {tid : ℤ} (hdecide : (Call.block tid).decide 0 g = .ok p') :
    p'.Visited true (some ⟨b, (Point.test (.block tid) 0).restoring g b⟩) := by
  obtain ⟨thread, hthread, hnext⟩ := bind_ok.mp hdecide
  have hth : g.threads tid = some thread := by
    change deref tid g = .ok thread at hthread
    unfold deref at hthread
    split at hthread
    · next heq =>
      cases hthread
      exact heq
    · cases hthread
  by_cases hstate : thread.state = .blocked
  · simp only [Call.branches, List.getElem?_cons_zero, if_pos hstate] at hnext
    cases hnext
    exact ⟨rfl, b, by simp [Point.restoring, hth, hstate]⟩
  · simp only [Call.branches, List.getElem?_cons_zero, if_neg hstate] at hnext
    cases hnext
    exact ⟨rfl, b, by simp [Point.restoring, hth, hstate]⟩

/-- The other tests lead nowhere else than to `unblock_signals` or away from the thread. -/
theorem branch_visited {state : ThreadState} {code : Code} (hne : ∀ tid, c = .block tid → k ≠ 0)
    (hbranch : c.branches[k]? = some (state, code)) :
    (Point.ofCode code).Visited true (some ⟨b, true⟩) := by
  rcases c with entryPoint | tid | tid | tid | numQuantums
  · cases hbranch
  · have hmem := List.mem_of_getElem? hbranch
    simp only [Call.branches, List.mem_cons, List.not_mem_nil, or_false, Prod.mk.injEq] at hmem
    rcases hmem with ⟨-, rfl⟩ | ⟨-, rfl⟩ | ⟨-, rfl⟩ <;> exact ⟨rfl, b, rfl⟩
  · rcases k with _ | k
    · exact absurd rfl (hne tid rfl)
    · have hmem := List.mem_of_getElem? hbranch
      rw [Call.branches, List.getElem?_cons_succ] at hbranch
      have hmem := List.mem_of_getElem? hbranch
      simp only [List.mem_cons, List.not_mem_nil, or_false, Prod.mk.injEq] at hmem
      rcases hmem with ⟨-, rfl⟩ | ⟨-, rfl⟩ <;> exact ⟨rfl, b, rfl⟩
  · have hmem := List.mem_of_getElem? hbranch
    simp only [Call.branches, List.mem_cons, List.not_mem_nil, or_false, Prod.mk.injEq] at hmem
    obtain ⟨-, rfl⟩ := hmem
    exact ⟨rfl, b, rfl⟩
  · cases hbranch

/-- A test of the state of the thread that the call names. -/
theorem decide_visited (hdecide : c.decide k g = .ok p') :
    p'.Visited true (some ⟨b, (Point.test c k).restoring g b⟩) := by
  by_cases hfirst : ∃ tid, c = .block tid ∧ k = 0
  · obtain ⟨tid, rfl, rfl⟩ := hfirst
    exact block_test_visited hdecide
  · have hne : ∀ tid, c = .block tid → k ≠ 0 := fun tid hc hk => hfirst ⟨tid, hc, hk⟩
    have hrestoring : (Point.test c k).restoring g b = true := by
      unfold Point.restoring
      split <;> simp_all
    rw [hrestoring]
    obtain ⟨thread, -, hnext⟩ := bind_ok.mp hdecide
    split at hnext
    · next state code hbranch =>
      cases hnext
      split_ifs
      · exact branch_visited hne hbranch
      · exact ⟨rfl, b, rfl⟩
    · cases hnext
      rcases c with _ | _ | _ | _ | _ <;> exact ⟨rfl, b, rfl⟩

/-- What follows a sequence of statements. -/
theorem follow_visited {tail : Tail} (hfollow : tail.follow g = .ok p')
    (hv : (Point.body [] tail).Visited true v) :
    p'.Visited (!tail.unblocks) (v.map (Visit.pass (.body [] tail) g)) := by
  rcases tail with ⟨val, cerr⟩ | ⟨val, cerr⟩ | _ | _ | next | id | id
  · obtain ⟨-, b, rfl⟩ := hv
    cases hfollow
    refine ⟨b, b, by simp [Visit.pass, Point.restoring], ?_⟩
    rw [eq_comm]
    rfl
  · obtain ⟨-, b, rfl⟩ := hv
    cases hfollow
    refine ⟨b, !b, by simp [Visit.pass, Point.restoring], ?_⟩
    rw [Bool.not_eq_true', eq_comm]
    rfl
  · obtain ⟨-, b, rfl⟩ := hv
    cases hfollow
    exact ⟨rfl, b, rfl⟩
  · obtain ⟨-, b, rfl⟩ := hv
    simp only [Tail.follow] at hfollow
    split at hfollow
    · cases hfollow
    · cases hfollow
      exact ⟨rfl, b, rfl⟩
  · obtain ⟨-, b, rfl⟩ := hv
    obtain ⟨thread, -, hfollow⟩ := bind_ok.mp hfollow
    cases hfollow
    exact ⟨rfl, b, rfl⟩
  · obtain ⟨-, b, rfl⟩ := hv
    cases hfollow
    exact ⟨rfl, b, rfl⟩
  · cases hfollow
    trivial

/-- One statement of `uthread_get_quantums`. -/
theorem query_visited {tid : ℤ} {r : Query} (hstep : r.step tid s = some s')
    (hv : (Point.query tid r).Visited s.mask.alrm v) : s'.env = s.env ∧
      s'.control.Visited s'.mask.alrm (v.map (Visit.pass (.query tid r) s.globals)) := by
  rcases r with _ | _ | _ | _ | _
  · cases hstep
    obtain rfl := hv
    exact ⟨rfl, Bool.or_true _, s.mask.alrm, rfl⟩
  · obtain ⟨hblocked, b, rfl⟩ := hv
    cases hstep
    refine ⟨rfl, ?_⟩
    simp only
    split_ifs
    · exact ⟨hblocked, b, rfl⟩
    · exact ⟨hblocked, b, rfl⟩
  · obtain ⟨-, b, rfl⟩ := hv
    cases hstep
    refine ⟨rfl, b, !b, by simp [Visit.pass, Point.restoring], ?_⟩
    rw [show (unblockSignals s.mask).alrm = false from Bool.and_false _, Bool.not_eq_true', eq_comm]
  · obtain ⟨-, b, rfl⟩ := hv
    cases hstep
    exact ⟨rfl, Bool.and_false _, b, by simp [Visit.pass, Point.restoring]⟩
  · obtain ⟨hblocked, b, rfl⟩ := hv
    obtain ⟨-, hstep⟩ := Option.ite_none_right_eq_some.mp hstep
    obtain ⟨thread, -, hstep⟩ := Option.bind_eq_some_iff.mp hstep
    cases hstep
    refine ⟨rfl, b, !b, by simp [Visit.pass, Point.restoring], ?_⟩
    rw [hblocked, Bool.not_eq_true', eq_comm]

/-! ## The invariant along a run -/

/-- Saving the environment of a thread with its call. -/
theorem saved_save {id : ℤ} {x : Context} {env : ℤ → Context}
    (hsaved : ∀ id, (s.env id).Visited (h.saved id)) (hx : x.Visited h.current)
    (henv : saveEnv n id x s.env = some env) : env = update s.env id x ∧
      ∀ id', (env id').Visited ((h.save id).saved id') := by
  unfold saveEnv at henv
  split_ifs at henv
  cases henv
  refine ⟨rfl, fun id' => ?_⟩
  by_cases hid : id' = id
  · subst hid
    simp only [History.save, update_self]
    exact hx
  · simp only [History.save, update_of_ne hid]
    exact hsaved id'

/-- Forgetting an environment. -/
theorem saved_dead {id : ℤ} (hsaved : ∀ id, (s.env id).Visited (h.saved id)) {x : Context}
    (hx : x = .dead ∨ x = .entry) (id' : ℤ) : (update s.env id x id').Visited (h.saved id') := by
  by_cases hid : id' = id
  · subst hid
    rw [update_self]
    rcases hx with rfl | rfl <;> trivial
  · rw [update_of_ne hid]
    exact hsaved id'

/-- A thread comes back with its call. -/
theorem jump_watched {id : ℤ} (hsaved : ∀ id, (s.env id).Visited (h.saved id))
    (hjump : jumpTo id s = some s') : Watched (s', h.jump id s.env) := by
  have hid := hsaved id
  have hcurrent : s.env id ≠ .entry → (h.jump id s.env).current = h.saved id := fun hne =>
    if_neg hne
  unfold jumpTo at hjump
  split at hjump
  · cases hjump
  · cases hjump
    exact ⟨trivial, hsaved⟩
  · next p m heq =>
    cases hjump
    rw [heq] at hid
    refine ⟨?_, saved_dead hsaved (.inl rfl)⟩
    show p.Visited m.alrm (h.jump id s.env).current
    rw [hcurrent (by rw [heq]; nofun)]
    exact hid
  · next m heq =>
    cases hjump
    rw [heq] at hid
    exact ⟨⟨m.alrm, true, (hcurrent (by rw [heq]; nofun)).trans hid, by simp⟩,
      saved_dead hsaved (.inl rfl)⟩
  · next m heq =>
    cases hjump
    rw [heq] at hid
    exact ⟨(hcurrent (by rw [heq]; nofun)).trans hid, saved_dead hsaved (.inl rfl)⟩

/-- A statement. -/
theorem effect_visited {st : Statement} {id : ℤ} (hsaved : ∀ id, (s.env id).Visited (h.saved id)) :
    ((st.effect s).env id).Visited (h.saved id) := by
  cases st with
  | construct id' => exact saved_dead hsaved (.inr rfl) id
  | _ => exact hsaved id

/-- Between `block_signals` and `unblock_signals` the signals are blocked. -/
theorem body_visited {blocked : Bool} {code : List Statement} {tail : Tail}
    (hv : (Point.body code tail).Visited blocked v) : blocked = true := by
  rcases tail with _ | _ | _ | _ | _ | _ | _ <;> exact hv.1

/-- A statement keeps no promise and breaks none. -/
theorem pass_statement {st : Statement} {code : List Statement} {tail : Tail} :
    v.map (Visit.pass (.body (st :: code) tail) g) = v := by
  rcases v with _ | v
  · rfl
  · simp [Visit.pass, Point.restoring]

/-- **One statement.** -/
theorem Watched.point_step (hw : Watched (s, h)) (hs : s.control = .at p)
    (hstep : p.step n s = some s') : Watched (s', h.note .step s s') := by
  obtain ⟨hv, hsaved⟩ := hw
  change s.control.Visited s.mask.alrm h.current at hv
  rw [hs] at hv
  change ∀ id, (s.env id).Visited (h.saved id) at hsaved
  unfold History.note
  rw [hs]
  rcases p with _ | ⟨tid, r⟩ | c | c | c | ⟨c, k⟩ | ⟨_ | ⟨st, code⟩, tail⟩ | _ | id | ⟨val, cerr⟩
  · cases hstep
  · obtain ⟨henv, hvisited⟩ := query_visited hstep hv
    exact ⟨hvisited, fun id => by rw [henv]; exact hsaved id⟩
  · obtain ⟨env, henv, hstep⟩ := Option.bind_eq_some_iff.mp hstep
    cases hstep
    obtain ⟨-, hsaved'⟩ := saved_save hsaved (by split <;> exact hv) henv
    exact ⟨hv, hsaved'⟩
  · cases hstep
    have hv : h.current = some ⟨s.mask.alrm, true⟩ := hv
    refine ⟨⟨Bool.or_true _, s.mask.alrm, ?_⟩, hsaved⟩
    show h.current.map _ = _
    rw [hv]
    rfl
  · obtain ⟨hblocked, b, hcurrent⟩ := hv
    obtain ⟨p', hcheck, hstep⟩ := Option.bind_eq_some_iff.mp hstep
    cases hstep
    refine ⟨?_, hsaved⟩
    show p'.Visited s.mask.alrm (h.current.map _)
    rw [hblocked, hcurrent]
    exact check_visited (toOption_eq_some.mp hcheck)
  · obtain ⟨hblocked, b, hcurrent⟩ := hv
    obtain ⟨p', hdecide, hstep⟩ := Option.bind_eq_some_iff.mp hstep
    cases hstep
    refine ⟨?_, hsaved⟩
    show p'.Visited s.mask.alrm (h.current.map _)
    rw [hblocked, hcurrent]
    exact decide_visited (toOption_eq_some.mp hdecide)
  · obtain ⟨p', hfollow, hstep⟩ := Option.bind_eq_some_iff.mp hstep
    cases hstep
    have hblocked := body_visited hv
    rw [hblocked] at hv
    refine ⟨?_, hsaved⟩
    show p'.Visited (if tail.unblocks then unblockSignals s.mask else s.mask).alrm (h.current.map _)
    have hmask : (if tail.unblocks then unblockSignals s.mask else s.mask).alrm =
        !tail.unblocks := by
      split_ifs with hunblocks
      · rw [hunblocks]
        exact Bool.and_false _
      · rw [Bool.not_eq_true] at hunblocks
        rw [hunblocks, hblocked]
        rfl
    rw [hmask]
    exact follow_visited (toOption_eq_some.mp hfollow) hv
  · obtain ⟨g, -, hstep⟩ := Option.bind_eq_some_iff.mp hstep
    cases hstep
    have hblocked := body_visited hv
    have hcontrol := effect_control st { s with globals := g, control := .at (.body code tail) }
    have hmask := effect_mask st (s := { s with globals := g, control := .at (.body code tail) })
      hblocked
    refine ⟨?_, fun id => effect_visited hsaved⟩
    show Control.Visited (System.mask _).alrm (h.current.map _) (System.control _)
    rw [hcontrol, hmask, pass_statement]
    rw [hblocked] at hv
    show (Point.body code tail).Visited true h.current
    rcases tail with _ | _ | _ | _ | _ | _ | _ <;> exact hv
  · cases hstep
    have hv : h.current = some ⟨s.mask.alrm, true⟩ := hv
    refine ⟨⟨s.mask.alrm, s.mask.alrm, ?_, ?_⟩, hsaved⟩
    · show h.current.map _ = _
      rw [hv]
      rfl
    · rw [show (blockSignals s.mask).alrm = true from Bool.or_true _, eq_comm]
  · exact jump_watched hsaved hstep
  · cases hstep
    refine ⟨trivial, fun id => ?_⟩
    dsimp only
    rcases s.env s.globals.runningThread with _ | _ | ⟨p, m⟩ | m | m
    · exact hsaved id
    · exact hsaved id
    · exact hsaved id
    · exact saved_dead hsaved (.inl rfl) id
    · exact saved_dead hsaved (.inl rfl) id

/-- The handler. -/
theorem Watched.handle {m : SignalSet} (hw : Watched (s, h)) (hs : s.control = .scheduler p m)
    (hstep : handle n p m s = some s') : Watched (s', h.note .step s s') := by
  obtain ⟨hv, hsaved⟩ := hw
  change s.control.Visited s.mask.alrm h.current at hv
  rw [hs] at hv
  change ∀ id, (s.env id).Visited (h.saved id) at hsaved
  unfold History.note
  rw [hs]
  obtain ⟨env, henv, hstep⟩ := Option.bind_eq_some_iff.mp hstep
  obtain ⟨⟨r, g⟩, -, hstep⟩ := Option.bind_eq_some_iff.mp hstep
  obtain ⟨rfl, hsaved'⟩ := saved_save hsaved (x := .handler p m) hv henv
  have hglobals : s'.globals = g := jumpTo_globals hstep
  have hjump := jump_watched (h := h.save s.globals.runningThread) hsaved' hstep
  rw [← hglobals] at hjump
  exact hjump

/-- **Step rule.** -/
theorem Watched.act {a : Act} (hw : Watched (s, h)) (hstep : s.act n a = some s') :
    Watched (s', h.note a s s') := by
  have hact := hstep
  unfold System.act at hstep
  split at hstep
  · next c hs =>
    cases hstep
    refine ⟨?_, hw.saved⟩
    show c.entry.Visited s.mask.alrm (some ⟨s.mask.groupBlocked, true⟩)
    rw [groupBlocked_eq]
    rcases c with _ | _ | _ | _ | _ <;> exact rfl
  · next tid hs =>
    cases hstep
    refine ⟨?_, hw.saved⟩
    show some (⟨s.mask.groupBlocked, true⟩ : Visit) = some ⟨s.mask.alrm, true⟩
    rw [groupBlocked_eq]
  · next p hs => exact hw.point_step hs hstep
  · next p m hs => exact hw.handle hs hstep
  · obtain ⟨p, hs, -, rfl⟩ := tick_cases hact
    refine ⟨?_, hw.saved⟩
    have hv := hw.current
    change s.control.Visited s.mask.alrm h.current at hv
    rw [hs] at hv
    exact hv
  · cases hstep

/-- **Run rule.** -/
theorem watched_of_reachable {t : System × History} (ht : (watched n q).Reachable t) :
    Watched t := by
  refine ht.invariant (P := Watched) ?_ ?_
  · rintro ⟨s, h⟩ ⟨⟨g, m, -, hs⟩, hh⟩
    change s = launched g m at hs
    change h = ⟨none, fun _ => none⟩ at hh
    subst hs hh
    exact ⟨trivial, fun _ => trivial⟩
  · rintro a ⟨s, h⟩ ⟨s', h'⟩ hw hstep
    obtain ⟨hstep, hnote⟩ := Machine.observe_step.mp hstep
    obtain rfl : h' = h.note a s s' := hnote
    exact hw.act hstep

end steps

/-! ## Returning -/

/-- **A call restores the mask if and only if all its steps do their part.** Whatever has happened
since, a thread that is about to return from a call has the signals of `group_of_signals` blocked
exactly if it had them blocked when it made the call, if and only if every step of the call was a
restoring one. -/
theorem mask_restored_iff {n : ℕ} {q : ℤ} {p : System × History} {val : ℤ} {cerr : String}
    (h : (watched n q).Reachable p) (hreturn : p.1.control = .at (.ret val cerr)) :
    ∃ visit, p.2.current = some visit ∧
      (p.1.mask.groupBlocked = visit.before ↔ visit.met = true) := by
  have hv := (watched_of_reachable h).current
  rw [hreturn] at hv
  obtain ⟨b, met, hcurrent, hiff⟩ := hv
  exact ⟨_, hcurrent, by rw [groupBlocked_eq]; exact hiff⟩

/-- Thread 1, which was interrupted before its `block_signals`, is about to return from
`uthread_resume` with the signals unblocked, as they were. -/
def tickInResume : List Act :=
  .call (.spawn 1) :: steps 8 ++ [.tick, .step, .call (.resume 0), .tick, .step, .tick] ++ steps 6

theorem mask_restored_iff_run : ∃ p, (watched 4 100).run tickInResume
    (smallProcess, ⟨none, fun _ => none⟩) = some p ∧ p.1.globals.runningThread = 1 ∧
      p.1.control = .at (.ret 0 "") ∧ p.1.mask.groupBlocked = false := by
  obtain ⟨p, hp⟩ : ∃ p, (watched 4 100).run tickInResume
      (smallProcess, ⟨none, fun _ => none⟩) = some p := ⟨_, rfl⟩
  have hreach : (watched 4 100).Reachable p := .run (.init ⟨smallProcess_init, rfl⟩) hp
  have hreturn : p.1.control = .at (.ret 0 "") := by
    cases hp
    rfl
  have hcurrent : p.2.current = some ⟨false, true⟩ := by
    cases hp
    rfl
  obtain ⟨visit, hvisit, hiff⟩ := mask_restored_iff hreach hreturn
  rw [hcurrent] at hvisit
  cases hvisit
  refine ⟨p, hp, ?_, hreturn, hiff.mpr rfl⟩
  cases hp
  rfl

/-- The main thread tries to block itself: the call returns with the signals blocked, which they
were not before. -/
theorem mask_not_restored : ¬ ∀ (n : ℕ) (q : ℤ) (p : System × History) (val : ℤ) (cerr : String),
    (watched n q).Reachable p → p.1.control = .at (.ret val cerr) →
      ∃ visit, p.2.current = some visit ∧ p.1.mask.groupBlocked = visit.before := by
  intro hall
  obtain ⟨p, hp⟩ : ∃ p, (watched 4 100).run (.call (.block 0) :: steps 4)
      (smallProcess, ⟨none, fun _ => none⟩) = some p := ⟨_, rfl⟩
  have hreach : (watched 4 100).Reachable p := .run (.init ⟨smallProcess_init, rfl⟩) hp
  cases hp
  obtain ⟨visit, hvisit, hrestored⟩ := hall 4 100 _ _ _ hreach rfl
  cases hvisit
  revert hrestored
  decide

end CoreOS.Uthreads
