import CoreOS.Uthreads.Step

/-!
# Round-robin order

Between the moment a thread is queued and the moment it is dispatched nobody overtakes it.

* `dispatches n q ops s`: the threads that the scheduling decisions of a run dispatch, in order. A
  step makes a decision exactly when it raises `count_total_quantums`, which
  `make_scheduling_decision` alone does.
* `Untouched a ops`: no operation of the run blocks or terminates `a`.
* `ahead_run`: along such a run `a` is dispatched, or those in front of it become fewer with every
  decision.
* `round_robin`: order and waiting time, at any decision of any run.
-/

namespace CoreOS.Uthreads

open CoreOS.Lib

variable {n : ℕ} {q : ℤ} {s s' s₁ s₂ : State} {op : Op} {ops : List Op} {a b : ℤ} {pre : List ℤ}

/-! ## Dispatches -/

/-- The threads dispatched by the scheduling decisions of a run, in order. -/
def dispatches (n : ℕ) (q : ℤ) : List Op → State → List ℤ
  | [], _ => []
  | op :: ops, s =>
      match (library n q).step op s with
      | none => []
      | some s' =>
          if s'.countTotalQuantums = s.countTotalQuantums then dispatches n q ops s'
          else s'.runningThread :: dispatches n q ops s'

/-- Without a decision, a step adds nothing to the trace. -/
theorem dispatches_stay (hstep : (library n q).step op s = some s')
    (hcount : s'.countTotalQuantums = s.countTotalQuantums) :
    dispatches n q (op :: ops) s = dispatches n q ops s' := by
  simp only [dispatches, hstep, if_pos hcount]

/-- With a decision, a step adds the thread it dispatched. -/
theorem dispatches_yield (hstep : (library n q).step op s = some s')
    (hcount : s'.countTotalQuantums ≠ s.countTotalQuantums) :
    dispatches n q (op :: ops) s = s'.runningThread :: dispatches n q ops s' := by
  simp only [dispatches, hstep, if_neg hcount]

/-- No operation of the run blocks or terminates `a`. -/
def Untouched (a : ℤ) (ops : List Op) : Prop := ∀ op ∈ ops, op ≠ .block a ∧ op ≠ .terminate a

/-! ## Nobody overtakes -/

/-- A decision dispatches `a`, or the first of those in front of it. -/
theorem ahead_decision (h : Consistent n q s) (hstep : (library n q).step op s = some s')
    (hcount : s'.countTotalQuantums ≠ s.countTotalQuantums) (ha : Ahead pre a s.readyQueue) :
    (pre = [] ∧ s'.runningThread = a) ∨
      ∃ pre', pre = s'.runningThread :: pre' ∧ Ahead pre' a s'.readyQueue := by
  rcases (h.effect hstep).yields_or_stays h with ⟨p, hy, hd⟩ | hst
  · obtain ⟨back, hback⟩ := hy.queue_decision hd
    exact (ha.append back).front hback
  · exact absurd hst.count hcount

/-- Without a decision nobody gets in front of `a`. -/
theorem ahead_stay (h : Consistent n q s) (hstep : (library n q).step op s = some s')
    (hcount : s'.countTotalQuantums = s.countTotalQuantums)
    (hop : op ≠ .block a ∧ op ≠ .terminate a) (ha : Ahead pre a s.readyQueue) :
    ∃ pre', pre'.Sublist pre ∧ Ahead pre' a s'.readyQueue := by
  rcases (h.effect hstep).yields_or_stays h with ⟨p, hy, hd⟩ | hst
  · have := hy.count_decision hd
    omega
  · rcases hst.queue with ⟨back, hback⟩ | ⟨t, hop', herase⟩
    · exact ⟨pre, List.Sublist.refl _, hback ▸ ha.append back⟩
    · rw [herase]
      apply ha.erase
      intro e
      subst e
      rcases hop' with e | e
      · exact hop.1 e
      · exact hop.2 e

/-- **Run rule.** Along a run that leaves `a` alone, `a` is dispatched, or every decision has
dispatched one of those in front of it. -/
theorem ahead_run : ∀ (ops : List Op) (pre : List ℤ) {s : State}, Consistent n q s →
    Untouched a ops → Ahead pre a s.readyQueue → (library n q).run ops s = some s₁ →
    a ∈ dispatches n q ops s ∨ ∃ pre', pre'.Sublist pre ∧
      pre'.length + (dispatches n q ops s).length ≤ pre.length ∧ Ahead pre' a s₁.readyQueue
  | [], pre, s, _, _, ha, hrun => by
      cases hrun
      exact .inr ⟨pre, List.Sublist.refl _, le_rfl, ha⟩
  | op :: ops, pre, s, h, hun, ha, hrun => by
      obtain ⟨t, hstep, hrun⟩ := (Machine.run_cons _).mp hrun
      have hun' : Untouched a ops := fun o ho => hun o (List.mem_cons_of_mem _ ho)
      by_cases hcount : t.countTotalQuantums = s.countTotalQuantums
      · rw [dispatches_stay hstep hcount]
        obtain ⟨pre₁, hsub, ha₁⟩ := ahead_stay h hstep hcount (hun op List.mem_cons_self) ha
        refine (ahead_run ops pre₁ (h.step hstep) hun' ha₁ hrun).imp_right ?_
        rintro ⟨pre', hsub', hlen, ha'⟩
        exact ⟨pre', hsub'.trans hsub, hlen.trans hsub.length_le, ha'⟩
      · rw [dispatches_yield hstep hcount]
        rcases ahead_decision h hstep hcount ha with ⟨-, hrunning⟩ | ⟨pre₁, rfl, ha₁⟩
        · exact .inl (hrunning ▸ List.mem_cons_self)
        · refine (ahead_run ops pre₁ (h.step hstep) hun' ha₁ hrun).imp
            (List.mem_cons_of_mem _) ?_
          rintro ⟨pre', hsub', hlen, ha'⟩
          refine ⟨pre', hsub'.cons _, ?_, ha'⟩
          simp only [List.length_cons]
          omega

/-! ## The order -/

/-- A queued thread that precedes another is ahead of it by a list that lacks the other. -/
theorem ahead_of_precedes {l : List ℤ} (hnd : l.Nodup) (h : [a, b].Sublist l) :
    ∃ pre, Ahead pre a l ∧ b ∉ pre ∧ b ≠ a := by
  obtain ⟨pre, post, rfl, ha, hb⟩ := List.cons_sublist_iff.mp h
  have hb := List.singleton_sublist.mp hb
  obtain ⟨pre₁, pre₂, rfl⟩ := List.append_of_mem ha
  have hdisj := List.nodup_append.mp hnd
  refine ⟨pre₁, ⟨pre₂ ++ post, by simp⟩, ?_, ?_⟩
  · intro hpre
    exact hdisj.2.2 b (List.mem_append_left _ hpre) b hb rfl
  · intro e
    exact hdisj.2.2 a ha b hb e.symm

/-- **Round-robin order.** At any decision of any run that has left the queued thread `a` alone:
a thread that was queued behind `a` is not the one dispatched unless `a` has been; and if `p`
threads were in front of `a` and this is decision `p + 1`, then `a` has been dispatched or is
now. -/
theorem round_robin (h : (library n q).Reachable s) (hrun : (library n q).run ops s = some s₁)
    (hun : Untouched a ops) (hstep : (library n q).step op s₁ = some s₂)
    (hdec : s₂.countTotalQuantums ≠ s₁.countTotalQuantums) :
    (∀ b, [a, b].Sublist s.readyQueue → s₂.runningThread = b → a ∈ dispatches n q ops s) ∧
    (∀ p, s.readyQueue[p]? = some a → (dispatches n q ops s).length = p →
      a ∈ dispatches n q ops s ∨ s₂.runningThread = a) := by
  have hc := reachable_consistent h
  have hc₁ := reachable_consistent (h.run hrun)
  constructor
  · intro b hab hb
    obtain ⟨pre, ha, hpre, hne⟩ := ahead_of_precedes hc.readyNodup hab
    rcases ahead_run ops pre hc hun ha hrun with hmem | ⟨pre', hsub, -, ha'⟩
    · exact hmem
    · rcases ahead_decision hc₁ hstep hdec ha' with ⟨-, hrunning⟩ | ⟨_, rfl, -⟩
      · exact absurd (hb.symm.trans hrunning) hne
      · exact absurd (hb ▸ hsub.subset List.mem_cons_self) hpre
  · intro p hp hlen
    obtain ⟨hlt, hget⟩ := List.getElem?_eq_some_iff.mp hp
    have ha : Ahead (s.readyQueue.take p) a s.readyQueue :=
      ⟨s.readyQueue.drop (p + 1), by rw [← hget, List.getElem_cons_drop, List.take_append_drop]⟩
    rcases ahead_run ops _ hc hun ha hrun with hmem | ⟨pre', -, hle, ha'⟩
    · exact .inl hmem
    · rcases ahead_decision hc₁ hstep hdec ha' with ⟨-, hrunning⟩ | ⟨pre₁, rfl, -⟩
      · exact .inr hrunning
      · rw [List.length_take, List.length_cons] at hle
        omega

/-- Threads 1 and 2 queue up; the second decision dispatches 2, after 1. -/
theorem round_robin_run : ∃ s s₁ s₂,
    (library 4 100).run [.spawn 1, .spawn 1] (afterInit 4 100) = some s ∧
    (library 4 100).run [.tick] s = some s₁ ∧ (library 4 100).step (.sleep 3) s₁ = some s₂ ∧
    s₂.runningThread = 2 ∧ 1 ∈ dispatches 4 100 [.tick] s := by
  obtain ⟨s, s₁, s₂, hs, hs₁, hs₂⟩ : ∃ s s₁ s₂,
      (library 4 100).run [.spawn 1, .spawn 1] (afterInit 4 100) = some s ∧
      (library 4 100).run [.tick] s = some s₁ ∧ (library 4 100).step (.sleep 3) s₁ = some s₂ :=
    ⟨_, _, _, rfl, rfl, rfl⟩
  have hr := reachable_afterInit (by decide) (by decide) (by decide) hs
  have hun : Untouched 1 [.tick] := by simp [Untouched]
  have hfacts : [1, 2].Sublist s.readyQueue ∧ s₂.runningThread = 2 ∧
      s₂.countTotalQuantums ≠ s₁.countTotalQuantums := by
    cases hs
    cases hs₁
    cases hs₂
    decide
  exact ⟨s, s₁, s₂, hs, hs₁, hs₂, hfacts.2.1,
    (round_robin hr hs₁ hun hs₂ hfacts.2.2).1 2 hfacts.1 hfacts.2.1⟩

end CoreOS.Uthreads
