import CoreOS.VirtualMemory.Table

/-!
# The search for a free frame

What `find_free_frame` does, for every tree.

* `Covers a b C`: `b` is the larger of `a` and the successors of the members of `C`.
* `Vacant`: an empty table that may be taken, so neither the root nor the table the caller works on.
* `Outcome`: either the memory is as it was, no table that was searched is vacant and the maximum
  covers the frames that were searched, or a vacant table was unlinked and nothing else changed.
* `findFreeFrame_outcome`, `findFreeFrame_root`: the search ends in an outcome.
-/

namespace CoreOS.VirtualMemory

open CoreOS.Lib

/-! ## Running maxima -/

/-- `b` is the larger of `a` and of the successors of the members of `C`. -/
def Covers (a b : ℕ) (C : ℕ → Prop) : Prop :=
  a ≤ b ∧ (∀ g, C g → g + 1 ≤ b) ∧ (b = a ∨ ∃ g, C g ∧ b = g + 1)

/-- Nothing is covered at the start. -/
theorem Covers.refl (a : ℕ) {C : ℕ → Prop} (hC : ∀ g, ¬ C g) : Covers a a C :=
  ⟨le_rfl, fun g hg => absurd hg (hC g), Or.inl rfl⟩

/-- Two maxima one after the other. -/
theorem Covers.trans {a b c : ℕ} {C D E : ℕ → Prop} (h₁ : Covers a b C) (h₂ : Covers b c D)
    (hE : ∀ g, E g ↔ C g ∨ D g) : Covers a c E := by
  obtain ⟨hab, hC, hb⟩ := h₁
  obtain ⟨hbc, hD, hc⟩ := h₂
  refine ⟨hab.trans hbc, ?_, ?_⟩
  · intro g hg
    rcases (hE g).mp hg with hg | hg
    · exact (hC g hg).trans hbc
    · exact hD g hg
  · rcases hc with rfl | ⟨g, hg, rfl⟩
    · rcases hb with rfl | ⟨g, hg, rfl⟩
      · exact Or.inl rfl
      · exact Or.inr ⟨g, (hE g).mpr (Or.inl hg), rfl⟩
    · exact Or.inr ⟨g, (hE g).mpr (Or.inr hg), rfl⟩

/-- `MAX_FRAME` covers one more frame. -/
theorem covers_maxFrame (a f : ℕ) : Covers a (maxFrame a f) (· = f) := by
  unfold maxFrame
  refine ⟨by split_ifs <;> omega, ?_, ?_⟩
  · rintro g rfl
    split_ifs <;> omega
  · split_ifs
    · exact Or.inr ⟨f, rfl, rfl⟩
    · exact Or.inl rfl

section Search

variable {cfg : Config} (pm : PhysicalMemory cfg)

/-! ## Outcomes -/

/-- The frame `f` is an empty frame that may be taken while the caller works on `w`. -/
def Vacant (w : ℕ) (m : pm.Memory) (f : ℕ) : Prop :=
  f ≠ 0 ∧ checkFrameEmpty pm f m = true ∧ f ≠ w

/-- A vacant table was unlinked, and nothing else changed. -/
def Found (w : ℕ) (m : pm.Memory) (s : FreeSearch pm) : Prop :=
  ∃ q p i, q.length + 1 < cfg.tablesDepth ∧ follow (child pm m) 0 q = some p ∧
    child pm m p i = some s.finishedEmpty ∧ Vacant pm w m s.finishedEmpty ∧
    s.memory = pm.pmWrite m (p * cfg.pageSize + i) 0

/-- Nothing was found among the tables `T`, and the maximum covers the frames `C`. -/
structure Unfound (w : ℕ) (m : pm.Memory) (a : ℕ) (C T : ℕ → Prop) (s : FreeSearch pm) :
    Prop where
  /-- The memory is as it was. -/
  memory : s.memory = m
  /-- No table was unlinked. -/
  finished : s.finishedEmpty = 0
  /-- The maximum. -/
  covers : Covers a s.maxFrameIndex C
  /-- No table that was searched is vacant. -/
  occupied : ∀ g, T g → ¬ Vacant pm w m g

/-- What a search that starts with the maximum `a` on the memory `m` ends in. -/
def Outcome (w : ℕ) (m : pm.Memory) (a : ℕ) (C T : ℕ → Prop) (s : FreeSearch pm) : Prop :=
  Unfound pm w m a C T s ∨ Found pm w m s

/-- The frames at most `levels` levels below `f`. -/
def Below (m : pm.Memory) (levels f g : ℕ) : Prop :=
  ∃ t, t.length ≤ levels ∧ follow (child pm m) f t = some g

/-- The tables less than `levels` levels below `f`. -/
def TableBelow (m : pm.Memory) (levels f g : ℕ) : Prop :=
  ∃ t, t.length < levels ∧ follow (child pm m) f t = some g

/-- `f` is the frame at the end of the route `rt`, with `row` of `parent` referring to it. -/
def Linked (m : pm.Memory) (rt : List ℕ) (f parent row : ℕ) : Prop :=
  follow (child pm m) 0 rt = some f ∧
    (f ≠ 0 → ∃ q, rt = q ++ [row] ∧ follow (child pm m) 0 q = some parent ∧
      child pm m parent row = some f)

variable {pm} {m : pm.Memory} {w f : ℕ}

/-- The frames below `f` are `f` and those below its children. -/
theorem below_succ {levels g : ℕ} :
    Below pm m (levels + 1) f g ↔
      g = f ∨ ∃ i c, child pm m f i = some c ∧ Below pm m levels c g := by
  constructor
  · rintro ⟨t, ht, hg⟩
    rcases t with _ | ⟨i, t⟩
    · exact Or.inl (Option.some.inj hg).symm
    · obtain ⟨c, hc, hg⟩ := follow_cons.mp hg
      exact Or.inr ⟨i, c, hc, t, Nat.le_of_succ_le_succ ht, hg⟩
  · rintro (rfl | ⟨i, c, hc, t, ht, hg⟩)
    · exact ⟨[], Nat.zero_le _, rfl⟩
    · exact ⟨i :: t, Nat.succ_le_succ ht, follow_cons.mpr ⟨c, hc, hg⟩⟩

/-- The tables below `f` are `f` and those below its children. -/
theorem tableBelow_succ {levels g : ℕ} :
    TableBelow pm m (levels + 1) f g ↔
      g = f ∨ ∃ i c, child pm m f i = some c ∧ TableBelow pm m levels c g := by
  constructor
  · rintro ⟨t, ht, hg⟩
    rcases t with _ | ⟨i, t⟩
    · exact Or.inl (Option.some.inj hg).symm
    · obtain ⟨c, hc, hg⟩ := follow_cons.mp hg
      exact Or.inr ⟨i, c, hc, t, Nat.lt_of_succ_lt_succ ht, hg⟩
  · rintro (rfl | ⟨i, c, hc, t, ht, hg⟩)
    · exact ⟨[], Nat.succ_pos _, rfl⟩
    · exact ⟨i :: t, Nat.succ_lt_succ ht, follow_cons.mpr ⟨c, hc, hg⟩⟩

/-! ## One row -/

/-- The frames searched in the first `n` rows of `f`. -/
def BelowRows (pm : PhysicalMemory cfg) (m : pm.Memory) (levels f n g : ℕ) : Prop :=
  (0 < n ∧ g = f) ∨ ∃ i < n, ∃ c, child pm m f i = some c ∧ Below pm m levels c g

/-- The tables searched in the first `n` rows of `f`. -/
def TableBelowRows (pm : PhysicalMemory cfg) (m : pm.Memory) (levels f n g : ℕ) : Prop :=
  ∃ i < n, ∃ c, child pm m f i = some c ∧ TableBelow pm m levels c g

/-- One more row adds the frames below the frame that it refers to, and `f` itself. -/
theorem belowRows_succ {levels n g : ℕ} :
    BelowRows pm m levels f (n + 1) g ↔
      (BelowRows pm m levels f n g ∨ ∃ c, child pm m f n = some c ∧ Below pm m levels c g) ∨
        g = f := by
  unfold BelowRows
  constructor
  · rintro (⟨-, rfl⟩ | ⟨i, hi, c, hc, hg⟩)
    · exact Or.inr rfl
    · rcases Nat.lt_succ_iff_lt_or_eq.mp hi with hi | rfl
      · exact Or.inl (Or.inl (Or.inr ⟨i, hi, c, hc, hg⟩))
      · exact Or.inl (Or.inr ⟨c, hc, hg⟩)
  · rintro (((⟨-, rfl⟩ | ⟨i, hi, c, hc, hg⟩) | ⟨c, hc, hg⟩) | rfl)
    · exact Or.inl ⟨Nat.succ_pos n, rfl⟩
    · exact Or.inr ⟨i, by omega, c, hc, hg⟩
    · exact Or.inr ⟨n, by omega, c, hc, hg⟩
    · exact Or.inl ⟨Nat.succ_pos n, rfl⟩

/-- One more row adds the tables below the frame that it refers to. -/
theorem tableBelowRows_succ {levels n g : ℕ} :
    TableBelowRows pm m levels f (n + 1) g ↔
      TableBelowRows pm m levels f n g ∨
        ∃ c, child pm m f n = some c ∧ TableBelow pm m levels c g := by
  unfold TableBelowRows
  constructor
  · rintro ⟨i, hi, c, hc, hg⟩
    rcases Nat.lt_succ_iff_lt_or_eq.mp hi with hi | rfl
    · exact Or.inl ⟨i, hi, c, hc, hg⟩
    · exact Or.inr ⟨c, hc, hg⟩
  · rintro (⟨i, hi, c, hc, hg⟩ | ⟨c, hc, hg⟩)
    · exact ⟨i, by omega, c, hc, hg⟩
    · exact ⟨n, by omega, c, hc, hg⟩

/-- The body of the loop of `find_free_frame`. -/
def searchRow (pm : PhysicalMemory cfg) (w levels f : ℕ) (s : FreeSearch pm) (i : ℕ) :
    FreeSearch pm :=
  let thisFrameIndex := pm.pmRead s.memory (f * cfg.pageSize + i)
  let s :=
    if thisFrameIndex ≠ 0 then findFreeFrame pm w levels thisFrameIndex.toIndex f i s else s
  { s with maxFrameIndex := maxFrame s.maxFrameIndex f }

/-- `find_free_frame` above the last level, by the body of its loop. -/
theorem findFreeFrame_succ (levels f parent row : ℕ) (s : FreeSearch pm) :
    findFreeFrame pm w (levels + 1) f parent row s =
      let s := (List.range (cfg.children f)).foldl (searchRow pm w levels f) s
      if f ≠ 0 ∧ checkFrameEmpty pm f s.memory ∧ f ≠ w ∧ s.finishedEmpty = 0 then
        { s with
          memory := pm.pmWrite s.memory (parent * cfg.pageSize + row) 0
          finishedEmpty := f }
      else s := rfl

/-! ## Outcomes one after the other -/

/-- A found table is not the root. -/
theorem Found.ne_zero {s : FreeSearch pm} (h : Found pm w m s) : s.finishedEmpty ≠ 0 := by
  obtain ⟨q, p, i, -, -, -, hvacant, -⟩ := h
  exact hvacant.1

/-- What was found does not depend on the maximum. -/
theorem Found.congr {s s' : FreeSearch pm} (h : Found pm w m s)
    (hs : s'.finishedEmpty = s.finishedEmpty ∧ s'.memory = s.memory) : Found pm w m s' := by
  obtain ⟨q, p, i, hlen, hq, hp, hvacant, hmem⟩ := h
  obtain ⟨hfin, hmem'⟩ := hs
  exact ⟨q, p, i, hlen, hq, by rw [hfin]; exact hp, by rw [hfin]; exact hvacant,
    by rw [hmem', hmem]⟩

/-- Two searches one after the other that find nothing. -/
theorem Unfound.trans {a : ℕ} {C D E T U V : ℕ → Prop} {s s' : FreeSearch pm}
    (h₁ : Unfound pm w m a C T s) (h₂ : Unfound pm w m s.maxFrameIndex D U s')
    (hE : ∀ g, E g ↔ C g ∨ D g) (hV : ∀ g, V g → T g ∨ U g) : Unfound pm w m a E V s' where
  memory := h₂.memory
  finished := h₂.finished
  covers := h₁.covers.trans h₂.covers hE
  occupied g hg := (hV g hg).elim (h₁.occupied g) (h₂.occupied g)

/-- `MAX_FRAME` after a search that finds nothing. -/
theorem Unfound.maxFrame {a : ℕ} {C E T : ℕ → Prop} {s : FreeSearch pm}
    (h : Unfound pm w m a C T s) (hE : ∀ g, E g ↔ C g ∨ g = f) :
    Unfound pm w m a E T { s with maxFrameIndex := maxFrame s.maxFrameIndex f } where
  memory := h.memory
  finished := h.finished
  covers := h.covers.trans (covers_maxFrame _ f) hE
  occupied := h.occupied

/-! ## The search -/

/-- Once a table has been unlinked the search changes nothing but its maximum. -/
theorem findFreeFrame_finished (levels : ℕ) : ∀ (f parent row : ℕ) (s : FreeSearch pm),
    s.finishedEmpty ≠ 0 →
      (findFreeFrame pm w levels f parent row s).finishedEmpty = s.finishedEmpty ∧
      (findFreeFrame pm w levels f parent row s).memory = s.memory := by
  induction levels with
  | zero => exact fun _ _ _ _ _ => ⟨rfl, rfl⟩
  | succ levels ih =>
      intro f parent row s hs
      have hloop : ∀ n, ((List.range n).foldl (searchRow pm w levels f) s).finishedEmpty =
          s.finishedEmpty ∧ ((List.range n).foldl (searchRow pm w levels f) s).memory =
            s.memory := by
        intro n
        induction n with
        | zero => exact ⟨rfl, rfl⟩
        | succ n ihn =>
            rw [List.range_succ, List.foldl_append, List.foldl_cons, List.foldl_nil]
            generalize (List.range n).foldl (searchRow pm w levels f) s = t at ihn
            obtain ⟨ht, hm⟩ := ihn
            unfold searchRow
            dsimp only
            split_ifs
            · obtain ⟨hf, hmem⟩ := ih (pm.pmRead t.memory (f * cfg.pageSize + n)).toIndex f n t
                (by rwa [ht])
              exact ⟨hf.trans ht, hmem.trans hm⟩
            · exact ⟨ht, hm⟩
      rw [findFreeFrame_succ]
      dsimp only
      rw [if_neg (by rw [(hloop _).1]; exact fun h => hs h.2.2.2)]
      exact hloop _

/-- The search of one more row, when the search below the frame it refers to ends in an
outcome. -/
theorem outcome_row {levels n a : ℕ} {t : FreeSearch pm} (hn : n < cfg.pageSize)
    (hrec : ∀ c, child pm m f n = some c → t.memory = m → t.finishedEmpty = 0 →
      Outcome pm w m t.maxFrameIndex (Below pm m levels c) (TableBelow pm m levels c)
        (findFreeFrame pm w levels c f n t))
    (ht : Outcome pm w m a (BelowRows pm m levels f n) (TableBelowRows pm m levels f n) t) :
    Outcome pm w m a (BelowRows pm m levels f (n + 1)) (TableBelowRows pm m levels f (n + 1))
      (searchRow pm w levels f t n) := by
  unfold searchRow
  dsimp only
  rcases ht with hun | hfound
  · have hword : pm.pmRead t.memory (f * cfg.pageSize + n) = pm.entry m f n := by
      rw [hun.memory]
      rfl
    rw [hword]
    split_ifs with h0
    · have hchild : child pm m f n = some (pm.entry m f n).toIndex :=
        child_eq_some.mpr ⟨hn, h0, rfl⟩
      rcases hrec _ hchild hun.memory hun.finished with hun' | hfound
      · refine Or.inl (Unfound.maxFrame (hun.trans hun' (?_) ?_)
          fun g => belowRows_succ)
        · intro g
          simp [hchild]
        · intro g hg
          simpa [hchild] using tableBelowRows_succ.mp hg
      · exact Or.inr (hfound.congr ⟨rfl, rfl⟩)
    · have hnone : child pm m f n = none := (child_eq_none hn).mpr (not_not.mp h0)
      have hsame : Unfound pm w m t.maxFrameIndex (fun _ => False) (fun _ => False) t :=
        ⟨hun.memory, hun.finished, Covers.refl _ fun _ h => h, fun _ h => absurd h id⟩
      refine Or.inl (Unfound.maxFrame (hun.trans hsame (?_) ?_)
        fun g => belowRows_succ)
      · intro g
        simp [hnone]
      · intro g hg
        simpa [hnone] using tableBelowRows_succ.mp hg
  · right
    split_ifs
    · exact hfound.congr (findFreeFrame_finished levels _ f n t hfound.ne_zero)
    · exact hfound.congr ⟨rfl, rfl⟩

/-- The search of the rows before `n`. -/
theorem outcome_rows {levels : ℕ} {s : FreeSearch pm} (hmem : s.memory = m)
    (hfin : s.finishedEmpty = 0)
    (hrec : ∀ i c t, child pm m f i = some c → t.memory = m → t.finishedEmpty = 0 →
      Outcome pm w m t.maxFrameIndex (Below pm m levels c) (TableBelow pm m levels c)
        (findFreeFrame pm w levels c f i t)) {n : ℕ} (hn : n ≤ cfg.children f) :
    Outcome pm w m s.maxFrameIndex (BelowRows pm m levels f n) (TableBelowRows pm m levels f n)
      ((List.range n).foldl (searchRow pm w levels f) s) := by
  induction n with
  | zero =>
      refine Or.inl ⟨hmem, hfin, Covers.refl _ ?_, ?_⟩
      · simp [BelowRows]
      · simp [TableBelowRows]
  | succ n ih =>
      rw [List.range_succ, List.foldl_append, List.foldl_cons, List.foldl_nil]
      apply outcome_row (lt_of_lt_of_le hn (cfg.children_le f)) _ (ih (by omega))
      intro c hc
      exact hrec n c _ hc

section Test

variable {levels parent row : ℕ} {rt : List ℕ} {t : FreeSearch pm}
  (hrows : ∀ f i g, child pm m f i = some g → i < cfg.children f)
include hrows

/-- The frames below `f` are those below its rows and `f`. -/
theorem below_eq_rows :
    Below pm m (levels + 1) f = BelowRows pm m levels f (cfg.children f) := by
  ext g
  apply below_succ.trans
  constructor
  · rintro (rfl | ⟨i, c, hc, hg⟩)
    · exact Or.inl ⟨cfg.children_pos _, rfl⟩
    · exact Or.inr ⟨i, hrows f i c hc, c, hc, hg⟩
  · rintro (⟨-, rfl⟩ | ⟨i, -, c, hc, hg⟩)
    · exact Or.inl rfl
    · exact Or.inr ⟨i, c, hc, hg⟩

/-- The test of `f` after its rows. -/
theorem outcome_test {a : ℕ} (hlen : rt.length + (levels + 1) = cfg.tablesDepth)
    (hlinked : Linked pm m rt f parent row)
    (ht : Outcome pm w m a (BelowRows pm m levels f (cfg.children f))
      (TableBelowRows pm m levels f (cfg.children f)) t) :
    Outcome pm w m a (Below pm m (levels + 1) f) (TableBelow pm m (levels + 1) f)
      (if f ≠ 0 ∧ checkFrameEmpty pm f t.memory ∧ f ≠ w ∧ t.finishedEmpty = 0 then
        { t with
          memory := pm.pmWrite t.memory (parent * cfg.pageSize + row) 0
          finishedEmpty := f }
      else t) := by
  rcases ht with hun | hfound
  · split_ifs with hcond
    · -- `f` itself is vacant
      obtain ⟨h0, hempty, hw, -⟩ := hcond
      obtain ⟨q, rfl, hq, hp⟩ := hlinked.2 h0
      rw [hun.memory] at hempty
      rw [List.length_append, List.length_singleton] at hlen
      exact Or.inr ⟨q, parent, row, by omega, hq, hp, ⟨h0, hempty, hw⟩, by rw [hun.memory]⟩
    · refine Or.inl ⟨hun.memory, hun.finished, ?_, ?_⟩
      · rw [below_eq_rows hrows]
        exact hun.covers
      · intro g hg hvacant
        rcases tableBelow_succ.mp hg with rfl | ⟨i, c, hc, hg⟩
        · obtain ⟨h0, hempty, hw⟩ := hvacant
          rw [← hun.memory] at hempty
          exact hcond ⟨h0, hempty, hw, hun.finished⟩
        · exact hun.occupied g ⟨i, hrows f i c hc, c, hc, hg⟩ hvacant
  · rw [if_neg fun h => hfound.ne_zero h.2.2.2]
    exact Or.inr hfound

/-- **The search for a free frame.** The search below `f`, the end of the route `rt`, started with
nothing found yet, ends in an outcome for the frames and tables below `f`. -/
theorem findFreeFrame_outcome (levels : ℕ) : ∀ (rt : List ℕ) (f parent row : ℕ)
    (s : FreeSearch pm), rt.length + levels = cfg.tablesDepth → Linked pm m rt f parent row →
    s.memory = m → s.finishedEmpty = 0 →
      Outcome pm w m s.maxFrameIndex (Below pm m levels f) (TableBelow pm m levels f)
        (findFreeFrame pm w levels f parent row s) := by
  induction levels with
  | zero =>
      intro rt f parent row s _ _ hmem hfin
      refine Or.inl ⟨hmem, hfin, ?_, ?_⟩
      · have hbelow : Below pm m 0 f = (· = f) := by
          funext g
          simp [Below, eq_comm]
        rw [hbelow]
        exact covers_maxFrame _ _
      · rintro g ⟨t, ht, -⟩
        exact absurd ht (Nat.not_lt_zero _)
  | succ levels ih =>
      intro rt f parent row s hlen hlinked hmem hfin
      rw [findFreeFrame_succ]
      apply outcome_test hrows hlen hlinked
      apply outcome_rows hmem hfin _ le_rfl
      intro i c t hc ht hfin'
      refine ih (rt ++ [i]) c f i t ?_ ?_ ht hfin'
      · rw [List.length_append, List.length_singleton]
        omega
      · exact ⟨follow_snoc.mpr ⟨f, hlinked.1, hc⟩, fun _ => ⟨rt, rfl, hlinked.1, hc⟩⟩

end Test

/-- The search from the root: either a vacant table is unlinked, or there is none and the maximum
is one more than the largest frame in use. -/
theorem findFreeFrame_root (hs : Shape pm m) (w : ℕ) :
    let s := findFreeFrame pm w cfg.tablesDepth 0 0 0 ⟨0, 0, m⟩
    Found pm w m s ∨
      (s.memory = m ∧ s.finishedEmpty = 0 ∧ (∀ g, IsTable pm m g → ¬ Vacant pm w m g) ∧
        s.maxFrameIndex ≤ cfg.numFrames ∧
        ∀ f, (∃ r, Reached pm m r f) ↔ f < s.maxFrameIndex) := by
  intro s
  have hout : Outcome pm w m 0 (Below pm m cfg.tablesDepth 0) (TableBelow pm m cfg.tablesDepth 0)
      s := findFreeFrame_outcome (fun _ _ _ => hs.row_lt) _ [] 0 0 0 ⟨0, 0, m⟩ (by simp)
        ⟨rfl, fun h => absurd rfl h⟩ rfl rfl
  rcases hout with hun | hfound
  · obtain ⟨k, hk, hused⟩ := hs.used
    obtain ⟨-, hle, hmax⟩ := hun.covers
    have hmax' : s.maxFrameIndex = k + 1 := by
      have hkk : k + 1 ≤ s.maxFrameIndex := hle k ((hused k).mpr le_rfl)
      rcases hmax with h0 | ⟨g, hg, hgs⟩
      · omega
      · have := (hused g).mp hg
        omega
    refine Or.inr ⟨hun.memory, hun.finished, hun.occupied, by omega, ?_⟩
    intro f
    rw [hused f, hmax', Nat.lt_succ_iff]
  · exact Or.inl hfound

end Search

end CoreOS.VirtualMemory
