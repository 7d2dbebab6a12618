import CoreOS.Lib.Machine

/-!
# Grouping a list by a strict weak order

Sorting a list and cutting it where the key changes, as a specification and as a function.

* `IsGrouping lt l gs`: the groups `gs` are the equivalence classes of the elements of `l`, in
  ascending order.
* `IsGrouping.forall₂_perm`: groupings are unique up to the order within the groups, so what a
  function blind to that order makes of them is unique (`IsGrouping.flatMap_eq`).
* `Cutting`: the invariant of grouping by taking minimal elements and cutting where the key changes.
* `classes lt l`: a grouping, computed by insertion.
-/

namespace CoreOS.Lib

open List

variable {α β : Type*} {lt : α → α → Prop} {l l' : List α} {gs gs' : List (List α)} {a b c : α}

/-! ## Strict weak orders -/

section order

variable [IsStrictWeakOrder α lt]

/-- Incomparability to the right does not disturb the order. -/
theorem lt_of_lt_of_not_lt (hab : lt a b) (hcb : ¬ lt c b) : lt a c := by
  by_contra hac
  have hca : ¬ lt c a := fun h => hcb (trans_of lt h hab)
  have hbc : ¬ lt b c := fun h => hac (trans_of lt hab h)
  exact (IsStrictWeakOrder.incomp_trans a c b ⟨hac, hca⟩ ⟨hcb, hbc⟩).1 hab

/-- Incomparability to the left does not disturb the order. -/
theorem lt_of_not_lt_of_lt (hba : ¬ lt b a) (hbc : lt b c) : lt a c := by
  by_contra hac
  have hca : ¬ lt c a := fun h => hba (trans_of lt hbc h)
  have hab : ¬ lt a b := fun h => hac (trans_of lt h hbc)
  exact (IsStrictWeakOrder.incomp_trans b a c ⟨hba, hab⟩ ⟨hac, hca⟩).1 hbc

/-- Not being greater is transitive. -/
theorem not_lt_trans (hba : ¬ lt b a) (hcb : ¬ lt c b) : ¬ lt c a := fun hca =>
  hcb (lt_of_lt_of_not_lt hca hba)

end order

/-! ## Groupings -/

/-- The groups `gs` are the equivalence classes of the elements of `l`, in ascending order. -/
structure IsGrouping (lt : α → α → Prop) (l : List α) (gs : List (List α)) : Prop where
  /-- Nothing is lost, added or duplicated. -/
  perm : gs.flatten.Perm l
  /-- No group is empty. -/
  nonempty : ∀ g ∈ gs, g ≠ []
  /-- The elements of a group are equivalent. -/
  equivalent : ∀ g ∈ gs, ∀ a ∈ g, ∀ b ∈ g, ¬ lt a b
  /-- Elements of different groups are not, and the groups ascend. -/
  ascending : gs.Pairwise fun g g' => ∀ a ∈ g, ∀ b ∈ g', lt a b

namespace IsGrouping

theorem nil : IsGrouping lt [] [] := ⟨.refl _, nofun, nofun, .nil⟩

/-- A grouping of a list is one of its permutations. -/
theorem of_perm (h : IsGrouping lt l gs) (hl : l.Perm l') : IsGrouping lt l' gs :=
  ⟨h.perm.trans hl, h.nonempty, h.equivalent, h.ascending⟩

/-- There are no more groups than elements. -/
theorem length_le (h : IsGrouping lt l gs) : gs.length ≤ l.length := by
  rw [← h.perm.length_eq, length_flatten]
  calc gs.length = (gs.map fun _ => 1).sum := by simp
    _ ≤ (gs.map length).sum :=
        sum_le_sum fun g hg => length_pos_iff.mpr (h.nonempty g hg)

/-- The later groups are a grouping of what they contain. -/
theorem tail {g : List α} (h : IsGrouping lt l (g :: gs)) : IsGrouping lt gs.flatten gs :=
  ⟨.refl _, fun x hx => h.nonempty x (mem_cons_of_mem _ hx),
    fun x hx => h.equivalent x (mem_cons_of_mem _ hx), (pairwise_cons.mp h.ascending).2⟩

/-- Only the empty list has no groups. -/
theorem eq_nil (h : IsGrouping lt [] gs) : gs = [] := by
  cases gs with
  | nil => rfl
  | cons g gs =>
      have hnil := h.perm.eq_nil
      rw [flatten_cons, append_eq_nil_iff] at hnil
      exact absurd hnil.1 (h.nonempty g mem_cons_self)

section unique

variable [IsStrictWeakOrder α lt]

open Classical in
/-- The first group holds the minimal elements, the other groups the rest. -/
theorem filter_minimal {g : List α} (h : IsGrouping lt l (g :: gs)) :
    (g ++ gs.flatten).filter (fun x => ∀ y ∈ l, ¬ lt y x) = g ∧
      (g ++ gs.flatten).filter (fun x => ¬ ∀ y ∈ l, ¬ lt y x) = gs.flatten := by
  obtain ⟨hlt, -⟩ := pairwise_cons.mp h.ascending
  have hmem : ∀ y, y ∈ l ↔ y ∈ g ∨ y ∈ gs.flatten := by
    intro y
    rw [← h.perm.mem_iff, flatten_cons, mem_append]
  have hmin : ∀ x ∈ g, ∀ y ∈ l, ¬ lt y x := by
    intro x hx y hy hyx
    rcases (hmem y).mp hy with hy | hy
    · exact h.equivalent g mem_cons_self y hy x hx hyx
    · obtain ⟨g', hg', hy⟩ := mem_flatten.mp hy
      exact irrefl_of lt x (trans_of lt (hlt g' hg' x hx y hy) hyx)
  have hrest : ∀ x ∈ gs.flatten, ¬ ∀ y ∈ l, ¬ lt y x := by
    intro x hx hall
    obtain ⟨g', hg', hx⟩ := mem_flatten.mp hx
    obtain ⟨a, ha⟩ := exists_mem_of_ne_nil g (h.nonempty g mem_cons_self)
    exact hall a ((hmem a).mpr (.inl ha)) (hlt g' hg' a ha x hx)
  constructor
  · rw [filter_append, filter_eq_self.mpr (by simpa using hmin),
      filter_eq_nil_iff.mpr (by simpa using hrest), append_nil]
  · rw [filter_append, filter_eq_nil_iff.mpr (by simpa using hmin),
      filter_eq_self.mpr (by simpa using hrest), nil_append]

/-- **Uniqueness.** Two groupings of one list have the same groups up to order within them. -/
theorem forall₂_perm : ∀ {gs gs' : List (List α)} {l : List α}, IsGrouping lt l gs →
    IsGrouping lt l gs' → Forall₂ Perm gs gs'
  | [], gs', l, h, h' => by
      have hl : l = [] := (h.perm.symm.eq_nil :)
      subst hl
      rw [h'.eq_nil]
      exact .nil
  | g :: gs, [], l, h, h' => by
      have hl : l = [] := (h'.perm.symm.eq_nil :)
      subst hl
      exact absurd h.eq_nil nofun
  | g :: gs, g' :: gs', l, h, h' => by
      classical
      obtain ⟨hg, hgs⟩ := h.filter_minimal
      obtain ⟨hg', hgs'⟩ := h'.filter_minimal
      have hperm : (g ++ gs.flatten).Perm (g' ++ gs'.flatten) := by
        simpa using h.perm.trans h'.perm.symm
      refine .cons (hg ▸ hg' ▸ hperm.filter _) (forall₂_perm h.tail (h'.tail.of_perm ?_))
      exact (hgs ▸ hgs' ▸ hperm.filter _ : gs.flatten.Perm gs'.flatten).symm

/-- What a function that ignores the order within a group makes of a grouping is unique. -/
theorem flatMap_eq (h : IsGrouping lt l gs) (h' : IsGrouping lt l gs') {f : List α → List β}
    (hf : ∀ g g', g.Perm g' → f g = f g') : gs.flatMap f = gs'.flatMap f := by
  have hperm := h.forall₂_perm h'
  clear h h'
  induction hperm with
  | nil => rfl
  | cons hg _ ih => rw [flatMap_cons, flatMap_cons, hf _ _ hg, ih]

end unique

end IsGrouping

/-! ## Grouping by taking minimal elements -/

/-- The groups of greater elements, behind the others. -/
theorem IsGrouping.append (h : IsGrouping lt l gs) (h' : IsGrouping lt l' gs')
    (hlt : ∀ a ∈ l, ∀ b ∈ l', lt a b) : IsGrouping lt (l ++ l') (gs ++ gs') where
  perm := by
    rw [flatten_append]
    exact h.perm.append h'.perm
  nonempty x hx := (mem_append.mp hx).elim (h.nonempty x) (h'.nonempty x)
  equivalent x hx := (mem_append.mp hx).elim (h.equivalent x) (h'.equivalent x)
  ascending := by
    refine pairwise_append.mpr ⟨h.ascending, h'.ascending, ?_⟩
    intro x hx y hy a ha b hb
    exact hlt a (h.perm.mem_iff.mp (mem_flatten.mpr ⟨x, hx, ha⟩)) b
      (h'.perm.mem_iff.mp (mem_flatten.mpr ⟨y, hy, hb⟩))

/-- One group more, behind the others. -/
theorem IsGrouping.snoc (h : IsGrouping lt gs.flatten gs) {g : List α} (hne : g ≠ [])
    (hequiv : ∀ a ∈ g, ∀ b ∈ g, ¬ lt a b) (hlt : ∀ a ∈ gs.flatten, ∀ b ∈ g, lt a b) :
    IsGrouping lt (gs ++ [g]).flatten (gs ++ [g]) := by
  have hg : IsGrouping lt g [g] := by
    refine ⟨by simp, ?_, ?_, pairwise_singleton _ _⟩
    all_goals
      intro x hx
      rwa [mem_singleton.mp hx]
  exact (h.append hg hlt).of_perm (by simp)

/-- A stage of grouping `l` by taking minimal elements one after the other: the groups `gs` are
finished, `saving` is the group under construction, `last` the element it is compared with, and
`rest` has not been taken. -/
structure Cutting (lt : α → α → Prop) (l : List α) (gs : List (List α)) (saving : List α) (last : α)
    (rest : List α) : Prop where
  /-- Nothing is lost, added or duplicated. -/
  perm : (gs.flatten ++ (saving ++ rest)).Perm l
  /-- The finished groups are as they should be. -/
  groups : IsGrouping lt gs.flatten gs
  /-- What is not finished is greater than what is. -/
  below : ∀ a ∈ gs.flatten, ∀ b ∈ saving ++ rest, lt a b
  /-- The group under construction consists of equivalents of `last`. -/
  saved : ∀ a ∈ saving, ¬ lt a last ∧ ¬ lt last a
  /-- What has not been taken is not smaller. -/
  minimal : ∀ b ∈ rest, ¬ lt b last
  /-- A group under construction without elements is that of an element to be taken. -/
  fresh : saving = [] → rest ≠ [] → last ∈ rest

namespace Cutting

variable {saving rest rest' : List α} {last this : α}

/-- The first element to compare with is a minimal one. -/
theorem start (hmem : last ∈ l) (hmin : ∀ b ∈ l, ¬ lt b last) : Cutting lt l [] [] last l where
  perm := .refl _
  groups := .nil
  below := nofun
  saved := nofun
  minimal := hmin
  fresh _ _ := hmem

/-- A stage of grouping a list is one of grouping its permutations. -/
theorem of_perm (h : Cutting lt l gs saving last rest) (hl : l.Perm l') :
    Cutting lt l' gs saving last rest :=
  { h with perm := h.perm.trans hl }

/-- Taking an element that is equivalent to the last one. -/
theorem take [IsStrictWeakOrder α lt] (h : Cutting lt l gs saving last rest)
    (hperm : rest.Perm (this :: rest')) (hequiv : ¬ lt last this ∧ ¬ lt this last) :
    Cutting lt l gs (saving ++ [this]) last rest' where
  perm := by
    refine Perm.trans (.append_left _ ?_) h.perm
    rw [append_assoc]
    exact hperm.symm.append_left saving
  groups := h.groups
  below a ha b hb := h.below a ha b (by
    simp only [mem_append, hperm.mem_iff, mem_cons, not_mem_nil, or_false] at hb ⊢
    tauto)
  saved a ha := by
    rcases mem_append.mp ha with ha | ha
    · exact h.saved a ha
    · rw [mem_singleton.mp ha]
      exact hequiv.symm
  minimal b hb := h.minimal b (hperm.mem_iff.mpr (mem_cons_of_mem _ hb))
  fresh hnil := absurd hnil (by simp)

/-- Finishing the group under construction. -/
theorem flush [IsStrictWeakOrder α lt] (h : Cutting lt l gs saving last rest) (hne : saving ≠ [])
    (hlt : ∀ b ∈ rest, lt last b) (hmem : rest ≠ [] → this ∈ rest)
    (hmin : ∀ b ∈ rest, ¬ lt b this) : Cutting lt l (gs ++ [saving]) [] this rest where
  perm := by simpa using h.perm
  groups := h.groups.snoc hne
    (fun a ha b hb => not_lt_trans (h.saved b hb).2 (h.saved a ha).1)
    fun a ha b hb => h.below a ha b (mem_append_left _ hb)
  below a ha b hb := by
    rw [flatten_append, mem_append] at ha
    rcases ha with ha | ha
    · exact h.below a ha b (mem_append_right _ hb)
    · simp only [flatten_cons, flatten_nil, append_nil] at ha
      exact lt_of_not_lt_of_lt (h.saved a ha).2 (hlt b hb)
  saved := nofun
  minimal := hmin
  fresh _ := hmem

/-- A group is cut where the key changes; it has elements then. -/
theorem cut [IsStrictWeakOrder α lt] (h : Cutting lt l gs saving last rest) (hmem : this ∈ rest)
    (hmin : ∀ b ∈ rest, ¬ lt b this) (hdiff : ¬ (¬ lt last this ∧ ¬ lt this last)) :
    Cutting lt l (gs ++ [saving]) [] this rest := by
  have hlt : lt last this := by
    by_contra hnot
    exact hdiff ⟨hnot, h.minimal this hmem⟩
  refine h.flush (?_) (fun b hb => lt_of_lt_of_not_lt hlt (hmin b hb)) (fun _ => hmem) hmin
  intro hnil
  exact hmin last (h.fresh hnil (ne_nil_of_mem hmem)) hlt

/-- With nothing left to take, the finished groups are a grouping. -/
theorem finish (h : Cutting lt l gs [] last []) : IsGrouping lt l gs :=
  h.groups.of_perm (by simpa using h.perm)

end Cutting

/-- A list with elements has a minimal one. -/
theorem exists_minimal [IsStrictWeakOrder α lt] : ∀ {l : List α}, l ≠ [] →
    ∃ a ∈ l, ∀ b ∈ l, ¬ lt b a
  | [], h => absurd rfl h
  | a :: l, _ => by
      by_cases hl : l = []
      · subst hl
        exact ⟨a, mem_cons_self, by simpa using irrefl_of lt a⟩
      obtain ⟨c, hc, hmin⟩ := exists_minimal hl
      by_cases hac : lt a c
      · refine ⟨a, mem_cons_self, ?_⟩
        intro b hb hba
        rcases mem_cons.mp hb with rfl | hb
        · exact irrefl_of lt _ hba
        · exact hmin b hb (trans_of lt hba hac)
      · refine ⟨c, mem_cons_of_mem _ hc, ?_⟩
        intro b hb
        rcases mem_cons.mp hb with rfl | hb
        · exact hac
        · exact hmin b hb

/-! ## Computing a grouping -/

section insert

variable {a b : α} {g : List α} {gs : List (List α)} {l : List α}
  (h : IsGrouping lt l ((b :: g) :: gs))
include h

/-- The elements of the first group are equivalent to its first one. -/
theorem IsGrouping.equivalent_first {c : α} (hc : c ∈ b :: g) : ¬ lt b c ∧ ¬ lt c b :=
  have hequiv := h.equivalent (b :: g) mem_cons_self
  ⟨hequiv b mem_cons_self c hc, hequiv c hc b mem_cons_self⟩

/-- A smaller element makes a group of its own, in front. -/
theorem IsGrouping.insert_front [IsStrictWeakOrder α lt] (hab : lt a b) :
    IsGrouping lt (a :: l) ([a] :: (b :: g) :: gs) := by
  obtain ⟨hlt, -⟩ := pairwise_cons.mp h.ascending
  have hall : ∀ g' ∈ (b :: g) :: gs, ∀ c ∈ g', lt a c := by
    intro g' hg' c hc
    rcases mem_cons.mp hg' with rfl | hg'
    · exact lt_of_lt_of_not_lt hab (h.equivalent_first hc).2
    · exact trans_of lt hab (hlt g' hg' b mem_cons_self c hc)
  refine ⟨h.perm.cons a, ?_, ?_, pairwise_cons.mpr ⟨?_, h.ascending⟩⟩
  · simpa using h.nonempty
  · simpa [irrefl_of lt a] using h.equivalent
  · intro g' hg' x hx c hc
    rw [mem_singleton.mp hx]
    exact hall g' hg' c hc

/-- An equivalent element joins the first group. -/
theorem IsGrouping.insert_first [IsStrictWeakOrder α lt] (hab : ¬ lt a b) (hba : ¬ lt b a) :
    IsGrouping lt (a :: l) ((a :: b :: g) :: gs) := by
  obtain ⟨hlt, hasc⟩ := pairwise_cons.mp h.ascending
  have ha : ∀ c ∈ b :: g, ¬ lt a c ∧ ¬ lt c a := by
    intro c hc
    obtain ⟨hbc, hcb⟩ := h.equivalent_first hc
    exact ⟨not_lt_trans hbc hab, not_lt_trans hba hcb⟩
  refine ⟨h.perm.cons a, ?_, ?_, pairwise_cons.mpr ⟨?_, hasc⟩⟩
  · have := h.nonempty
    simp only [mem_cons, forall_eq_or_imp] at this ⊢
    exact ⟨nofun, this.2⟩
  · intro g' hg'
    rcases mem_cons.mp hg' with rfl | hg'
    · intro x hx y hy
      rcases mem_cons.mp hx with rfl | hx' <;> rcases mem_cons.mp hy with rfl | hy'
      · exact irrefl_of lt _
      · exact (ha y hy').1
      · exact (ha x hx').2
      · exact h.equivalent (b :: g) mem_cons_self x hx' y hy'
    · exact h.equivalent g' (mem_cons_of_mem _ hg')
  · intro g' hg' x hx c hc
    rcases mem_cons.mp hx with rfl | hx
    · exact lt_of_not_lt_of_lt hba (hlt g' hg' b mem_cons_self c hc)
    · exact hlt g' hg' x hx c hc

end insert

section classes

variable (lt) [DecidableRel lt]

/-- Puts an element in its group, or in a group of its own. -/
def insertClass (a : α) : List (List α) → List (List α)
  | [] => [[a]]
  | [] :: gs => insertClass a gs
  | (b :: g) :: gs =>
      if lt a b then [a] :: (b :: g) :: gs
      else if lt b a then (b :: g) :: insertClass a gs
      else (a :: b :: g) :: gs

/-- The equivalence classes of a list in ascending order. -/
def classes (l : List α) : List (List α) := l.foldr (insertClass lt) []

variable {lt}

theorem flatten_insertClass : ∀ gs : List (List α),
    (insertClass lt a gs).flatten.Perm (a :: gs.flatten)
  | [] => .refl _
  | [] :: gs => by simpa [insertClass] using flatten_insertClass gs
  | (b :: g) :: gs => by
      unfold insertClass
      split_ifs
      · exact .refl _
      · exact ((flatten_insertClass gs).append_left (b :: g)).trans perm_middle
      · exact .refl _

theorem mem_of_mem_insertClass {g : List α} (hg : g ∈ insertClass lt a gs) (hb : b ∈ g) :
    b = a ∨ b ∈ gs.flatten := by
  have := (flatten_insertClass gs).mem_iff.mp (mem_flatten.mpr ⟨g, hg, hb⟩)
  simpa using this

/-- A greater element goes further back. -/
theorem IsGrouping.insert_back [IsStrictWeakOrder α lt] {b : α} {g : List α} {l : List α}
    (h : IsGrouping lt l ((b :: g) :: gs)) (hba : lt b a)
    (htail : IsGrouping lt (a :: gs.flatten) (Lib.insertClass lt a gs)) :
    IsGrouping lt (a :: l) ((b :: g) :: Lib.insertClass lt a gs) := by
  obtain ⟨hlt, -⟩ := pairwise_cons.mp h.ascending
  have hperm : ((b :: g) :: Lib.insertClass lt a gs).flatten.Perm (a :: l) :=
    ((flatten_insertClass gs).append_left (b :: g)).trans
      (perm_middle.trans (h.perm.cons a))
  refine ⟨hperm, ?_, ?_, pairwise_cons.mpr ⟨?_, htail.ascending⟩⟩
  · intro g' hg'
    rcases mem_cons.mp hg' with rfl | hg'
    · nofun
    · exact htail.nonempty g' hg'
  · intro g' hg'
    rcases mem_cons.mp hg' with rfl | hg'
    · exact h.equivalent (b :: g) mem_cons_self
    · exact htail.equivalent g' hg'
  · intro g' hg' x hx c hc
    rcases mem_of_mem_insertClass hg' hc with rfl | hc
    · exact lt_of_not_lt_of_lt (h.equivalent_first hx).1 hba
    · obtain ⟨g'', hg'', hc⟩ := mem_flatten.mp hc
      exact hlt g'' hg'' x hx c hc

/-- Inserting an element keeps a grouping. -/
theorem IsGrouping.insertClass [IsStrictWeakOrder α lt] : ∀ {gs : List (List α)} {l : List α},
    IsGrouping lt l gs → IsGrouping lt (a :: l) (insertClass lt a gs)
  | [], l, h => by
      have hl : l = [] := (h.perm.symm.eq_nil :)
      subst hl
      exact ⟨.refl _, by simp [Lib.insertClass], by simp [Lib.insertClass, irrefl_of lt a],
        by simp [Lib.insertClass]⟩
  | [] :: gs, l, h => absurd rfl (h.nonempty [] mem_cons_self)
  | (b :: g) :: gs, l, h => by
      unfold Lib.insertClass
      split_ifs with hab hba
      · exact h.insert_front hab
      · exact h.insert_back hba h.tail.insertClass
      · exact h.insert_first hab hba

/-- **Existence.** `classes` computes a grouping. -/
theorem isGrouping_classes [IsStrictWeakOrder α lt] : ∀ l : List α, IsGrouping lt l (classes lt l)
  | [] => .nil
  | _ :: l => (isGrouping_classes l).insertClass

/-- At no stage are there more groups than in the end. -/
theorem Cutting.length_le [IsStrictWeakOrder α lt] {saving rest : List α} {last : α}
    (h : Cutting lt l gs saving last rest) : gs.length ≤ (classes lt l).length := by
  have hall : IsGrouping lt l (gs ++ classes lt (saving ++ rest)) :=
    (h.groups.append (isGrouping_classes _) h.below).of_perm h.perm
  calc gs.length ≤ (gs ++ classes lt (saving ++ rest)).length := by simp
    _ = (classes lt l).length := (hall.forall₂_perm (isGrouping_classes l)).length_eq

/-- Equivalent elements are one class. -/
theorem length_classes_replicate [IsStrictWeakOrder α lt] (n : ℕ) (a : α) :
    (classes lt (replicate n a)).length ≤ 1 := by
  rcases Nat.eq_zero_or_pos n with rfl | hn
  · exact Nat.zero_le _
  have hg : IsGrouping lt (replicate n a) [replicate n a] := by
    refine ⟨by simp, ?_, ?_, pairwise_singleton _ _⟩
    · intro x hx
      rw [mem_singleton.mp hx]
      simp [hn.ne']
    · intro x hx b hb c hc
      rw [mem_singleton.mp hx] at hb hc
      rw [eq_of_mem_replicate hb, eq_of_mem_replicate hc]
      exact irrefl_of lt a
  exact ((isGrouping_classes _).forall₂_perm hg).length_eq.le

/-- Strictly ascending elements are one class each. -/
theorem length_classes_of_pairwise [IsStrictWeakOrder α lt] (h : l.Pairwise lt) :
    (classes lt l).length = l.length := by
  have hg : IsGrouping lt l (l.map fun a => [a]) := by
    refine ⟨?_, ?_, ?_, ?_⟩
    · rw [← flatMap_def, flatMap_singleton']
    · simp
    · intro g hg b hb c hc
      obtain ⟨a, -, rfl⟩ := mem_map.mp hg
      rw [mem_singleton.mp hb, mem_singleton.mp hc]
      exact irrefl_of lt a
    · refine pairwise_map.mpr (h.imp fun hab b hb c hc => ?_)
      rwa [mem_singleton.mp hb, mem_singleton.mp hc]
  rw [((isGrouping_classes l).forall₂_perm hg).length_eq, length_map]

end classes

end CoreOS.Lib
