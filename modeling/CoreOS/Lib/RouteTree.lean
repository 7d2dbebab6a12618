import Mathlib

/-!
# Trees given by routes

A partial function `child` sends a node and a row to the node that the row refers to. A node is
reached from a root by a route, the list of the rows to follow, of at most `depth` rows.

* `follow`: the node at the end of a route; `follow_append` and `follow_snoc` take a route apart.
* `Reaches`: the node at the end of a route of admissible length; `Inner`: a node with room for
  another row below it.
* `IsTree`: no node is reached by two routes.
* `reaches_congr`, `reaches_unlink_iff`, `reaches_link_iff`: what a change of `child` does to the
  routes, when it touches no inner node, when it cuts off a node that has nothing below it, and when
  it hangs a fresh node below an inner node.
* `isPrefix_of_no_leaf`, `card_le_of_isPrefix`: a tree in which only one branch ends is that branch.
* `beginnings`: the beginnings of given routes, the nodes of the tree that is `MadeOf` them;
  `card_le_card_routes`, `IsTree.card_le_card_nodes`: counting nodes by routes.
* `leaves`: the routes of full length in the order of a depth-first search, and `mem_leaves_iff`;
  `pairwise_leaves` says which order that is.
* `better`: keeps the best element of a list, the first one on a tie; `foldl_better`.
-/

namespace CoreOS.Lib

variable {F R : Type*}

/-! ## Following a route -/

/-- The node at the end of the route `r` from `f`. -/
def follow (child : F → R → Option F) : F → List R → Option F
  | f, [] => some f
  | f, i :: r => (child f i).bind fun g => follow child g r

section Follow

variable {child : F → R → Option F}

@[simp] theorem follow_nil (f : F) : follow child f [] = some f := rfl

/-- A route splits at its first row. -/
theorem follow_cons {f h : F} {i : R} {r : List R} :
    follow child f (i :: r) = some h ↔ ∃ g, child f i = some g ∧ follow child g r = some h := by
  simp only [follow, Option.bind_eq_some_iff]

/-- A route splits at any row. -/
theorem follow_append {f h : F} {q r : List R} :
    follow child f (q ++ r) = some h ↔
      ∃ g, follow child f q = some g ∧ follow child g r = some h := by
  induction q generalizing f with
  | nil => simp
  | cons i q ih =>
      rw [List.cons_append, follow_cons]
      constructor
      · rintro ⟨g, hg, hr⟩
        obtain ⟨u, hu, hh⟩ := ih.mp hr
        exact ⟨u, follow_cons.mpr ⟨g, hg, hu⟩, hh⟩
      · rintro ⟨u, hu, hh⟩
        obtain ⟨g, hg, hq⟩ := follow_cons.mp hu
        exact ⟨g, hg, ih.mpr ⟨u, hq, hh⟩⟩

/-- A route splits at its last row. -/
theorem follow_snoc {f h : F} {r : List R} {i : R} :
    follow child f (r ++ [i]) = some h ↔
      ∃ g, follow child f r = some g ∧ child g i = some h := by
  rw [follow_append]
  constructor
  · rintro ⟨g, hg, hi⟩
    obtain ⟨u, hu, hh⟩ := follow_cons.mp hi
    rw [follow_nil] at hh
    exact ⟨g, hg, by rw [hu, hh]⟩
  · rintro ⟨g, hg, hi⟩
    exact ⟨g, hg, follow_cons.mpr ⟨h, hi, rfl⟩⟩

end Follow

/-! ## Reached nodes -/

/-- The route `r`, of at most `depth` rows, leads from `root` to `f`. -/
def Reaches (child : F → R → Option F) (root : F) (depth : ℕ) (r : List R) (f : F) : Prop :=
  r.length ≤ depth ∧ follow child root r = some f

/-- `f` is reached above the last level. -/
def Inner (child : F → R → Option F) (root : F) (depth : ℕ) (f : F) : Prop :=
  ∃ r, r.length < depth ∧ follow child root r = some f

/-- No node is reached by two routes. -/
def IsTree (child : F → R → Option F) (root : F) (depth : ℕ) : Prop :=
  ∀ r r' f, Reaches child root depth r f → Reaches child root depth r' f → r = r'

section Reached

variable {child child' : F → R → Option F} {root : F} {depth : ℕ}

/-- The root is reached by the empty route. -/
theorem reaches_root : Reaches child root depth [] root := ⟨Nat.zero_le _, rfl⟩

/-- A route of at least one row is a route to a node with room below and a row of that node. -/
theorem reaches_snoc {r : List R} {i : R} {f : F} :
    Reaches child root depth (r ++ [i]) f ↔
      ∃ g, r.length < depth ∧ follow child root r = some g ∧ child g i = some f := by
  unfold Reaches
  rw [follow_snoc, List.length_append, List.length_singleton, Nat.add_one_le_iff]
  constructor
  · rintro ⟨hlen, g, hg, hi⟩
    exact ⟨g, hlen, hg, hi⟩
  · rintro ⟨g, hlen, hg, hi⟩
    exact ⟨hlen, g, hg, hi⟩

/-- A route leads to one node. -/
theorem Reaches.unique {r : List R} {f g : F} (hf : Reaches child root depth r f)
    (hg : Reaches child root depth r g) : f = g :=
  Option.some.inj (hf.2.symm.trans hg.2)

/-- In a tree the root is reached by the empty route only. -/
theorem IsTree.eq_nil (htree : IsTree child root depth) {r : List R}
    (h : Reaches child root depth r root) : r = [] :=
  htree r [] root h reaches_root

/-- In a tree a node at the last level is not an inner node. -/
theorem IsTree.not_inner (htree : IsTree child root depth) {r : List R} {f : F}
    (h : follow child root r = some f) (hlen : r.length = depth) : ¬ Inner child root depth f := by
  rintro ⟨q, hq, hqf⟩
  obtain rfl : r = q := htree r q f ⟨hlen.le, h⟩ ⟨hq.le, hqf⟩
  exact absurd hlen hq.ne

/-! ## Changing the tree -/

/-- **Frame rule.** A change of `child` that touches no inner node changes no route. -/
theorem reaches_of_agree (h : ∀ g, Inner child root depth g → ∀ i, child' g i = child g i)
    {r : List R} {f : F} (hr : Reaches child root depth r f) : Reaches child' root depth r f := by
  induction r using List.reverseRecOn generalizing f with
  | nil => exact hr
  | append_singleton r i ih =>
      obtain ⟨g, hlen, hg, hi⟩ := reaches_snoc.mp hr
      refine reaches_snoc.mpr ⟨g, hlen, (ih ⟨hlen.le, hg⟩).2, ?_⟩
      rw [h g ⟨r, hlen, hg⟩, hi]

/-- The routes of a relation that is contained in `child` on inner nodes are routes of `child`. -/
theorem reaches_of_sub
    (h : ∀ g, Inner child root depth g → ∀ i f, child' g i = some f → child g i = some f)
    {r : List R} {f : F} (hr : Reaches child' root depth r f) : Reaches child root depth r f := by
  induction r using List.reverseRecOn generalizing f with
  | nil => exact hr
  | append_singleton r i ih =>
      obtain ⟨g, hlen, hg, hi⟩ := reaches_snoc.mp hr
      have hg' : follow child root r = some g := (ih ⟨hlen.le, hg⟩).2
      exact reaches_snoc.mpr ⟨g, hlen, hg', h g ⟨r, hlen, hg'⟩ i f hi⟩

/-- A change of `child` that touches no inner node leaves the routes as they are. -/
theorem reaches_congr (h : ∀ g, Inner child root depth g → ∀ i, child' g i = child g i)
    {r : List R} {f : F} : Reaches child' root depth r f ↔ Reaches child root depth r f := by
  constructor
  · apply reaches_of_sub
    intro g hg i f hf
    rw [← h g hg, hf]
  · exact reaches_of_agree h

/-- Nothing is below `f`, which `r` leads to: `r` is of full length, or every row of `f` is
empty. -/
def Bare (child : F → R → Option F) (depth : ℕ) (r : List R) (f : F) : Prop :=
  r.length = depth ∨ ∀ i, child f i = none

/-- **Unlinking.** Emptying the row `i` of `p`, which referred to a node `f` with nothing below
it, takes exactly `f` out of the tree. -/
theorem reaches_unlink_iff (htree : IsTree child root depth) {rp : List R} {p f : F} {i : R}
    (hf : Reaches child root depth (rp ++ [i]) f) (hp : follow child root rp = some p)
    (hbare : Bare child depth (rp ++ [i]) f) (hcut : child' p i = none)
    (hother : ∀ g, Inner child root depth g → ∀ j, ¬ (g = p ∧ j = i) → child' g j = child g j)
    {r : List R} {g : F} :
    Reaches child' root depth r g ↔ Reaches child root depth r g ∧ g ≠ f := by
  obtain ⟨p', hlen, hp', hpf⟩ := reaches_snoc.mp hf
  obtain rfl : p' = p := Option.some.inj (hp'.symm.trans hp)
  constructor
  · intro hr
    have hr' : Reaches child root depth r g := by
      refine reaches_of_sub (?_) hr
      intro u hu j v huv
      by_cases hpos : u = p' ∧ j = i
      · rw [hpos.1, hpos.2, hcut] at huv
        exact absurd huv (by simp)
      · rwa [hother u hu j hpos] at huv
    refine ⟨hr', ?_⟩
    rintro rfl
    -- the only route to the node that was cut off ends with the emptied row
    obtain rfl : r = rp ++ [i] := htree _ _ _ hr' hf
    obtain ⟨u, -, hu, hui⟩ := reaches_snoc.mp hr
    obtain ⟨-, hu'⟩ : Reaches child root depth rp u := by
      refine reaches_of_sub (?_) (⟨hlen.le, hu⟩ : Reaches child' root depth rp u)
      intro w hw j v hwv
      by_cases hpos : w = p' ∧ j = i
      · rw [hpos.1, hpos.2, hcut] at hwv
        exact absurd hwv (by simp)
      · rwa [hother w hw j hpos] at hwv
    obtain rfl : u = p' := Option.some.inj (hu'.symm.trans hp)
    rw [hcut] at hui
    exact absurd hui (by simp)
  · rintro ⟨hr, hne⟩
    induction r using List.reverseRecOn generalizing g with
    | nil => exact hr
    | append_singleton r j ih =>
        obtain ⟨u, hlen', hu, huj⟩ := reaches_snoc.mp hr
        have hur : Reaches child root depth r u := ⟨hlen'.le, hu⟩
        have huf : u ≠ f := by
          rintro rfl
          obtain rfl : r = rp ++ [i] := htree _ _ _ hur hf
          rcases hbare with hfull | hnone
          · omega
          · rw [hnone j] at huj
            exact absurd huj (by simp)
        have hpos : ¬ (u = p' ∧ j = i) := by
          rintro ⟨rfl, rfl⟩
          exact hne (Option.some.inj (huj.symm.trans hpf))
        refine reaches_snoc.mpr ⟨u, hlen', (ih hur huf).2, ?_⟩
        rw [hother u ⟨r, hlen', hu⟩ j hpos, huj]

/-- **Linking.** Referring the empty row `i` of `p` to a node `f` outside the tree, with nothing
below it, adds exactly `f` to the tree. -/
theorem reaches_link_iff (htree : IsTree child root depth) {rp : List R} {p f : F} {i : R}
    (hp : follow child root rp = some p) (hlen : rp.length < depth)
    (hfresh : ∀ r, ¬ Reaches child root depth r f)
    (hbare : Bare child' depth (rp ++ [i]) f) (hempty : child p i = none)
    (hset : child' p i = some f)
    (hother : ∀ g, Inner child root depth g → ∀ j, ¬ (g = p ∧ j = i) → child' g j = child g j)
    {r : List R} {g : F} :
    Reaches child' root depth r g ↔ Reaches child root depth r g ∨ r = rp ++ [i] ∧ g = f := by
  have hold : ∀ {r : List R} {g : F}, Reaches child root depth r g →
      Reaches child' root depth r g := by
    intro r
    induction r using List.reverseRecOn with
    | nil => exact fun hr => hr
    | append_singleton r j ih =>
        intro g hr
        obtain ⟨u, hlen', hu, huj⟩ := reaches_snoc.mp hr
        have hpos : ¬ (u = p ∧ j = i) := by
          rintro ⟨rfl, rfl⟩
          rw [hempty] at huj
          exact absurd huj (by simp)
        refine reaches_snoc.mpr ⟨u, hlen', (ih ⟨hlen'.le, hu⟩).2, ?_⟩
        rw [hother u ⟨r, hlen', hu⟩ j hpos, huj]
  constructor
  · intro hr
    induction r using List.reverseRecOn generalizing g with
    | nil => exact Or.inl hr
    | append_singleton r j ih =>
        obtain ⟨u, hlen', hu, huj⟩ := reaches_snoc.mp hr
        rcases ih ⟨hlen'.le, hu⟩ with hur | ⟨rfl, rfl⟩
        · by_cases hpos : u = p ∧ j = i
          · obtain ⟨rfl, rfl⟩ := hpos
            obtain rfl : r = rp := htree _ _ _ hur ⟨hlen.le, hp⟩
            rw [hset] at huj
            exact Or.inr ⟨rfl, (Option.some.inj huj).symm⟩
          · rw [hother u ⟨r, hlen', hur.2⟩ j hpos] at huj
            exact Or.inl (reaches_snoc.mpr ⟨u, hlen', hur.2, huj⟩)
        · rcases hbare with hfull | hnone
          · omega
          · rw [hnone j] at huj
            exact absurd huj (by simp)
  · rintro (hr | ⟨rfl, rfl⟩)
    · exact hold hr
    · exact reaches_snoc.mpr ⟨p, hlen, (hold ⟨hlen.le, hp⟩).2, hset⟩

/-! ## Trees without leaves -/

/-- If no route is of full length and every node but the root and `w` has a child, every route is
the beginning of the route to `w`. -/
theorem isPrefix_of_no_leaf (htree : IsTree child root depth) {rw : List R} {w : F}
    (hw : Reaches child root depth rw w)
    (hchild : ∀ g, Inner child root depth g → g ≠ root → g ≠ w → ∃ i c, child g i = some c)
    (hnone : ∀ r g, follow child root r = some g → r.length ≠ depth) {r : List R} {g : F}
    (hr : Reaches child root depth r g) : r <+: rw := by
  -- the number of levels below the end of the route falls
  induction hn : depth - r.length generalizing r g with
  | zero =>
      have hle := hr.1
      exact absurd (by omega) (hnone r g hr.2)
  | succ n ih =>
      by_cases hroot : g = root
      · subst hroot
        rw [htree.eq_nil hr]
        exact List.nil_prefix
      · by_cases hgw : g = w
        · subst hgw
          rw [htree _ _ _ hr hw]
        · obtain ⟨i, c, hc⟩ := hchild g ⟨r, by omega, hr.2⟩ hroot hgw
          have hpre : r ++ [i] <+: rw := by
            refine ih (reaches_snoc.mpr ⟨g, by omega, hr.2, hc⟩) ?_
            rw [List.length_append, List.length_singleton]
            omega
          exact (List.prefix_append r [i]).trans hpre

/-- There are at most as many nodes on a route as it has beginnings. -/
theorem card_le_of_isPrefix {rw : List R} (s : Finset F)
    (hs : ∀ f ∈ s, ∃ r, Reaches child root depth r f ∧ r <+: rw) : s.card ≤ rw.length + 1 := by
  classical
  choose! route hroute hpre using hs
  have hmaps : ∀ f ∈ s, (route f).length ∈ Finset.range (rw.length + 1) := fun f hf =>
    Finset.mem_range.mpr (Nat.lt_succ_of_le (hpre f hf).length_le)
  have hinj : Set.InjOn (fun f => (route f).length) s := by
    intro f hf g hg hlen
    have heq : route f = route g := by
      rw [List.prefix_iff_eq_take.mp (hpre f hf), List.prefix_iff_eq_take.mp (hpre g hg)]
      exact congrArg (fun n => rw.take n) hlen
    have hf' := hroute f hf
    rw [heq] at hf'
    exact hf'.unique (hroute g hg)
  have hcard := Finset.card_le_card_of_injOn _ hmaps hinj
  rwa [Finset.card_range] at hcard

end Reached

/-! ## The beginnings of routes -/

section Beginnings

variable {child : F → R → Option F} {root : F} {depth : ℕ}

/-- As many nodes as routes that lead to them. -/
theorem card_le_card_routes {nodes : Finset F} {s : Finset (List R)}
    (h : ∀ f ∈ nodes, ∃ r ∈ s, Reaches child root depth r f) : nodes.card ≤ s.card := by
  choose! route hroute hreach using h
  refine Finset.card_le_card_of_injOn route hroute ?_
  intro f hf g hg heq
  have hf' := hreach f hf
  rw [heq] at hf'
  exact hf'.unique (hreach g hg)

/-- In a tree, as many routes as nodes that they lead to. -/
theorem IsTree.card_le_card_nodes (htree : IsTree child root depth) {nodes : Finset F}
    {s : Finset (List R)} (h : ∀ r ∈ s, ∃ f ∈ nodes, Reaches child root depth r f) :
    s.card ≤ nodes.card := by
  have : Nonempty F := ⟨root⟩
  choose! node hnode hreach using h
  refine Finset.card_le_card_of_injOn node hnode ?_
  intro r hr r' hr' heq
  have hf := hreach r hr
  rw [heq] at hf
  exact htree r r' _ hf (hreach r' hr')

variable [DecidableEq R] {routes routes' : List (List R)} {q r : List R}

/-- The beginnings of the given routes, the empty one among them. -/
def beginnings (routes : List (List R)) : Finset (List R) :=
  insert [] (routes.flatMap List.inits).toFinset

theorem mem_beginnings : r ∈ beginnings routes ↔ r = [] ∨ ∃ q ∈ routes, r <+: q := by
  simp [beginnings, List.mem_inits]

/-- Only which routes are given matters. -/
theorem beginnings_congr (h : ∀ q, q ∈ routes ↔ q ∈ routes') :
    beginnings routes = beginnings routes' := by
  ext r
  simp only [mem_beginnings, h]

/-- The empty route adds nothing. -/
theorem beginnings_nil_cons : beginnings ([] :: routes) = beginnings routes := by
  ext r
  simp [mem_beginnings]

/-- A beginning of full length is one of the routes. -/
theorem mem_of_mem_beginnings (hlen : ∀ q ∈ routes, q.length = depth) (hr : r.length = depth)
    (hpos : 0 < depth) (h : r ∈ beginnings routes) : r ∈ routes := by
  rcases mem_beginnings.mp h with rfl | ⟨q, hq, hrq⟩
  · rw [List.length_nil] at hr
    omega
  · rwa [hrq.eq_of_length (hr.trans (hlen q hq).symm)]

/-- One row further, one beginning more. -/
theorem beginnings_take_succ {i : ℕ} :
    beginnings (q.take (i + 1) :: routes) =
      insert (q.take (i + 1)) (beginnings (q.take i :: routes)) := by
  ext r
  have hstep : r <+: q.take (i + 1) ↔ r <+: q.take i ∨ r = q.take (i + 1) := by
    rw [List.take_add_one]
    rcases q[i]? with _ | d
    · rw [Option.toList_none, List.append_nil]
      exact ⟨Or.inl, fun h => h.elim id fun h => h ▸ List.prefix_rfl⟩
    · rw [Option.toList_some, List.prefix_concat_iff, or_comm]
  simp only [mem_beginnings, Finset.mem_insert, List.exists_mem_cons_iff, hstep]
  tauto

/-- The tree is made of the given routes. -/
def MadeOf (child : F → R → Option F) (root : F) (depth : ℕ) (routes : List (List R)) : Prop :=
  ∀ r, (∃ f, Reaches child root depth r f) ↔ r ∈ beginnings routes

theorem MadeOf.congr (h : MadeOf child root depth routes) (hroutes : ∀ q, q ∈ routes ↔ q ∈ routes') :
    MadeOf child root depth routes' := by
  intro r
  rw [h r, beginnings_congr hroutes]

/-- In a tree made of routes of full length and one more, every inner node has a child, except
perhaps the root and the end of that route. -/
theorem MadeOf.exists_child (h : MadeOf child root depth (q :: routes))
    (hlen : ∀ r ∈ routes, r.length = depth) {w g : F} (hw : follow child root q = some w)
    (hg : Inner child root depth g) (hroot : g ≠ root) (hgw : g ≠ w) :
    ∃ i c, child g i = some c := by
  obtain ⟨r, hr, hrg⟩ := hg
  have hlonger : ∃ q' ∈ q :: routes, r <+: q' ∧ r ≠ q' := by
    rcases mem_beginnings.mp ((h r).mp ⟨g, hr.le, hrg⟩) with rfl | ⟨q', hq', hrq'⟩
    · exact absurd (Option.some.inj hrg).symm hroot
    refine ⟨q', hq', hrq', ?_⟩
    rintro rfl
    rcases List.mem_cons.mp hq' with rfl | hmem
    · exact hgw (Option.some.inj (hrg.symm.trans hw))
    · exact hr.ne (hlen _ hmem)
  obtain ⟨q', hq', ⟨t, rfl⟩, hne⟩ := hlonger
  obtain ⟨i, t, rfl⟩ := List.exists_cons_of_ne_nil (l := t) fun ht => hne (by simp [ht])
  have hnext : r ++ [i] ∈ beginnings (q :: routes) :=
    mem_beginnings.mpr (.inr ⟨_, hq', t, by simp⟩)
  obtain ⟨c, hc⟩ := (h _).mpr hnext
  obtain ⟨u, -, hu, hui⟩ := reaches_snoc.mp hc
  obtain rfl : u = g := Option.some.inj (hu.symm.trans hrg)
  exact ⟨i, c, hui⟩

end Beginnings

/-! ## Leaves in search order -/

/-- A leaf of the search: its route, the node that refers to it and the row there. -/
structure Leaf (F R : Type*) where
  /-- The route from the root. -/
  route : List R
  /-- The node that refers to the leaf. -/
  parent : F
  /-- The row of `parent` that refers to the leaf. -/
  row : R
  /-- The leaf. -/
  node : F
  deriving DecidableEq

/-- The leaves `levels` levels below `f`, to which `route` leads and which the row `row` of
`parent` refers to, in the order in which a depth-first search over `rows` meets them. -/
def leaves (child : F → R → Option F) (rows : F → List R) :
    ℕ → List R → F → R → F → List (Leaf F R)
  | 0, route, parent, row, f => [⟨route, parent, row, f⟩]
  | levels + 1, route, _, _, f =>
      (rows f).flatMap fun i =>
        (child f i).elim [] fun g => leaves child rows levels (route ++ [i]) f i g

/-- The route of a leaf goes through where the search began. -/
theorem isPrefix_of_mem_leaves {child : F → R → Option F} {rows : F → List R} {x : Leaf F R} :
    ∀ {levels : ℕ} {route : List R} {parent : F} {row : R} {f : F},
      x ∈ leaves child rows levels route parent row f → route <+: x.route
  | 0, route, parent, row, f, hx => by
      rw [List.mem_singleton.mp hx]
  | levels + 1, route, parent, row, f, hx => by
      obtain ⟨i, -, hx⟩ := List.mem_flatMap.mp hx
      rcases hg : child f i with _ | g
      · simp [hg] at hx
      · rw [hg, Option.elim_some] at hx
        exact (List.prefix_append route [i]).trans (isPrefix_of_mem_leaves hx)

/-- A search through the rows in ascending order meets the leaves in ascending order of their
routes. -/
theorem pairwise_leaves [LT R] {child : F → R → Option F} {rows : F → List R}
    (hrows : ∀ f, (rows f).Pairwise (· < ·)) :
    ∀ {levels : ℕ} {route : List R} {parent : F} {row : R} {f : F},
      (leaves child rows levels route parent row f).Pairwise fun x y => x.route < y.route
  | 0, _, _, _, _ => List.pairwise_singleton _ _
  | levels + 1, route, parent, row, f => by
      refine List.pairwise_flatMap.mpr ⟨?_, (hrows f).imp ?_⟩
      · intro i _
        rcases child f i with _ | g
        · exact .nil
        · exact pairwise_leaves hrows
      · -- leaves below different rows differ first at that row
        intro i j hij x hx y hy
        rcases hg : child f i with _ | g
        · simp [hg] at hx
        rcases hg' : child f j with _ | g'
        · simp [hg'] at hy
        rw [hg, Option.elim_some] at hx
        rw [hg', Option.elim_some] at hy
        obtain ⟨q, hq⟩ := isPrefix_of_mem_leaves hx
        obtain ⟨q', hq'⟩ := isPrefix_of_mem_leaves hy
        rw [← hq, ← hq', List.append_assoc, List.append_assoc]
        exact List.append_left_lt (.rel hij)

/-- The leaves of a search are the ends of the routes of full length. -/
theorem mem_leaves_iff {child : F → R → Option F} {rows : F → List R}
    (hrows : ∀ f i g, child f i = some g → i ∈ rows f) {x : Leaf F R} :
    ∀ {levels : ℕ} {route : List R} {parent : F} {row : R} {f : F},
      x ∈ leaves child rows (levels + 1) route parent row f ↔
        ∃ q, q.length = levels ∧ x.route = route ++ q ++ [x.row] ∧
          follow child f q = some x.parent ∧ child x.parent x.row = some x.node
  | 0, route, parent, row, f => by
      simp only [leaves, List.mem_flatMap]
      constructor
      · rintro ⟨i, hi, hx⟩
        rcases hg : child f i with _ | g
        · simp [hg] at hx
        · obtain rfl : x = ⟨route ++ [i], f, i, g⟩ := by simpa [hg] using hx
          exact ⟨[], rfl, by simp, rfl, hg⟩
      · rintro ⟨q, hq, hroute, hparent, hnode⟩
        obtain rfl : q = [] := List.length_eq_zero_iff.mp hq
        obtain rfl : f = x.parent := Option.some.inj hparent
        refine ⟨x.row, hrows _ _ _ hnode, ?_⟩
        rw [List.append_nil] at hroute
        simp [hnode, ← hroute]
  | levels + 1, route, parent, row, f => by
      rw [leaves, List.mem_flatMap]
      constructor
      · rintro ⟨i, hi, hx⟩
        rcases hg : child f i with _ | g
        · simp [hg] at hx
        · rw [hg, Option.elim_some] at hx
          obtain ⟨q, hq, hroute, hparent, hnode⟩ := (mem_leaves_iff hrows).mp hx
          refine ⟨i :: q, by simp [hq], by simp [hroute], follow_cons.mpr ⟨g, hg, hparent⟩, hnode⟩
      · rintro ⟨q, hq, hroute, hparent, hnode⟩
        obtain ⟨i, q, rfl⟩ : ∃ i q', q = i :: q' := List.exists_cons_of_length_eq_add_one hq
        obtain ⟨g, hg, hgq⟩ := follow_cons.mp hparent
        refine ⟨i, hrows _ _ _ hg, ?_⟩
        rw [hg, Option.elim_some]
        refine (mem_leaves_iff hrows).mpr ⟨q, by simpa using hq, ?_, hgq, hnode⟩
        simp [hroute]

/-! ## The best element -/

section Best

variable {X : Type*} (value : X → ℕ)

/-- Replaces the best element so far, if any, by a strictly better one. -/
def better (b : ℕ × Option X) (x : X) : ℕ × Option X :=
  if value x > b.1 then (value x, some x) else b

/-- The best element of a list is better than all before it and as good as all after it. -/
theorem foldl_better (l : List X) (b : ℕ × Option X) :
    (l.foldl (better value) b = b ∧ ∀ x ∈ l, value x ≤ b.1) ∨
      ∃ l₁ x l₂, l = l₁ ++ x :: l₂ ∧ l.foldl (better value) b = (value x, some x) ∧
        b.1 < value x ∧ (∀ y ∈ l₁, value y < value x) ∧ ∀ y ∈ l₂, value y ≤ value x := by
  induction l using List.reverseRecOn with
  | nil => exact Or.inl ⟨rfl, by simp⟩
  | append_singleton l z ih =>
      rw [List.foldl_append, List.foldl_cons, List.foldl_nil]
      rcases ih with ⟨hl, hle⟩ | ⟨l₁, x, l₂, rfl, hl, hb, hlt, hle⟩
      · rw [hl, better]
        split_ifs with hz
        · exact Or.inr ⟨l, z, [], rfl, rfl, hz, fun y hy => lt_of_le_of_lt (hle y hy) hz, by simp⟩
        · exact Or.inl ⟨rfl, List.forall_mem_append.mpr
            ⟨hle, List.forall_mem_singleton.mpr (Nat.le_of_not_lt hz)⟩⟩
      · rw [hl, better]
        split_ifs with hz
        · refine Or.inr ⟨_, z, [], rfl, rfl, hb.trans hz, List.forall_mem_append.mpr ⟨?_, ?_⟩,
            by simp⟩
          · exact fun y hy => (hlt y hy).trans hz
          · exact List.forall_mem_cons.mpr ⟨hz, fun y hy => lt_of_le_of_lt (hle y hy) hz⟩
        · exact Or.inr ⟨l₁, x, l₂ ++ [z], by simp, rfl, hb, hlt, List.forall_mem_append.mpr
            ⟨hle, List.forall_mem_singleton.mpr (Nat.le_of_not_lt hz)⟩⟩

end Best

end CoreOS.Lib
