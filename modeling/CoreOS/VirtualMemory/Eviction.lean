import CoreOS.VirtualMemory.Table

/-!
# The search for the page to evict

What `dfs_max_frame` does, for every tree.

* `mappedPages`: the pages that have a frame, in the order of the search.
* `leafValue`: how far a page is from the page that is brought in; `savingOf`: what the search
  remembers of it.
* `dfsMaxFrame_below`: the search below a frame keeps the best of the pages below it.
* `dfsMaxFrame_root`: the search from the root evicts the best page and empties its entry.
-/

namespace CoreOS.VirtualMemory

open CoreOS.Lib

variable {cfg : Config} (pm : PhysicalMemory cfg)

/-- The pages `levels` levels below `f`, in the order of the search. -/
def pagesBelow (m : pm.Memory) (levels : ℕ) (route : List ℕ) (parent row f : ℕ) :
    List (Leaf ℕ ℕ) :=
  leaves (child pm m) (fun f => List.range (cfg.children f)) levels route parent row f

/-- The pages below a frame are those below the frames that its rows refer to. -/
theorem pagesBelow_succ (m : pm.Memory) (levels : ℕ) (route : List ℕ) (parent row f : ℕ) :
    pagesBelow pm m (levels + 1) route parent row f =
      (List.range (cfg.children f)).flatMap fun i =>
        (child pm m f i).elim [] fun c => pagesBelow pm m levels (route ++ [i]) f i c := rfl

/-- The pages that have a frame, in the order of the search. -/
def mappedPages (m : pm.Memory) : List (Leaf ℕ ℕ) := pagesBelow pm m cfg.tablesDepth [] 0 0 0

/-- The circular distance of a page to the page that is brought in. -/
def leafValue (cfg : Config) (pageSwapped : ℕ) (x : Leaf ℕ ℕ) : ℕ :=
  cfg.circularDistance (distance pageSwapped (convertTreeRouteToDecimal cfg x.route))

/-- What the search remembers of a page. -/
def savingOf (cfg : Config) (x : Leaf ℕ ℕ) : Saving where
  pageIndex := convertTreeRouteToDecimal cfg x.route
  parent := x.parent
  rowNumber := x.row
  frameIndex := x.node

/-- The variables of the search hold the best page so far, and the route they hold starts with
`route`. -/
structure Tracks (cfg : Config) (s : Search) (b : ℕ × Option (Leaf ℕ ℕ)) (route : List ℕ) :
    Prop where
  /-- `max_value` is the distance of the best page. -/
  maxValue : s.maxValue = b.1
  /-- `saving` describes the best page. -/
  saving : s.saving = b.2.map (savingOf cfg)
  /-- `page_route` has a row for every level. -/
  length : s.pageRoute.length = cfg.tablesDepth
  /-- `page_route` starts with the route to the frame that is searched. -/
  route : s.pageRoute.take route.length = route

variable {pm} {m : pm.Memory} {pageSwapped : ℕ}

/-- A frame on the last level is compared with the best page so far. -/
theorem Tracks.findingMaxValue {s : Search} {b : ℕ × Option (Leaf ℕ ℕ)} {route : List ℕ}
    (h : Tracks cfg s b route) (hlen : route.length = cfg.tablesDepth) (f row parent : ℕ) :
    Tracks cfg (findingMaxValue cfg pageSwapped f row parent s)
      (better (leafValue cfg pageSwapped) b ⟨route, parent, row, f⟩) route := by
  have hroute : s.pageRoute = route := by
    rw [← h.route, hlen, ← h.length, List.take_length]
  unfold CoreOS.VirtualMemory.findingMaxValue better leafValue
  dsimp only
  rw [hroute, h.maxValue]
  split_ifs with hgt
  · exact ⟨rfl, by simp [savingOf], hlen, List.take_length⟩
  · exact h

/-- Writing the next row of the route. -/
theorem Tracks.set {s : Search} {b : ℕ × Option (Leaf ℕ ℕ)} {route : List ℕ}
    (h : Tracks cfg s b route) (hlen : route.length < cfg.tablesDepth) (i : ℕ) :
    Tracks cfg { s with pageRoute := s.pageRoute.set route.length i } b (route ++ [i]) where
  maxValue := h.maxValue
  saving := h.saving
  length := by rw [List.length_set, h.length]
  route := by
    have hlt : route.length < s.pageRoute.length := by rw [h.length]; exact hlen
    rw [List.length_append, List.length_singleton, List.take_add_one, List.take_set_of_le le_rfl,
      h.route, List.getElem?_set_self hlt]
    rfl

/-- Going back up a row. -/
theorem Tracks.up {s : Search} {b : ℕ × Option (Leaf ℕ ℕ)} {route : List ℕ} {i : ℕ}
    (h : Tracks cfg s b (route ++ [i])) : Tracks cfg s b route where
  maxValue := h.maxValue
  saving := h.saving
  length := h.length
  route := by
    have h' := congrArg (List.take route.length) h.route
    rwa [List.take_take, List.take_left', List.length_append, List.length_singleton,
      Nat.min_eq_left (Nat.le_succ _)] at h'
    rfl

/-- The body of the loop of `dfs_max_frame`. -/
def dfsRow (pm : PhysicalMemory cfg) (pageSwapped levels f : ℕ) (s : Search × pm.Memory) (i : ℕ) :
    Option (Search × pm.Memory) :=
  let thisFrameIndex := pm.pmRead s.2 (f * cfg.pageSize + i)
  if thisFrameIndex ≠ 0 then
    dfsMaxFrame pm pageSwapped levels thisFrameIndex.toIndex i f
      ({ s.1 with pageRoute := s.1.pageRoute.set (cfg.tablesDepth - (levels + 1)) i }, s.2)
  else some s

/-- `dfs_max_frame` above the last level, by the body of its loop. -/
theorem dfsMaxFrame_succ (levels f row parent : ℕ) (s : Search × pm.Memory) :
    dfsMaxFrame pm pageSwapped (levels + 1) f row parent s =
      ((List.range (cfg.children f)).foldlM (dfsRow pm pageSwapped levels f) s).bind fun s =>
        if f = 0 then
          s.1.saving.bind fun saving =>
            some (s.1, pm.pmWrite (pm.pmEvict s.2 saving.frameIndex saving.pageIndex)
              (saving.parent * cfg.pageSize + saving.rowNumber) 0)
        else some s := rfl

/-- The rows `l` of `f`, when the search below the frames they refer to keeps the best page. -/
theorem dfs_rows {levels f : ℕ} {route : List ℕ}
    (hlen : route.length + (levels + 1) = cfg.tablesDepth)
    (hrec : ∀ i c s b, child pm m f i = some c → Tracks cfg s b (route ++ [i]) →
      ∃ s', dfsMaxFrame pm pageSwapped levels c i f (s, m) = some (s', m) ∧
        Tracks cfg s' ((pagesBelow pm m levels (route ++ [i]) f i c).foldl
          (better (leafValue cfg pageSwapped)) b) (route ++ [i])) :
    ∀ (l : List ℕ) (s : Search) (b : ℕ × Option (Leaf ℕ ℕ)),
      (∀ i ∈ l, i < cfg.pageSize) → Tracks cfg s b route →
      ∃ s', l.foldlM (dfsRow pm pageSwapped levels f) (s, m) = some (s', m) ∧
        Tracks cfg s' ((l.flatMap fun i =>
          (child pm m f i).elim [] fun c => pagesBelow pm m levels (route ++ [i]) f i c).foldl
            (better (leafValue cfg pageSwapped)) b) route := by
  intro l
  induction l with
  | nil => exact fun s b _ h => ⟨s, rfl, h⟩
  | cons i l ih =>
      intro s b hl h
      have hi : i < cfg.pageSize := hl i (by simp)
      have hl' : ∀ j ∈ l, j < cfg.pageSize := fun j hj => hl j (by simp [hj])
      rw [List.foldlM_cons, List.flatMap_cons, List.foldl_append]
      have hword : pm.pmRead m (f * cfg.pageSize + i) = pm.entry m f i := rfl
      have htree : cfg.tablesDepth - (levels + 1) = route.length := by omega
      by_cases h0 : pm.entry m f i = 0
      · have hrow : dfsRow pm pageSwapped levels f (s, m) i = some (s, m) := by
          rw [dfsRow]
          simp only [hword, h0, ne_eq, not_true_eq_false, if_false]
        rw [hrow, (child_eq_none hi).mpr h0]
        exact ih s b hl' h
      · have hchild : child pm m f i = some (pm.entry m f i).toIndex :=
          child_eq_some.mpr ⟨hi, h0, rfl⟩
        obtain ⟨s', hs', htracks⟩ := hrec i _ _ b hchild (h.set (by omega) i)
        have hrow : dfsRow pm pageSwapped levels f (s, m) i = some (s', m) := by
          rw [dfsRow]
          simp only [hword, h0, ne_eq, not_false_eq_true, if_true, htree]
          exact hs'
        rw [hrow, hchild]
        exact ih s' _ hl' htracks.up

/-- **The search below a frame.** Below `f`, which is not the root unless it is a page, the search
keeps the best of the pages it meets, and leaves the memory as it is. -/
theorem dfsMaxFrame_below (levels : ℕ) : ∀ (route : List ℕ) (f row parent : ℕ) (s : Search)
    (b : ℕ × Option (Leaf ℕ ℕ)), route.length + levels = cfg.tablesDepth → f ≠ 0 →
    Tracks cfg s b route →
      ∃ s', dfsMaxFrame pm pageSwapped levels f row parent (s, m) = some (s', m) ∧
        Tracks cfg s' ((pagesBelow pm m levels route parent row f).foldl
          (better (leafValue cfg pageSwapped)) b) route := by
  induction levels with
  | zero =>
      intro route f row parent s b hlen _ h
      exact ⟨_, rfl, h.findingMaxValue hlen f row parent⟩
  | succ levels ih =>
      intro route f row parent s b hlen h0 h
      have hrec : ∀ i c s b, child pm m f i = some c → Tracks cfg s b (route ++ [i]) →
          ∃ s', dfsMaxFrame pm pageSwapped levels c i f (s, m) = some (s', m) ∧
            Tracks cfg s' ((pagesBelow pm m levels (route ++ [i]) f i c).foldl
              (better (leafValue cfg pageSwapped)) b) (route ++ [i]) := by
        intro i c s b hc ht
        refine ih (route ++ [i]) c i f s b ?_ (child_ne_zero hc) ht
        rw [List.length_append, List.length_singleton]
        omega
      obtain ⟨s', hs', ht⟩ := dfs_rows hlen hrec (List.range (cfg.children f)) s b
        (fun i hi => lt_of_lt_of_le (List.mem_range.mp hi) (cfg.children_le f)) h
      refine ⟨s', ?_, by rw [pagesBelow_succ]; exact ht⟩
      rw [dfsMaxFrame_succ, hs', Option.bind_some, if_neg h0]

/-- The best of the pages that have a frame, the first one on a tie. -/
def bestPage (pm : PhysicalMemory cfg) (pageSwapped : ℕ) (m : pm.Memory) : Option (Leaf ℕ ℕ) :=
  ((mappedPages pm m).foldl (better (leafValue cfg pageSwapped)) (0, none)).2

/-- The rows of the root, of which the search keeps the best page. -/
theorem dfs_root (pm : PhysicalMemory cfg) (pageSwapped : ℕ) (m : pm.Memory) :
    ∃ s, (List.range (cfg.children 0)).foldlM (dfsRow pm pageSwapped cfg.maxTreeLevel 0)
        (⟨0, none, List.replicate cfg.tablesDepth 0⟩, m) = some (s, m) ∧
      s.saving = (bestPage pm pageSwapped m).map (savingOf cfg) := by
  have hdepth := cfg.tablesDepth_eq
  have hstart : Tracks cfg ⟨0, none, List.replicate cfg.tablesDepth 0⟩ (0, none) [] :=
    ⟨rfl, rfl, List.length_replicate, rfl⟩
  have hlen : ([] : List ℕ).length + (cfg.maxTreeLevel + 1) = cfg.tablesDepth := by
    rw [hdepth, List.length_nil, Nat.zero_add]
  obtain ⟨s, hs, ht⟩ := dfs_rows (m := m) hlen (fun i c s b hc ht =>
    dfsMaxFrame_below cfg.maxTreeLevel ([] ++ [i]) c i 0 s b (by simp [hdepth, Nat.add_comm])
      (child_ne_zero hc) ht) (List.range (cfg.children 0)) _ _
    (fun i hi => lt_of_lt_of_le (List.mem_range.mp hi) (cfg.children_le 0)) hstart
  rw [← pagesBelow_succ pm m cfg.maxTreeLevel [] 0 0 0, ← hdepth] at ht
  exact ⟨s, hs, ht.saving⟩

/-- **The search from the root** evicts the best page and empties the entry that refers to it. -/
theorem dfsMaxFrame_root {x : Leaf ℕ ℕ} (hx : bestPage pm pageSwapped m = some x) :
    ∃ s, dfsMaxFrame pm pageSwapped cfg.tablesDepth 0 0 0
        (⟨0, none, List.replicate cfg.tablesDepth 0⟩, m) =
          some (s, pm.pmWrite (pm.pmEvict m x.node (convertTreeRouteToDecimal cfg x.route))
            (x.parent * cfg.pageSize + x.row) 0) ∧
      s.saving = some (savingOf cfg x) := by
  obtain ⟨s, hs, hbest⟩ := dfs_root pm pageSwapped m
  rw [hx, Option.map_some] at hbest
  refine ⟨s, ?_, hbest⟩
  generalize hstate : (Search.mk 0 none (List.replicate cfg.tablesDepth 0), m) = start at hs ⊢
  rw [cfg.tablesDepth_eq, dfsMaxFrame_succ, hs, Option.bind_some, if_pos rfl]
  simp only [hbest, Option.bind_some, savingOf]

/-! ## The pages of the search -/

/-- The pages of the search are the pages of the tree, with the entries that refer to them. -/
theorem mem_mappedPages (hs : Shape pm m) {x : Leaf ℕ ℕ} (hx : x ∈ mappedPages pm m) :
    ∃ q, q.length = cfg.maxTreeLevel ∧ x.route = q ++ [x.row] ∧
      follow (child pm m) 0 q = some x.parent ∧ child pm m x.parent x.row = some x.node := by
  unfold mappedPages pagesBelow at hx
  rw [cfg.tablesDepth_eq] at hx
  obtain ⟨q, hq, hroute, hparent, hnode⟩ :=
    (mem_leaves_iff fun f i g h => List.mem_range.mpr (hs.row_lt h)).mp hx
  exact ⟨q, hq, by rwa [List.nil_append] at hroute, hparent, hnode⟩

/-- The search meets every page of the tree. -/
theorem exists_mem_mappedPages (hs : Shape pm m) {r : List ℕ} {f : ℕ} (h : IsPage pm m r f) :
    ∃ x ∈ mappedPages pm m, x.route = r ∧ x.node = f := by
  obtain ⟨hlen, hr⟩ := h
  rw [cfg.tablesDepth_eq] at hlen
  obtain ⟨q, row, rfl⟩ : ∃ q i, r = q ++ [i] := by
    rcases List.eq_nil_or_concat r with rfl | ⟨q, i, rfl⟩
    · simp at hlen
    · exact ⟨q, i, by simp⟩
  obtain ⟨parent, hparent, hnode⟩ := follow_snoc.mp hr
  refine ⟨⟨q ++ [row], parent, row, f⟩, ?_, rfl, rfl⟩
  unfold mappedPages pagesBelow
  rw [cfg.tablesDepth_eq]
  refine (mem_leaves_iff fun f i g h => List.mem_range.mpr (hs.row_lt h)).mpr
    ⟨q, ?_, ?_, hparent, hnode⟩
  · simpa using hlen
  · simp

/-- The circular distance of different pages is not `0`. -/
theorem circularDistance_pos {p q : ℕ} (hp : p < cfg.numPages) (hq : q < cfg.numPages)
    (hne : p ≠ q) : 0 < cfg.circularDistance (distance p q) := by
  unfold Config.circularDistance distance
  split_ifs <;> omega

/-- A page that is brought in while another one has a frame finds a page to evict. -/
theorem exists_bestPage (hs : Shape pm m) {r : List ℕ} {f : ℕ} (h : IsPage pm m r f)
    (hp : pageSwapped < cfg.numPages) (hne : pageRoute cfg pageSwapped ≠ r) :
    ∃ x ∈ mappedPages pm m, bestPage pm pageSwapped m = some x := by
  obtain ⟨y, hy, rfl, -⟩ := exists_mem_mappedPages hs h
  have hdigits := lt_of_mem_route h.2
  have hpos : 0 < leafValue cfg pageSwapped y := by
    rw [leafValue, convertTreeRouteToDecimal_eq hdigits]
    apply circularDistance_pos hp (hs.ofDigits_lt_numPages h)
    rintro rfl
    exact hne (pageRoute_ofDigits h.1 hdigits)
  rcases foldl_better (leafValue cfg pageSwapped) (mappedPages pm m) (0, none) with
    ⟨-, hle⟩ | ⟨l₁, x, l₂, hl, hb, -, -, -⟩
  · exact absurd hpos (Nat.not_lt.mpr (hle y hy))
  · exact ⟨x, by rw [hl]; simp, by rw [bestPage, hb]⟩

end CoreOS.VirtualMemory
