import CoreOS.VirtualMemory.Refinement

/-!
# The choice of a frame

What `get_frame` returns, and what it leaves of the tree, at every turn of every walk.

* `ReachesTurn pm p m i w`: the loop of `get_physical_address p`, called on the memory `m`, comes to
  its turn `i` with the variables `w`.
* `Reclaims`, `Evicts`: unlinking an empty table, and evicting a page.
* `Allocated`: the frame is out of the tree, and the route of the walk and the other pages are as
  they were.
* `frame_selection`: which of them happens when.
-/

namespace CoreOS.VirtualMemory

open CoreOS.Lib

variable {cfg : Config} (pm : PhysicalMemory cfg)

/-- The loop of `get_physical_address p`, called on the memory `m`, comes to its turn `i` with the
variables `w`. -/
def ReachesTurn (p : ℕ) (m : pm.Memory) (i : ℕ) (w : Walk pm) : Prop :=
  ∃ getPageDepth,
    getBitesArray cfg cfg.tablesDepth p (List.replicate cfg.tablesDepth 0) = some getPageDepth ∧
    (List.range i).foldlM (walkLevel pm p getPageDepth) ⟨0, 0, false, m⟩ = some w

/-- Some entry of a table refers to the frame, and `m'` is `m₁` with that entry zeroed. -/
def Unlinked (m m₁ : pm.Memory) (f : ℕ) (m' : pm.Memory) : Prop :=
  ∃ parent row, IsTable pm m parent ∧ child pm m parent row = some f ∧
    m' = pm.pmWrite m₁ (parent * cfg.pageSize + row) 0

/-- From `m` to `m'` the empty table `f`, which is neither the root nor `w`, has been unlinked, and
nothing else happened. -/
def Reclaims (w : ℕ) (m : pm.Memory) (f : ℕ) (m' : pm.Memory) : Prop :=
  IsTable pm m f ∧ Vacant pm w m f ∧ Unlinked pm m m f m'

/-- From `m` to `m'` the page `q` has been evicted from its frame `f`, and nothing else happened. -/
def Evicts (m : pm.Memory) (q f : ℕ) (m' : pm.Memory) : Prop :=
  q < cfg.numPages ∧ IsPage pm m (pageRoute cfg q) f ∧ Unlinked pm m (pm.pmEvict m f q) f m'

/-- From `m` to `m'` the frame `f` has become free for a walk that has come to the end of `route`;
`evicted` is the page that lost its frame, if one did. -/
structure Allocated (m m' : pm.Memory) (route : List ℕ) (f : ℕ) (evicted : Option ℕ) : Prop where
  /-- It is not the root. -/
  pos : 0 < f
  /-- It exists. -/
  lt : f < cfg.numFrames
  /-- It cannot be reached from the root. -/
  unreachable : ∀ r, ¬ Reached pm m' r f
  /-- The tables on the route are still reached by the same rows. -/
  ancestors : ∀ r g, r <+: route → follow (child pm m) 0 r = some g →
    follow (child pm m') 0 r = some g
  /-- Every other page that has a frame keeps it, with its words. -/
  pages : ∀ q < cfg.numPages, evicted ≠ some q → ∀ g, IsPage pm m (pageRoute cfg q) g →
    IsPage pm m' (pageRoute cfg q) g ∧ pm.frame m' g = pm.frame m g

variable {pm} {m m' : pm.Memory} {p q i f g : ℕ} {w : Walk pm}

/-- A walk that comes to a turn satisfies the loop invariant there. -/
theorem ReachesTurn.walking (hpm : pm.Lawful) (hdepth : cfg.tablesDepth < cfg.numFrames)
    (hs : Shape pm m) (hp : p < cfg.numPages) (hi : i ≤ cfg.tablesDepth)
    (h : ReachesTurn pm p m i w) : Walking p m i w := by
  obtain ⟨depth, hdigits, hw⟩ := h
  rw [getBitesArray_eq hp] at hdigits
  cases hdigits
  obtain ⟨w', hw', hwalk⟩ := walk_run hpm hdepth hs hp i hi
  rw [hw] at hw'
  cases hw'
  exact hwalk

/-! ## A frame that was put aside is free -/

/-- Another page keeps its frame and its words when a frame is put aside. -/
theorem Reserved.page (h : Reserved pm m m' f) (hq : q < cfg.numPages)
    (hg : IsPage pm m (pageRoute cfg q) g) (hne : g ≠ f) :
    IsPage pm m' (pageRoute cfg q) g ∧ pm.frame m' g = pm.frame m g := by
  have hpage : IsPage pm m' (pageRoute cfg q) g :=
    ⟨hg.1, ((h.reached _ g).mpr ⟨hg.reached, hne⟩).2⟩
  refine ⟨hpage, ?_⟩
  have hview := h.view q hq
  rw [pageView, pageView, hpage.2, hg.2] at hview
  exact Option.some.inj hview

/-- A frame that was put aside, with the end of the route still in the tree, is free. -/
theorem Reserved.allocated (h : Reserved pm m m' f) {route : List ℕ} {c : ℕ}
    (hc : Reached pm m' route c) {evicted : Option ℕ}
    (hpage : ∀ q < cfg.numPages, evicted ≠ some q → ¬ IsPage pm m (pageRoute cfg q) f) :
    Allocated pm m m' route f evicted where
  pos := Nat.pos_of_ne_zero h.ne_zero
  lt := h.lt
  unreachable r hr := ((h.reached r f).mp hr).2 rfl
  ancestors r g hr hg := by
    obtain ⟨t, rfl⟩ := hr
    obtain ⟨hlen, hfollow⟩ := hc
    obtain ⟨u, hu, -⟩ := follow_append.mp hfollow
    rw [List.length_append] at hlen
    have hru : Reached pm m' r u := ⟨by omega, hu⟩
    have hug : u = g := Option.some.inj (((h.reached r u).mp hru).1.2.symm.trans hg)
    rw [hu, hug]
  pages q hq hne g hg := by
    refine h.page hq hg ?_
    rintro rfl
    exact hpage q hq hne hg

/-! ## The three cases -/

/-- A page that the search for a victim meets is in the frame that it remembers. -/
theorem isPage_of_mem_mappedPages (hs : Shape pm m) {x : Leaf ℕ ℕ} (hx : x ∈ mappedPages pm m) :
    convertTreeRouteToDecimal cfg x.route < cfg.numPages ∧
      IsPage pm m (pageRoute cfg (convertTreeRouteToDecimal cfg x.route)) x.node ∧
      IsTable pm m x.parent ∧ child pm m x.parent x.row = some x.node := by
  obtain ⟨q, hq, hroute, hparent, hnode⟩ := mem_mappedPages hs hx
  have hlt : q.length < cfg.tablesDepth := by
    rw [hq, cfg.tablesDepth_eq]
    exact Nat.lt_succ_self _
  have hpage : IsPage pm m x.route x.node := by
    rw [hroute]
    refine ⟨?_, follow_snoc.mpr ⟨x.parent, hparent, hnode⟩⟩
    rw [List.length_append, List.length_singleton, hq, cfg.tablesDepth_eq]
  have hdigits := lt_of_mem_route hpage.2
  rw [convertTreeRouteToDecimal_eq hdigits]
  refine ⟨hs.ofDigits_lt_numPages hpage, ?_, ⟨q, hlt, hparent⟩, hnode⟩
  rwa [pageRoute_ofDigits hpage.1 hdigits]

section cases

variable (hs : Shape pm m) (hres : Reserved pm m m' f) {route : List ℕ} {c : ℕ}
  (hc : Reached pm m' route c)
include hs hres hc

/-- If some table is vacant, one is reclaimed. -/
theorem Selection.reclaims (h : Selection c p m f m')
    (hvacant : ∃ g, IsTable pm m g ∧ Vacant pm c m g) :
    Reclaims pm c m f m' ∧ Allocated pm m m' route f none := by
  obtain ⟨g, hg, hv⟩ := hvacant
  rcases h with ⟨hlen, hparent, hchild, hvacant⟩ | ⟨hoccupied, -, -⟩ | ⟨hoccupied, -, -, -⟩
  · next rt parent row =>
    have htable : IsTable pm m f := by
      refine ⟨rt ++ [row], ?_, follow_snoc.mpr ⟨parent, hparent, hchild⟩⟩
      rwa [List.length_append, List.length_singleton]
    refine ⟨⟨htable, hvacant, parent, row, ⟨rt, by omega, hparent⟩, hchild, rfl⟩, ?_⟩
    exact hres.allocated hc fun q _ _ hq => hs.page_not_table hq htable
  · exact absurd hv (hoccupied g hg)
  · exact absurd hv (hoccupied g hg)

/-- If no table is vacant, the first frame that is not in use is taken, or a page is evicted from
the memory that is full. -/
theorem Selection.takes (h : Selection c p m f m')
    (hoccupied : ∀ g, IsTable pm m g → ¬ Vacant pm c m g) :
    ∃ k, IsGreatest {g | ∃ r, Reached pm m r g} k ∧
      (k < cfg.numFrames - 1 → f = k + 1 ∧ m' = m ∧ Allocated pm m m' route f none) ∧
      (¬ k < cfg.numFrames - 1 → ∃ q, Evicts pm m q f m' ∧ Allocated pm m m' route f (some q)) := by
  obtain ⟨k, hk, hused⟩ := hs.used
  have hgreatest : IsGreatest {g | ∃ r, Reached pm m r g} k :=
    ⟨(hused k).mpr le_rfl, fun g hg => (hused g).mp hg⟩
  refine ⟨k, hgreatest, ?_⟩
  rcases h with ⟨hlen, hparent, hchild, hvacant⟩ | ⟨-, hfirst, hlt⟩ | ⟨-, hfull, hx, -⟩
  · next rt parent row =>
    refine absurd hvacant (hoccupied f ⟨rt ++ [row], ?_, ?_⟩)
    · rwa [List.length_append, List.length_singleton]
    · exact follow_snoc.mpr ⟨parent, hparent, hchild⟩
  · have hkf : k < f := (hfirst k).mp ((hused k).mpr le_rfl)
    have hfk : f = k + 1 := by
      by_contra hne
      have hreach := (hused (k + 1)).mp ((hfirst (k + 1)).mpr (by omega))
      omega
    refine ⟨fun _ => ⟨hfk, rfl, hres.allocated hc ?_⟩, fun hnot => absurd hnot (by omega)⟩
    intro q _ _ hq
    exact lt_irrefl f ((hfirst f).mp ⟨_, hq.reached⟩)
  · next x =>
    have hkf : ¬ k < cfg.numFrames - 1 := by
      intro hlt
      have hreach := (hused (k + 1)).mp ((hfull (k + 1)).mpr (by omega))
      omega
    refine ⟨fun hlt => absurd hlt hkf, fun _ => ?_⟩
    obtain ⟨hq, hpage, hparent, hchild⟩ := isPage_of_mem_mappedPages hs hx
    refine ⟨_, ⟨hq, hpage, x.parent, x.row, hparent, hchild, rfl⟩, hres.allocated hc ?_⟩
    rintro q hq' hne hqpage
    apply hne
    rw [pageRoute_inj hq' hq (hs.tree _ _ _ hqpage.reached hpage.reached)]

end cases

/-- **Frame selection.** At every turn of the walk to a page without a frame, after any sequence of
calls, `get_frame` returns a frame: an empty table that is neither the root nor the table just
reached, if there is one, which is unlinked; else the frame after the largest one in use, if it
exists, with the memory as it is; else the frame of a page, which is evicted. The frame can then no
longer be reached, the route of the walk still can, and every other page keeps its frame and its
words. -/
theorem frame_selection (hpm : pm.Lawful) (hdepth : cfg.tablesDepth < cfg.numFrames)
    {m₀ : pm.Memory} {calls : List Call} {s : System pm}
    (hrun : (paging pm).run calls (initialized pm m₀) = some s) (hp : p < cfg.numPages)
    (hi : i < cfg.tablesDepth) (hw : ReachesTurn pm p s.memory i w)
    (hmiss : follow (child pm w.memory) 0 (pageRoute cfg p) = none) :
    ∃ f m', getFrame pm p w.currParent w.memory = some (f, m') ∧
      ((∃ g, IsTable pm w.memory g ∧ Vacant pm w.currParent w.memory g) →
        Reclaims pm w.currParent w.memory f m' ∧
        Allocated pm w.memory m' ((pageRoute cfg p).take i) f none) ∧
      ((∀ g, IsTable pm w.memory g → ¬ Vacant pm w.currParent w.memory g) →
        ∃ k, IsGreatest {g | ∃ r, Reached pm w.memory r g} k ∧
          (k < cfg.numFrames - 1 → f = k + 1 ∧ m' = w.memory ∧
            Allocated pm w.memory m' ((pageRoute cfg p).take i) f none) ∧
          (¬ k < cfg.numFrames - 1 → ∃ q, Evicts pm w.memory q f m' ∧
            Allocated pm w.memory m' ((pageRoute cfg p).take i) f (some q))) := by
  obtain ⟨s', t, hrun', -, -, hrep⟩ := run_represents hpm hdepth m₀ calls
  rw [hrun] at hrun'
  cases hrun'
  have hwalk := hw.walking hpm hdepth hrep.shape hp hi.le
  obtain ⟨f, m', hget, hsel, hres, hreached⟩ := hwalk.selects hi hpm hdepth hp hmiss
  refine ⟨f, m', hget, ?_, ?_⟩
  · exact hsel.reclaims hwalk.shape hres hreached
  · exact hsel.takes hwalk.shape hres hreached

/-- Four frames, one page with its tables in them: the walk to another page of the same table needs
a frame at its second turn. -/
theorem frame_selection_run : ∃ s w f m',
    (paging (arrayMemory fourFrames)).run [.write 0 100]
      (initialized (arrayMemory fourFrames) (fun _ => 0, fun _ => none)) = some s ∧
    ReachesTurn (arrayMemory fourFrames) 2 s.memory 1 w ∧
    getFrame (arrayMemory fourFrames) 2 w.currParent w.memory = some (f, m') ∧
    0 < f ∧ f < 4 ∧ ∀ r, ¬ Reached (arrayMemory fourFrames) m' r f := by
  have hany : ((paging (arrayMemory fourFrames)).run [.write 0 100]
      (initialized (arrayMemory fourFrames) (fun _ => 0, fun _ => none))).any (fun s =>
        ((List.range 1).foldlM (walkLevel (arrayMemory fourFrames) 2 [0, 1, 0])
          ⟨0, 0, false, s.memory⟩).any fun w => decide
            (follow (child (arrayMemory fourFrames) w.memory) 0 [0, 1, 0] = none)) = true := by
    decide +kernel
  obtain ⟨s, hs, hw⟩ := (Option.any_eq_true _ _).mp hany
  obtain ⟨w, hw, hmiss⟩ := (Option.any_eq_true _ _).mp hw
  have hturn : ReachesTurn (arrayMemory fourFrames) 2 s.memory 1 w := ⟨[0, 1, 0], by decide, hw⟩
  obtain ⟨f, m', hget, hreclaim, htake⟩ := frame_selection (arrayMemory_lawful fourFrames)
    (by decide) hs (by decide) (by decide) hturn (of_decide_eq_true hmiss)
  have halloc : ∃ evicted, Allocated (arrayMemory fourFrames) w.memory m'
      ((pageRoute fourFrames 2).take 1) f evicted := by
    by_cases hv : ∃ g, IsTable (arrayMemory fourFrames) w.memory g ∧
        Vacant (arrayMemory fourFrames) w.currParent w.memory g
    · exact ⟨_, (hreclaim hv).2⟩
    · obtain ⟨k, -, hfresh, hevict⟩ := htake fun g hg hvg => hv ⟨g, hg, hvg⟩
      by_cases hk : k < fourFrames.numFrames - 1
      · exact ⟨_, (hfresh hk).2.2⟩
      · obtain ⟨q, -, h⟩ := hevict hk
        exact ⟨_, h⟩
  obtain ⟨evicted, h⟩ := halloc
  exact ⟨s, w, f, m', hs, hturn, hget, h.pos, h.lt, h.unreachable⟩

end CoreOS.VirtualMemory
