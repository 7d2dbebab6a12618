import CoreOS.VirtualMemory.Allocation

/-!
# The walk along a route

What `get_physical_address` does, for every tree.

* `Walking p m i w`: the loop invariant before the turn `i` of the walk to the page `p` that started
  with the memory `m`.
* `linked_spec`: hanging a frame that was put aside into the tree.
* `walkLevel_step`: one turn of the loop; `walk_run`: all of them.
* `getPhysicalAddress_spec`: the page is in the frame that is returned, with the words it had, and
  every other page has the words it had.
-/

namespace CoreOS.VirtualMemory

open CoreOS.Lib

variable {cfg : Config} {pm : PhysicalMemory cfg}

/-! ## The loop invariant -/

/-- The walk to the page `p`, started with the memory `m`, before the turn `i`. -/
structure Walking (p : ℕ) (m : pm.Memory) (i : ℕ) (w : Walk pm) : Prop where
  /-- The tree is one. -/
  shape : Shape pm w.memory
  /-- The first `i` rows lead to `curr_parent`. -/
  parent : follow (child pm w.memory) 0 ((pageRoute cfg p).take i) = some w.currParent
  /-- `curr_child` is `curr_parent`. -/
  current : w.currChild.toIndex = w.currParent
  /-- Only the last turn finds that the page has no frame, and its words are in the swap file. -/
  restored : w.restored = true → i = cfg.tablesDepth ∧ pm.swap w.memory p = pageView pm m p
  /-- The other pages have the words they had. -/
  view : ∀ q < cfg.numPages, w.restored = false ∨ q ≠ p →
    pageView pm w.memory q = pageView pm m q

variable {m m' : pm.Memory} {p i f : ℕ}

/-- The beginnings of a route. -/
theorem take_succ_pageRoute (hi : i < cfg.tablesDepth) :
    (pageRoute cfg p).take (i + 1) =
      (pageRoute cfg p).take i ++ [(pageRoute cfg p).getD i 0] := by
  have hlen : i < (pageRoute cfg p).length := by rwa [length_pageRoute]
  rw [List.take_add_one, List.getElem?_eq_getElem hlen, List.getD_eq_getElem _ _ hlen]
  rfl

/-- The row of a table that a route of a page goes through is one that the searches look at. -/
theorem getD_pageRoute_lt (hs : Shape pm m) (hp : p < cfg.numPages) (hi : i < cfg.tablesDepth)
    {w : ℕ} (hw : follow (child pm m) 0 ((pageRoute cfg p).take i) = some w) :
    (pageRoute cfg p).getD i 0 < cfg.children w := by
  have hlen : i < (pageRoute cfg p).length := by rwa [length_pageRoute]
  rw [List.getD_eq_getElem _ _ hlen]
  by_cases h0 : w = 0
  · subst h0
    -- only the empty route leads to the root
    have hnil : (pageRoute cfg p).take i = [] := by
      refine hs.tree.eq_nil ⟨?_, hw⟩
      rw [List.length_take]
      omega
    obtain ⟨d, r, hr⟩ := List.exists_cons_of_ne_nil (List.ne_nil_of_length_pos (by omega : 0 <
      (pageRoute cfg p).length))
    have hi0 : i = 0 := by
      rw [hr] at hnil
      rcases i with _ | i
      · rfl
      · simp at hnil
    subst hi0
    have hd := pageRoute_head_lt hp hr
    simpa [hr] using hd
  · rw [cfg.children_of_ne h0]
    exact pageRoute_lt _ (List.getElem_mem hlen)

/-- A page whose route goes through an empty entry has no frame. -/
theorem follow_pageRoute_eq_none {w : ℕ} (hi : i < cfg.tablesDepth)
    (hw : follow (child pm m) 0 ((pageRoute cfg p).take i) = some w)
    (hhole : child pm m w ((pageRoute cfg p).getD i 0) = none) :
    follow (child pm m) 0 (pageRoute cfg p) = none := by
  by_contra hne
  obtain ⟨g, hg⟩ := Option.ne_none_iff_exists'.mp hne
  rw [← List.take_append_drop (i + 1) (pageRoute cfg p), follow_append] at hg
  obtain ⟨c, hc, -⟩ := hg
  rw [take_succ_pageRoute hi, follow_snoc] at hc
  obtain ⟨w', hw', hchild⟩ := hc
  obtain rfl : w' = w := Option.some.inj (hw'.symm.trans hw)
  rw [hhole] at hchild
  exact absurd hchild (by simp)

/-! ## One turn -/

/-- Hanging the frame into the tree leaves every page that is not at the end of the new route with
the words it had. -/
theorem pageView_link (hs : Shape pm m) (hres : Reserved pm m m' f) {m'' : pm.Memory}
    {rt : List ℕ} {w i q : ℕ} (hw : Reached pm m' rt w) (hlen : rt.length < cfg.tablesDepth)
    (hreached : ∀ r g, Reached pm m'' r g ↔ Reached pm m' r g ∨ r = rt ++ [i] ∧ g = f)
    (hswap : pm.swap m'' = pm.swap m')
    (hframe : ∀ g < cfg.numFrames, g ≠ w → g ≠ f → pm.frame m'' g = pm.frame m' g)
    (hq : q < cfg.numPages) (hne : pageRoute cfg q ≠ rt ++ [i]) :
    pageView pm m'' q = pageView pm m q := by
  rw [← hres.view q hq]
  have hlenq : (pageRoute cfg q).length ≤ cfg.tablesDepth := (length_pageRoute q).le
  have hfollow : follow (child pm m'') 0 (pageRoute cfg q) =
      follow (child pm m') 0 (pageRoute cfg q) := by
    ext g
    have := hreached (pageRoute cfg q) g
    unfold Reached Reaches at this
    simpa [hlenq, hne] using this
  unfold pageView
  rw [hfollow, hswap]
  rcases hg : follow (child pm m') 0 (pageRoute cfg q) with _ | g
  · rfl
  · dsimp only
    obtain ⟨hgm, hgf⟩ := (hres.reached _ g).mp ⟨hlenq, hg⟩
    rw [hframe g (hs.lt_numFrames hgm) ?_ hgf]
    rintro rfl
    exact hs.page_not_table ⟨length_pageRoute q, hgm.2⟩ ⟨rt, hlen, ((hres.reached _ _).mp hw).1.2⟩

/-- The memory after a frame was put aside and hung into the tree. -/
def linked (pm : PhysicalMemory cfg) (m' : pm.Memory) (clear : Bool) (f w i : ℕ) : pm.Memory :=
  pm.pmWrite (if clear then clearTable pm f m' else m') (w * cfg.pageSize + i) (toWord f)

/-- The entries after a frame was hung into the tree. -/
theorem entry_linked (hpm : pm.Lawful) {clear : Bool} {w i g j : ℕ} (hf : f < cfg.numFrames)
    (hw : w < cfg.numFrames) (hi : i < cfg.pageSize) (hg : g < cfg.numFrames)
    (hj : j < cfg.pageSize) :
    pm.entry (linked pm m' clear f w i) g j =
      if g = w ∧ j = i then toWord f
      else if clear ∧ g = f then 0 else pm.entry m' g j := by
  unfold linked
  rw [hpm.entry_write _ hw hi hg hj]
  rcases clear
  · simp
  · simp [entry_clearTable hpm hf hg hj]

/-- Hanging a frame into the tree leaves the swap file as it is. -/
theorem swap_linked (hpm : pm.Lawful) {clear : Bool} {w i : ℕ} (hf : f < cfg.numFrames)
    (hw : w < cfg.numFrames) (hi : i < cfg.pageSize) :
    pm.swap (linked pm m' clear f w i) = pm.swap m' := by
  unfold linked
  rw [hpm.swap_write _ _ _ (PhysicalMemory.address_lt hw hi)]
  rcases clear
  · rfl
  · exact swap_clearTable hpm hf

/-- **Hanging a frame into the tree** keeps the invariant, adds the frame at the end of the new
route, and leaves every page that is not there with the words it had. -/
theorem linked_spec (hpm : pm.Lawful) (hs : Shape pm m) (hres : Reserved pm m m' f) (clear : Bool)
    {rt : List ℕ} {w i : ℕ} (hw : Reached pm m' rt w) (hlen : rt.length < cfg.tablesDepth)
    (hi : i < cfg.children w) (hhole : pm.entry m' w i = 0)
    (hclear : rt.length + 1 = cfg.tablesDepth ∨ clear = true) :
    Shape pm (linked pm m' clear f w i) ∧
      (∀ r g, Reached pm (linked pm m' clear f w i) r g ↔
        Reached pm m' r g ∨ r = rt ++ [i] ∧ g = f) ∧
      pm.swap (linked pm m' clear f w i) = pm.swap m' ∧
      ∀ q < cfg.numPages, pageRoute cfg q ≠ rt ++ [i] →
        pageView pm (linked pm m' clear f w i) q = pageView pm m q := by
  obtain ⟨hwm, hwf⟩ := (hres.reached _ _).mp hw
  have hwlt : w < cfg.numFrames := hs.lt_numFrames hwm
  have hips : i < cfg.pageSize := lt_of_lt_of_le hi (cfg.children_le w)
  have hentry : ∀ g j, g < cfg.numFrames → g ≠ f → j < cfg.pageSize →
      pm.entry (linked pm m' clear f w i) g j =
        if g = w ∧ j = i then toWord f else pm.entry m' g j := by
    intro g j hg hgf hj
    rw [entry_linked hpm hres.lt hwlt hips hg hj, if_neg (c := _ ∧ g = f) fun h => hgf h.2]
  have hbare : rt.length + 1 = cfg.tablesDepth ∨
      ∀ j < cfg.pageSize, pm.entry (linked pm m' clear f w i) f j = 0 := by
    rcases hclear with hlast | rfl
    · exact Or.inl hlast
    · right
      intro j hj
      rw [entry_linked hpm hres.lt hwlt hips hres.lt hj, if_neg fun h => hwf h.1.symm,
        if_pos ⟨rfl, rfl⟩]
  have hreached := reached_link hs hres hw hlen hips hhole hbare hentry
  have hswap : pm.swap (linked pm m' clear f w i) = pm.swap m' := swap_linked hpm hres.lt hwlt hips
  refine ⟨shape_link hs hres hw hlen hi hhole hbare hentry, hreached, hswap, ?_⟩
  intro q hq hne
  refine pageView_link hs hres hw hlen hreached hswap (?_) hq hne
  intro g hg hgw hgf
  funext j
  rw [PhysicalMemory.frame, hentry g j hg hgf j.isLt, if_neg fun h => hgw h.1]
  rfl

/-- The frame that a turn puts aside is hung into the tree. -/
theorem walkLevel_hole {w w' : Walk pm} (h0 : pm.entry w.memory w.currParent
    ((pageRoute cfg p).getD i 0) = 0)
    (hget : getFrame pm p w.currParent w.memory = some (f, m')) (hf : f < cfg.numFrames)
    (hw' : w' = ⟨f, toWord f, if i = cfg.maxTreeLevel then true else w.restored,
      linked pm m' (i ≠ cfg.maxTreeLevel) f w.currParent ((pageRoute cfg p).getD i 0)⟩) :
    walkLevel pm p (pageRoute cfg p) w i = some w' := by
  have hfit : f < 2 ^ 31 := lt_of_lt_of_le hf cfg.frames_fit
  have hword : pm.pmRead w.memory (w.currParent * cfg.pageSize + (pageRoute cfg p).getD i 0) = 0 :=
    h0
  unfold walkLevel
  dsimp only
  rw [hword, if_pos rfl, hget, Option.bind_eq_bind, Option.bind_some]
  dsimp only
  rw [toIndex_toWord hfit, hw']
  simp only [linked, decide_eq_true_eq]

/-- The entry that a turn finds leads on. -/
theorem walkLevel_found {w : Walk pm} (h0 : pm.entry w.memory w.currParent
    ((pageRoute cfg p).getD i 0) ≠ 0) :
    walkLevel pm p (pageRoute cfg p) w i = some { w with
      currParent := (pm.entry w.memory w.currParent ((pageRoute cfg p).getD i 0)).toIndex
      currChild := pm.entry w.memory w.currParent ((pageRoute cfg p).getD i 0) } := if_neg h0

section Turn

variable {w : Walk pm} (h : Walking p m i w) (hi : i < cfg.tablesDepth)
include h hi

/-- Before the last turn no page was found missing. -/
theorem Walking.not_restored : w.restored = false := by
  rw [← Bool.not_eq_true]
  intro hr
  have hlast := (h.restored hr).1
  omega

/-- The turn that finds an entry goes on to the frame that it refers to. -/
theorem Walking.step_found (hd : (pageRoute cfg p).getD i 0 < cfg.pageSize)
    (h0 : pm.entry w.memory w.currParent ((pageRoute cfg p).getD i 0) ≠ 0) :
    ∃ w', walkLevel pm p (pageRoute cfg p) w i = some w' ∧ Walking p m (i + 1) w' := by
  have hfresh := h.not_restored hi
  refine ⟨_, walkLevel_found h0, h.shape, ?_, rfl, ?_, h.view⟩
  · rw [take_succ_pageRoute hi]
    exact follow_snoc.mpr ⟨_, h.parent, child_eq_some.mpr ⟨hd, h0, rfl⟩⟩
  · intro hr
    rw [hfresh] at hr
    cases hr

/-- The turn that finds an empty entry puts a frame aside. -/
theorem Walking.selects (hpm : pm.Lawful) (hdepth : cfg.tablesDepth < cfg.numFrames)
    (hp : p < cfg.numPages) (hmiss : follow (child pm w.memory) 0 (pageRoute cfg p) = none) :
    ∃ f m', getFrame pm p w.currParent w.memory = some (f, m') ∧
      Selection w.currParent p w.memory f m' ∧ Reserved pm w.memory m' f ∧
      Reached pm m' ((pageRoute cfg p).take i) w.currParent := by
  have hlen : ((pageRoute cfg p).take i).length < cfg.tablesDepth := by
    rw [List.length_take, length_pageRoute]
    omega
  obtain ⟨f, m', hget, hsel⟩ := getFrame_selection h.shape h.parent hlen hdepth hp hmiss
  obtain ⟨hres, hfw⟩ := hsel.reserved h.shape h.parent hlen hpm
  exact ⟨f, m', hget, hsel, hres, (hres.reached _ _).mpr ⟨⟨hlen.le, h.parent⟩, Ne.symm hfw⟩⟩

/-- An empty entry on the route of a page. -/
theorem Walking.miss (hp : p < cfg.numPages) (h0 : pm.entry w.memory w.currParent
    ((pageRoute cfg p).getD i 0) = 0) : follow (child pm w.memory) 0 (pageRoute cfg p) = none := by
  have hd := lt_of_lt_of_le (getD_pageRoute_lt h.shape hp hi h.parent) (cfg.children_le _)
  exact follow_pageRoute_eq_none hi h.parent ((child_eq_none hd).mpr h0)

/-- The frame that was put aside is hung into the tree. -/
theorem Walking.linked (hpm : pm.Lawful) (hp : p < cfg.numPages)
    (h0 : pm.entry w.memory w.currParent ((pageRoute cfg p).getD i 0) = 0)
    (hres : Reserved pm w.memory m' f)
    (hw : Reached pm m' ((pageRoute cfg p).take i) w.currParent) :
    let m'' := linked pm m' (i ≠ cfg.maxTreeLevel) f w.currParent ((pageRoute cfg p).getD i 0)
    Shape pm m'' ∧
      (∀ r g, Reached pm m'' r g ↔
        Reached pm m' r g ∨ r = (pageRoute cfg p).take (i + 1) ∧ g = f) ∧
      pm.swap m'' = pm.swap m' ∧
      ∀ q < cfg.numPages, pageRoute cfg q ≠ (pageRoute cfg p).take (i + 1) →
        pageView pm m'' q = pageView pm w.memory q := by
  have hmax := cfg.tablesDepth_eq
  have hlen : ((pageRoute cfg p).take i).length = i := by
    rw [List.length_take, length_pageRoute]
    omega
  have hrow := getD_pageRoute_lt h.shape hp hi h.parent
  have hwlt : w.currParent < cfg.numFrames := h.shape.table_lt ⟨_, by omega, h.parent⟩
  have hclear : ((pageRoute cfg p).take i).length + 1 = cfg.tablesDepth ∨
      decide (i ≠ cfg.maxTreeLevel) = true := by
    rw [decide_eq_true_eq, hlen]
    omega
  rw [take_succ_pageRoute hi]
  exact linked_spec hpm h.shape hres _ hw (by omega) hrow
    (hres.empty _ _ hwlt (lt_of_lt_of_le hrow (cfg.children_le _)) h0) hclear

/-- The turn that finds an empty entry hangs a frame into it. -/
theorem Walking.step_hole (hpm : pm.Lawful) (hdepth : cfg.tablesDepth < cfg.numFrames)
    (hp : p < cfg.numPages)
    (h0 : pm.entry w.memory w.currParent ((pageRoute cfg p).getD i 0) = 0) :
    ∃ w', walkLevel pm p (pageRoute cfg p) w i = some w' ∧ Walking p m (i + 1) w' := by
  have hfresh := h.not_restored hi
  have hmax := cfg.tablesDepth_eq
  have hmiss := h.miss hi hp h0
  obtain ⟨f, m', hget, -, hres, hw⟩ := h.selects hi hpm hdepth hp hmiss
  obtain ⟨hs', hreached, hswap, hview⟩ := h.linked hi hpm hp h0 hres hw
  have hf := (hreached _ f).mpr (Or.inr ⟨rfl, rfl⟩)
  refine ⟨_, walkLevel_hole h0 hget hres.lt rfl, hs', hf.2, ?_, ?_, ?_⟩
  · exact toIndex_toWord (lt_of_lt_of_le hres.lt cfg.frames_fit)
  · intro hr
    have hlast : i = cfg.maxTreeLevel := by
      by_contra hne
      rw [if_neg hne, hfresh] at hr
      cases hr
    have hmiss' : follow (child pm m') 0 (pageRoute cfg p) = none := by
      apply Option.eq_none_iff_forall_ne_some.mpr
      intro g hg
      have hg' := ((hres.reached _ g).mp ⟨(length_pageRoute p).le, hg⟩).1.2
      rw [hmiss] at hg'
      cases hg'
    refine ⟨by omega, ?_⟩
    rw [hswap, ← h.view p hp (Or.inl hfresh), ← hres.view p hp, pageView, hmiss']
  · intro q hq hor
    rw [← h.view q hq (Or.inl hfresh)]
    apply hview q hq
    intro heq
    have hlast : i = cfg.maxTreeLevel := by
      have hlen' := congrArg List.length heq
      rw [length_pageRoute, List.length_take, length_pageRoute] at hlen'
      omega
    rcases hor with hor | hqp
    · rw [if_pos hlast] at hor
      cases hor
    · rw [hlast, ← hmax, List.take_of_length_le (length_pageRoute p).le] at heq
      exact hqp (pageRoute_inj hq hp heq)

end Turn

/-- **One turn of the loop.** -/
theorem walkLevel_step (hpm : pm.Lawful) (hdepth : cfg.tablesDepth < cfg.numFrames)
    (hp : p < cfg.numPages) (hi : i < cfg.tablesDepth) {w : Walk pm} (h : Walking p m i w) :
    ∃ w', walkLevel pm p (pageRoute cfg p) w i = some w' ∧ Walking p m (i + 1) w' := by
  have hrow := getD_pageRoute_lt h.shape hp hi h.parent
  by_cases h0 : pm.entry w.memory w.currParent ((pageRoute cfg p).getD i 0) = 0
  · exact h.step_hole hi hpm hdepth hp h0
  · exact h.step_found hi (lt_of_lt_of_le hrow (cfg.children_le _)) h0

/-! ## The whole walk -/

/-- **The walk.** All the turns of the loop. -/
theorem walk_run (hpm : pm.Lawful) (hdepth : cfg.tablesDepth < cfg.numFrames) (hs : Shape pm m)
    (hp : p < cfg.numPages) : ∀ n ≤ cfg.tablesDepth,
      ∃ w, (List.range n).foldlM (walkLevel pm p (pageRoute cfg p)) ⟨0, 0, false, m⟩ = some w ∧
        Walking p m n w := by
  intro n
  induction n with
  | zero => exact fun _ => ⟨_, rfl, hs, rfl, rfl, fun h => absurd h (by simp), fun _ _ _ => rfl⟩
  | succ n ih =>
      intro hn
      obtain ⟨w, hw, hwalk⟩ := ih (by omega)
      obtain ⟨w', hw', hwalk'⟩ := walkLevel_step hpm hdepth hp (by omega) hwalk
      refine ⟨w', ?_, hwalk'⟩
      rw [List.range_succ, List.foldlM_append, hw]
      simpa using hw'

/-- What the walk of the whole route leaves is what the call returns, once the page has been brought
in if it was missing. -/
theorem getPhysicalAddress_walk (hpm : pm.Lawful) (hdepth : cfg.tablesDepth < cfg.numFrames)
    (hs : Shape pm m) (hp : p < cfg.numPages) :
    ∃ w, (List.range cfg.tablesDepth).foldlM (walkLevel pm p (pageRoute cfg p)) ⟨0, 0, false, m⟩ =
        some w ∧ Walking p m cfg.tablesDepth w ∧
      IsPage pm w.memory (pageRoute cfg p) w.currParent ∧
      getPhysicalAddress pm p m = some (w.currParent,
        if w.restored then pm.pmRestore w.memory w.currParent p else w.memory) := by
  obtain ⟨w, hw, hwalk⟩ := walk_run hpm hdepth hs hp _ le_rfl
  have hparent := hwalk.parent
  rw [List.take_of_length_le (length_pageRoute p).le] at hparent
  refine ⟨w, hw, hwalk, ⟨length_pageRoute p, hparent⟩, ?_⟩
  unfold getPhysicalAddress
  rw [getBitesArray_eq hp, Option.bind_eq_bind, Option.bind_some, hw, Option.bind_eq_bind,
    Option.bind_some, hwalk.current]

section Restore

variable (hpm : pm.Lawful) (hs : Shape pm m) {r : List ℕ} (hpage : IsPage pm m r f)
include hpm hs hpage

/-- Bringing a page into its frame leaves the tables as they are. -/
theorem entry_restore_page (q : ℕ) {g : ℕ} (hg : IsTable pm m g) {j : ℕ} (hj : j < cfg.pageSize) :
    pm.entry (pm.pmRestore m f q) g j = pm.entry m g j := by
  apply hpm.entry_restore (hs.lt_numFrames hpage.reached) (hs.table_lt hg) _ hj
  rintro rfl
  exact hs.page_not_table hpage hg

/-- Bringing a page into its frame leaves the routes as they are. -/
theorem reached_restore_page (q : ℕ) (r' : List ℕ) (g : ℕ) :
    Reached pm (pm.pmRestore m f q) r' g ↔ Reached pm m r' g :=
  reached_congr fun _ hg _ hj => entry_restore_page hpm hs hpage q hg hj

end Restore

/-- **Translation.** The page is in the frame that is returned, with the words it had if it had
any, and every other page has the words it had. -/
theorem getPhysicalAddress_spec (hpm : pm.Lawful) (hdepth : cfg.tablesDepth < cfg.numFrames)
    (hs : Shape pm m) (hp : p < cfg.numPages) :
    ∃ f m', getPhysicalAddress pm p m = some (f, m') ∧ Shape pm m' ∧
      IsPage pm m' (pageRoute cfg p) f ∧
      (∀ q < cfg.numPages, q ≠ p → pageView pm m' q = pageView pm m q) ∧
      ∀ c, pageView pm m p = some c → pm.frame m' f = c := by
  obtain ⟨w, -, ⟨hs', -, -, hrestored, hview⟩, hpage, hget⟩ :=
    getPhysicalAddress_walk hpm hdepth hs hp
  refine ⟨w.currParent, _, hget, ?_⟩
  rcases hres : w.restored
  · rw [if_neg (by simp)]
    refine ⟨hs', hpage, fun q hq _ => hview q hq (Or.inl hres), ?_⟩
    intro c hc
    rw [← hview p hp (Or.inl hres), pageView, hpage.2] at hc
    exact Option.some.inj hc
  · rw [if_pos rfl]
    have hlt : w.currParent < cfg.numFrames := hs'.lt_numFrames hpage.reached
    have hfollow := follow_pageRoute_congr (reached_restore_page hpm hs' hpage p)
    refine ⟨hs'.congr fun g hg i hi => entry_restore_page hpm hs' hpage p hg hi,
      ⟨length_pageRoute p, by rw [hfollow]; exact hpage.2⟩, ?_, ?_⟩
    · intro q hq hqp
      rw [← hview q hq (Or.inr hqp)]
      unfold pageView
      rw [hfollow, hpm.swap_restore _ _ _ hlt, Function.update_of_ne hqp]
      rcases hg : follow (child pm w.memory) 0 (pageRoute cfg q) with _ | g
      · rfl
      · have hqpage : IsPage pm w.memory (pageRoute cfg q) g := ⟨length_pageRoute q, hg⟩
        have hne : g ≠ w.currParent := by
          rintro rfl
          exact hqp (pageRoute_inj hq hp (hs'.tree _ _ _ hqpage.reached hpage.reached))
        dsimp only
        rw [hpm.frame_restore_of_ne _ _ _ _ hlt (hs'.lt_numFrames hqpage.reached) hne]
    · intro c hc
      rw [hpm.frame_restore _ _ _ hlt, (hrestored hres).2, hc]
      rfl

end CoreOS.VirtualMemory
