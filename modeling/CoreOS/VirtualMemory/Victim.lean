import CoreOS.VirtualMemory.Routes
import CoreOS.VirtualMemory.Swap

/-!
# The page to evict

Which page `dfs_max_frame` evicts, at every turn of every walk at which `get_frame` comes to it.

* `pageDistance`: the circular distance of two pages, as the documentation has it;
  `circularDistance_eq`: the source computes it.
* `FallsThrough`: `find_free_frame` returns no frame that exists.
* `Victim pm p m v`: `v` describes the page that is farthest away from `p`, the first one on a tie.
* `eviction_victim`: there is one, it is evicted, and its entry is the only word that changes.
-/

namespace CoreOS.VirtualMemory

open CoreOS.Lib

variable {cfg : Config}

/-- The circular distance of two pages: `min{NUM_PAGES - |p-q|, |p-q|}`. -/
def pageDistance (cfg : Config) (p q : ℕ) : ℕ :=
  min (cfg.numPages - ((p : ℤ) - q).natAbs) ((p : ℤ) - q).natAbs

/-- The macros of the source compute the circular distance. -/
theorem circularDistance_eq (p q : ℕ) :
    cfg.circularDistance (distance p q) = pageDistance cfg p q := by
  have habs : distance p q = ((p : ℤ) - q).natAbs := by
    unfold distance
    split_ifs <;> omega
  rw [Config.circularDistance, pageDistance, habs]
  split_ifs with h
  · exact (min_eq_left h.le).symm
  · exact (min_eq_right (Nat.le_of_not_lt h)).symm

variable (pm : PhysicalMemory cfg)

/-- In the memory `m` neither an empty table nor a frame that was never used is left for a caller
that works on the table `w`: `get_frame` goes on to `dfs_max_frame`. -/
def FallsThrough (w : ℕ) (m : pm.Memory) : Prop :=
  let s := findFreeFrame pm w cfg.tablesDepth 0 0 0 ⟨0, 0, m⟩
  (if s.finishedEmpty ≠ 0 then s.finishedEmpty else s.maxFrameIndex) ≥ cfg.numFrames

instance (w : ℕ) (m : pm.Memory) : Decidable (FallsThrough pm w m) :=
  inferInstanceAs (Decidable (_ ≥ _))

/-- `v` describes the page to evict for `p`. -/
structure Victim (p : ℕ) (m : pm.Memory) (v : Saving) : Prop where
  /-- It is a page. -/
  lt : v.pageIndex < cfg.numPages
  /-- It is in the frame. -/
  page : IsPage pm m (pageRoute cfg v.pageIndex) v.frameIndex
  /-- The parent is a table. -/
  table : IsTable pm m v.parent
  /-- The row of the parent refers to the frame. -/
  entry : child pm m v.parent v.rowNumber = some v.frameIndex
  /-- No page that has a frame is farther away. -/
  farthest : ∀ q < cfg.numPages, Mapped pm m q →
    pageDistance cfg p q ≤ pageDistance cfg p v.pageIndex
  /-- Of those that are as far away it is the first one. -/
  first : ∀ q < cfg.numPages, Mapped pm m q →
    pageDistance cfg p q = pageDistance cfg p v.pageIndex → v.pageIndex ≤ q

variable {pm} {m m' : pm.Memory} {p i f : ℕ}

/-! ## The order of the search -/

/-- A page that the search meets is the one whose route it has. -/
theorem pageRoute_of_mem_mappedPages (hs : Shape pm m) {x : Leaf ℕ ℕ}
    (hx : x ∈ mappedPages pm m) :
    pageRoute cfg (convertTreeRouteToDecimal cfg x.route) = x.route := by
  obtain ⟨q, hq, hroute, hparent, hnode⟩ := mem_mappedPages hs hx
  have hfollow : follow (child pm m) 0 x.route = some x.node := by
    rw [hroute]
    exact follow_snoc.mpr ⟨x.parent, hparent, hnode⟩
  have hlen : x.route.length = cfg.tablesDepth := by
    rw [hroute, List.length_append, List.length_singleton, hq, cfg.tablesDepth_eq]
  have hdigits := lt_of_mem_route hfollow
  rw [convertTreeRouteToDecimal_eq hdigits, pageRoute_ofDigits hlen hdigits]

/-- The search meets the pages in the order of their numbers. -/
theorem pairwise_mappedPages (hs : Shape pm m) : (mappedPages pm m).Pairwise fun x y =>
    convertTreeRouteToDecimal cfg x.route < convertTreeRouteToDecimal cfg y.route := by
  have hroutes : (mappedPages pm m).Pairwise fun x y => x.route < y.route :=
    pairwise_leaves fun _ => List.pairwise_lt_range
  refine hroutes.imp_of_mem ?_
  intro x y hx hy hlt
  rw [← pageRoute_lt_iff (isPage_of_mem_mappedPages hs hx).1 (isPage_of_mem_mappedPages hs hy).1,
    pageRoute_of_mem_mappedPages hs hx, pageRoute_of_mem_mappedPages hs hy]
  exact hlt

/-- The search meets every page that has a frame. -/
theorem Mapped.exists_mem (hs : Shape pm m) {q : ℕ} (hq : q < cfg.numPages) (h : Mapped pm m q) :
    ∃ x ∈ mappedPages pm m, convertTreeRouteToDecimal cfg x.route = q := by
  obtain ⟨f, hf⟩ := h
  obtain ⟨x, hx, hroute, -⟩ := exists_mem_mappedPages hs hf
  refine ⟨x, hx, ?_⟩
  rw [hroute, convertTreeRouteToDecimal_eq pageRoute_lt, ofDigits_pageRoute hq]

/-- **What the search remembers** describes the page to evict. -/
theorem victim_of_bestPage (hs : Shape pm m) {x : Leaf ℕ ℕ} (hx : x ∈ mappedPages pm m)
    (hbest : bestPage pm p m = some x) : Victim pm p m (savingOf cfg x) := by
  obtain ⟨hlt, hpage, htable, hentry⟩ := isPage_of_mem_mappedPages hs hx
  have hvalue : ∀ y : Leaf ℕ ℕ,
      leafValue cfg p y = pageDistance cfg p (convertTreeRouteToDecimal cfg y.route) :=
    fun y => circularDistance_eq p _
  have horder := pairwise_mappedPages hs
  unfold bestPage at hbest
  rcases foldl_better (leafValue cfg p) (mappedPages pm m) (0, none) with
    ⟨hb, -⟩ | ⟨l₁, y, l₂, hl, hb, -, hbefore, hafter⟩
  · rw [hb] at hbest
    cases hbest
  rw [hb] at hbest
  cases hbest
  rw [hl] at horder
  obtain ⟨-, hrest, -⟩ := List.pairwise_append.mp horder
  -- a page is met before the best one, is the best one, or is met after it
  have hcases : ∀ q < cfg.numPages, Mapped pm m q →
      pageDistance cfg p q < leafValue cfg p x ∨
        (pageDistance cfg p q ≤ leafValue cfg p x ∧
          convertTreeRouteToDecimal cfg x.route ≤ q) := by
    intro q hq hmapped
    obtain ⟨z, hz, rfl⟩ := hmapped.exists_mem hs hq
    rw [← hvalue]
    rw [hl] at hz
    rcases List.mem_append.mp hz with hz | hz
    · exact .inl (hbefore z hz)
    · rcases List.mem_cons.mp hz with rfl | hz
      · exact .inr ⟨le_rfl, le_rfl⟩
      · exact .inr ⟨hafter z hz, ((List.pairwise_cons.mp hrest).1 z hz).le⟩
  refine ⟨hlt, hpage, htable, hentry, ?_, ?_⟩
  · intro q hq hmapped
    show pageDistance cfg p q ≤ pageDistance cfg p (convertTreeRouteToDecimal cfg x.route)
    rw [← hvalue]
    rcases hcases q hq hmapped with hlt | ⟨hle, -⟩
    · exact hlt.le
    · exact hle
  · intro q hq hmapped heq
    have heq : pageDistance cfg p q = pageDistance cfg p (convertTreeRouteToDecimal cfg x.route) :=
      heq
    rw [← hvalue] at heq
    rcases hcases q hq hmapped with hlt | ⟨-, hle⟩
    · exact absurd heq hlt.ne
    · exact hle

/-! ## `get_frame` -/

/-- Where `get_frame` falls through no table can be unlinked, and every frame is in use. -/
theorem FallsThrough.full (hs : Shape pm m) {w : ℕ} (h : FallsThrough pm w m) :
    (∀ g, IsTable pm m g → ¬ Vacant pm w m g) ∧
      ∀ g, (∃ r, Reached pm m r g) ↔ g < cfg.numFrames := by
  unfold FallsThrough at h
  have hsearch := findFreeFrame_root hs w
  generalize findFreeFrame pm w cfg.tablesDepth 0 0 0 ⟨0, 0, m⟩ = s at h hsearch
  dsimp only at h hsearch
  rcases hsearch with hfound | ⟨-, hfin, hoccupied, hmax, hused⟩
  · rw [if_pos hfound.ne_zero] at h
    obtain ⟨q, parent, row, hq, hparent, hchild, -, -⟩ := hfound
    have hlt : s.finishedEmpty < cfg.numFrames :=
      hs.lt_numFrames (reaches_snoc.mpr ⟨parent, by omega, hparent, hchild⟩)
    omega
  · rw [if_neg (not_not.mpr hfin)] at h
    obtain hfull : s.maxFrameIndex = cfg.numFrames := by omega
    exact ⟨hoccupied, hfull ▸ hused⟩

/-- Where `get_frame` falls through it evicts the best page. -/
theorem Selection.evicts (hs : Shape pm m) {w : ℕ} (hfull : FallsThrough pm w m)
    (h : Selection w p m f m') : ∃ x ∈ mappedPages pm m, bestPage pm p m = some x ∧ f = x.node ∧
      m' = pm.pmWrite (pm.pmEvict m x.node (convertTreeRouteToDecimal cfg x.route))
        (x.parent * cfg.pageSize + x.row) 0 := by
  obtain ⟨hoccupied, hused⟩ := hfull.full hs
  rcases h with ⟨hlen, hparent, hchild, hvacant⟩ | ⟨-, hfirst, hlt⟩ | ⟨-, -, hx, hbest⟩
  · next rt parent row =>
    refine absurd hvacant (hoccupied f ⟨rt ++ [row], ?_, ?_⟩)
    · rwa [List.length_append, List.length_singleton]
    · exact follow_snoc.mpr ⟨parent, hparent, hchild⟩
  · exact absurd ((hfirst f).mp ((hused f).mpr hlt)) (lt_irrefl f)
  · exact ⟨_, hx, hbest, rfl, rfl⟩

/-- An eviction that empties an entry changes no other word of the memory. -/
theorem read_evicted (hpm : pm.Lawful) {q a b : ℕ} (hf : f < cfg.numFrames) (ha : a < cfg.ramSize)
    (hb : b < cfg.ramSize) :
    pm.pmRead (pm.pmWrite (pm.pmEvict m f q) a 0) b = if b = a then 0 else pm.pmRead m b := by
  rw [hpm.read_write _ _ _ _ ha hb, hpm.read_evict _ _ _ _ hf hb]

/-- **Eviction has a victim and picks the right one.** At every turn of every walk, after any
sequence of calls, at which `get_frame` falls through to `dfs_max_frame`: the search assigns
`saving_data`, which describes the page that is farthest away from `p` of those that have a frame,
the first one on a tie; that page is evicted from its frame, which `get_frame` returns; and the
entry that referred to the frame is the only word of the memory that changes, to `0`. -/
theorem eviction_victim (hpm : pm.Lawful) (hdepth : cfg.tablesDepth < cfg.numFrames)
    {m₀ : pm.Memory} {calls : List Call} {s : System pm} {w : Walk pm}
    (hrun : (paging pm).run calls (initialized pm m₀) = some s) (hp : p < cfg.numPages)
    (hi : i < cfg.tablesDepth) (hw : ReachesTurn pm p s.memory i w)
    (hmiss : pm.entry w.memory w.currParent ((pageRoute cfg p).getD i 0) = 0)
    (hfull : FallsThrough pm w.currParent w.memory) :
    ∃ d v m',
      dfsMaxFrame pm p cfg.tablesDepth 0 0 0
        (⟨0, none, List.replicate cfg.tablesDepth 0⟩, w.memory) = some (d, m') ∧
      d.saving = some v ∧ Victim pm p w.memory v ∧
      getFrame pm p w.currParent w.memory = some (v.frameIndex, m') ∧
      m' = pm.pmWrite (pm.pmEvict w.memory v.frameIndex v.pageIndex)
        (v.parent * cfg.pageSize + v.rowNumber) 0 ∧
      ∀ a < cfg.ramSize, pm.pmRead m' a =
        if a = v.parent * cfg.pageSize + v.rowNumber then 0 else pm.pmRead w.memory a := by
  obtain ⟨s', t, hrun', -, -, hrep⟩ := run_represents hpm hdepth m₀ calls
  rw [hrun] at hrun'
  cases hrun'
  have hwalk := hw.walking hpm hdepth hrep.shape hp hi.le
  obtain ⟨f, m', hget, hsel, -, -⟩ :=
    hwalk.selects hi hpm hdepth hp (hwalk.miss hi hp hmiss)
  obtain ⟨x, hx, hbest, rfl, rfl⟩ := hsel.evicts hwalk.shape hfull
  obtain ⟨d, hd, hsaving⟩ := dfsMaxFrame_root hbest
  obtain ⟨-, hpage, htable, hentry⟩ := isPage_of_mem_mappedPages hwalk.shape hx
  refine ⟨d, savingOf cfg x, _, hd, hsaving, victim_of_bestPage hwalk.shape hx hbest, hget, rfl, ?_⟩
  have haddress : x.parent * cfg.pageSize + x.row < cfg.ramSize :=
    PhysicalMemory.address_lt (hwalk.shape.table_lt htable) (child_eq_some.mp hentry).1
  exact fun a ha => read_evicted hpm (hwalk.shape.lt_numFrames hpage.reached) haddress ha

/-- A memory of six frames of two words for eight pages. -/
def sixFrames : Config where
  offsetWidth := 1
  virtualAddressWidth := 4
  numFrames := 6
  offset_pos := fourFrames.offset_pos
  offset_lt := fourFrames.offset_lt
  frames_pos := by decide
  frames_fit := by decide

/-- The pages 0 and 1 have frames, and the walk to page 2 takes the last one for a table: at its
last turn page 0 is evicted. -/
theorem eviction_victim_run : ∃ s w m',
    (paging (arrayMemory sixFrames)).run [.write 0 100, .write 2 102]
      (initialized (arrayMemory sixFrames) (fun _ => 0, fun _ => none)) = some s ∧
    ReachesTurn (arrayMemory sixFrames) 2 s.memory 2 w ∧
    getFrame (arrayMemory sixFrames) 2 w.currParent w.memory = some (3, m') ∧
    ∃ v, v.pageIndex = 0 ∧ Victim (arrayMemory sixFrames) 2 w.memory v := by
  have hany : ((paging (arrayMemory sixFrames)).run [.write 0 100, .write 2 102]
      (initialized (arrayMemory sixFrames) (fun _ => 0, fun _ => none))).any (fun s =>
        ((List.range 2).foldlM (walkLevel (arrayMemory sixFrames) 2 [0, 1, 0])
          ⟨0, 0, false, s.memory⟩).any fun w => decide
            ((arrayMemory sixFrames).entry w.memory w.currParent 0 = 0 ∧
              FallsThrough (arrayMemory sixFrames) w.currParent w.memory ∧
              (dfsMaxFrame (arrayMemory sixFrames) 2 3 0 0 0
                (⟨0, none, [0, 0, 0]⟩, w.memory)).map (fun d => d.1.saving) =
                  some (some ⟨0, 2, 0, 3⟩))) = true := by
    decide +kernel
  obtain ⟨s, hs, hw⟩ := (Option.any_eq_true _ _).mp hany
  obtain ⟨w, hw, hturn⟩ := (Option.any_eq_true _ _).mp hw
  obtain ⟨hmiss, hfull, hsaving⟩ := of_decide_eq_true hturn
  have hreach : ReachesTurn (arrayMemory sixFrames) 2 s.memory 2 w := ⟨[0, 1, 0], by decide, hw⟩
  obtain ⟨d, v, m', hd, hv, hvictim, hget, -, -⟩ :=
    eviction_victim (arrayMemory_lawful sixFrames) (by decide) hs (by decide) (by decide) hreach
      hmiss hfull
  have hd' : dfsMaxFrame (arrayMemory sixFrames) 2 3 0 0 0 (⟨0, none, [0, 0, 0]⟩, w.memory) =
      some (d, m') := hd
  rw [hd', Option.map_some, hv] at hsaving
  obtain rfl : v = ⟨0, 2, 0, 3⟩ := Option.some.inj (Option.some.inj hsaving)
  exact ⟨s, w, m', hs, hreach, hget, _, rfl, hvictim⟩

end CoreOS.VirtualMemory
