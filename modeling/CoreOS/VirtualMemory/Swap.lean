import CoreOS.VirtualMemory.FrameSelection

/-!
# The swap file

Which pages go to the swap file and come back, over all sequences of calls.

* `logged pm`: the physical memory `pm` that writes down every `PMevict` and `PMrestore` it is asked
  for, with the memory at that moment. The functions of `Paging` run on it as on any other.
* `Mapped`, `Swapped`: the page has a frame, or is in the swap file; `Exclusive`: never both.
* `ProperEviction`, `ProperRestoration`: what the calls written down look like.
* `access_swap`: one access; `swap_discipline`: every sequence of calls.
-/

namespace CoreOS.VirtualMemory

open CoreOS.Lib Function

variable {cfg : Config} (pm : PhysicalMemory cfg)

/-! ## A memory that keeps a log -/

/-- A request to the swap file, with the memory it found. -/
inductive SwapCall
  /-- `PMevict(frameIndex, evictedPageIndex)` -/
  | evict (memory : pm.Memory) (frameIndex evictedPageIndex : ℕ)
  /-- `PMrestore(frameIndex, restoredPageIndex)` -/
  | restore (memory : pm.Memory) (frameIndex restoredPageIndex : ℕ)

/-- The physical memory that writes down what it is asked of the swap file, latest last. -/
def logged : PhysicalMemory cfg where
  Memory := pm.Memory × List (SwapCall pm)
  pmRead m a := pm.pmRead m.1 a
  pmWrite m a v := (pm.pmWrite m.1 a v, m.2)
  pmEvict m f p := (pm.pmEvict m.1 f p, m.2 ++ [.evict m.1 f p])
  pmRestore m f p := (pm.pmRestore m.1 f p, m.2 ++ [.restore m.1 f p])
  swap m := pm.swap m.1

/-- Writing things down changes nothing else. -/
theorem logged_lawful (hpm : pm.Lawful) : (logged pm).Lawful where
  read_write m := hpm.read_write m.1
  swap_write m := hpm.swap_write m.1
  read_evict m := hpm.read_evict m.1
  swap_evict m := hpm.swap_evict m.1
  frame_restore m := hpm.frame_restore m.1
  frame_restore_of_ne m := hpm.frame_restore_of_ne m.1
  swap_restore m := hpm.swap_restore m.1

/-- The memory with nothing written down yet. -/
def unlogged (m : pm.Memory) : (logged pm).Memory := (m, [])

/-- The tree of a memory with a log is that of the memory. -/
theorem shape_logged {m : (logged pm).Memory} (h : Shape (logged pm) m) : Shape pm m.1 :=
  ⟨h.tree, h.used, h.root_rows⟩

/-! ## Pages in frames and in the swap file -/

/-- The page has a frame. -/
def Mapped (m : pm.Memory) (p : ℕ) : Prop := ∃ f, IsPage pm m (pageRoute cfg p) f

/-- The page is in the swap file. -/
def Swapped (m : pm.Memory) (p : ℕ) : Prop := pm.swap m p ≠ none

/-- No page, except those that `except` says, both has a frame and is in the swap file. -/
def Exclusive (m : pm.Memory) (except : ℕ → Prop) : Prop :=
  ∀ p < cfg.numPages, ¬ except p → ¬ (Mapped pm m p ∧ Swapped pm m p)

/-- `PMevict` is asked to store a page that is not in the swap file from the frame that it has. -/
def ProperEviction (e : SwapCall pm) : Prop :=
  ∃ m f p, e = .evict m f p ∧ f < cfg.numFrames ∧ p < cfg.numPages ∧ ¬ Swapped pm m p ∧
    IsPage pm m (pageRoute cfg p) f

/-- `PMrestore` is asked to bring the page `p` to a frame that no other page and no table uses. -/
def ProperRestoration (p : ℕ) (e : SwapCall pm) : Prop :=
  ∃ m f, e = .restore m f p ∧ f < cfg.numFrames ∧ ¬ IsTable pm m f ∧
    ∀ q < cfg.numPages, q ≠ p → ¬ IsPage pm m (pageRoute cfg q) f

/-- What an access to the page `p` adds to the log: evictions, and then at most one restoration,
of `p`. -/
def AccessLog (p : ℕ) (before after : List (SwapCall pm)) : Prop :=
  ∃ evictions restorations, after = before ++ evictions ++ restorations ∧
    (∀ e ∈ evictions, ProperEviction pm e) ∧
    (∀ e ∈ restorations, ProperRestoration pm p e) ∧ restorations.length ≤ 1

variable {pm} {m m' : pm.Memory} {p q f : ℕ}

/-- A page has words exactly when it has a frame or is in the swap file. -/
theorem pageView_ne_none : pageView pm m p ≠ none ↔ Mapped pm m p ∨ Swapped pm m p := by
  unfold pageView Mapped Swapped
  cases hf : follow (child pm m) 0 (pageRoute cfg p) with
  | some f => simp [IsPage, hf]
  | none => simp [IsPage, hf]

/-- Putting a frame aside gives no page a frame. -/
theorem Reserved.mapped (h : Reserved pm m m' f) (hp : Mapped pm m' p) : Mapped pm m p := by
  obtain ⟨g, hg⟩ := hp
  exact ⟨g, hg.1, ((h.reached _ g).mp hg.reached).1.2⟩

/-! ## Putting a frame aside -/

section Selection

variable {c : ℕ} {except : ℕ → Prop} (hs : Shape pm m)
include hs

/-- Whatever `get_frame` does, no page is in a frame and in the swap file afterwards. -/
theorem Selection.exclusive (hpm : pm.Lawful) (hres : Reserved pm m m' f)
    (h : Selection c p m f m') (hex : Exclusive pm m except) : Exclusive pm m' except := by
  rintro q hq hne ⟨hmapped, hswapped⟩
  have hold := hres.mapped hmapped
  rcases h with ⟨hlen, hparent, hchild, -⟩ | - | ⟨-, -, hx, -⟩
  · have hpat := hs.table_lt ⟨_, by omega, hparent⟩
    have hrow := (child_eq_some.mp hchild).1
    rw [Swapped, hpm.swap_write _ _ _ (PhysicalMemory.address_lt hpat hrow)] at hswapped
    exact hex q hq hne ⟨hold, hswapped⟩
  · exact hex q hq hne ⟨hold, hswapped⟩
  · next x =>
    obtain ⟨-, hpage, hparent, hchild⟩ := isPage_of_mem_mappedPages hs hx
    have hpat := hs.table_lt hparent
    have hrow := (child_eq_some.mp hchild).1
    rw [Swapped, hpm.swap_write _ _ _ (PhysicalMemory.address_lt hpat hrow),
      hpm.swap_evict _ _ _ (hs.lt_numFrames hpage.reached)] at hswapped
    by_cases hqx : q = convertTreeRouteToDecimal cfg x.route
    · -- the page that was evicted has lost its frame
      subst hqx
      obtain ⟨g, hg⟩ := hmapped
      obtain ⟨hgm, hgf⟩ := (hres.reached _ g).mp hg.reached
      exact hgf (Option.some.inj (hgm.2.symm.trans hpage.2))
    · rw [update_of_ne hqx] at hswapped
      exact hex q hq hne ⟨hold, hswapped⟩

end Selection

/-- `get_frame` asks the swap file for proper evictions only. -/
theorem Selection.log {m m' : (logged pm).Memory} {c : ℕ} (hs : Shape (logged pm) m)
    (hex : Exclusive (logged pm) m fun _ => False) (h : Selection c p m f m') :
    ∃ evictions, m'.2 = m.2 ++ evictions ∧ ∀ e ∈ evictions, ProperEviction pm e := by
  rcases h with - | - | ⟨-, -, hx, -⟩
  · exact ⟨[], (List.append_nil _).symm, by simp⟩
  · exact ⟨[], (List.append_nil _).symm, by simp⟩
  · next x =>
    obtain ⟨hq, hpage, -⟩ := isPage_of_mem_mappedPages hs hx
    refine ⟨[.evict m.1 x.node (convertTreeRouteToDecimal cfg x.route)], rfl, ?_⟩
    intro e he
    obtain rfl := List.mem_singleton.mp he
    refine ⟨m.1, x.node, _, rfl, hs.lt_numFrames hpage.reached, hq, ?_, hpage⟩
    intro hswapped
    exact hex _ hq id ⟨⟨_, hpage⟩, hswapped⟩

/-- Hanging a frame into the tree asks the swap file for nothing. -/
theorem linked_log (m : (logged pm).Memory) (clear : Bool) (f w i : ℕ) :
    (linked (logged pm) m clear f w i).2 = m.2 := by
  have hclear : (clearTable (logged pm) f m).2 = m.2 := by
    unfold clearTable
    generalize List.range cfg.pageSize = rows
    induction rows generalizing m with
    | nil => rfl
    | cons j rows ih => exact ih _
  cases clear
  · rfl
  · exact hclear

/-! ## The walk -/

/-- The walk to the page `p`, since the log was `log₀`: no page but `p` is in a frame and in the
swap file, `p` is at most after it was found missing, and only proper evictions were asked for. -/
structure SwapWalk (p : ℕ) (log₀ : List (SwapCall pm)) (w : Walk (logged pm)) : Prop where
  exclusive : Exclusive (logged pm) w.memory fun q => w.restored = true ∧ q = p
  log : ∃ evictions, w.memory.2 = log₀ ++ evictions ∧ ∀ e ∈ evictions, ProperEviction pm e

section Turn

variable {m : (logged pm).Memory} {i : ℕ} {log₀ : List (SwapCall pm)} {w w' : Walk (logged pm)}
  (hwalk : Walking p m i w) (h : SwapWalk p log₀ w) (hi : i < cfg.tablesDepth)
include hwalk h hi

/-- The turn that finds an empty entry. -/
theorem SwapWalk.step_hole (hpm : pm.Lawful) (hdepth : cfg.tablesDepth < cfg.numFrames)
    (hp : p < cfg.numPages)
    (h0 : (logged pm).entry w.memory w.currParent ((pageRoute cfg p).getD i 0) = 0)
    (hw' : walkLevel (logged pm) p (pageRoute cfg p) w i = some w') : SwapWalk p log₀ w' := by
  have hlaw := logged_lawful pm hpm
  have hfresh := hwalk.not_restored hi
  obtain ⟨f, m', hget, hsel, hres, hreached⟩ :=
    hwalk.selects hi hlaw hdepth hp (hwalk.miss hi hp h0)
  obtain ⟨-, hlinked, hswap, -⟩ := hwalk.linked hi hlaw hp h0 hres hreached
  rw [walkLevel_hole h0 hget hres.lt rfl] at hw'
  cases hw'
  have hnone : Exclusive (logged pm) w.memory fun _ => False := by
    intro q hq _
    exact h.exclusive q hq fun hr => by
      rw [hfresh] at hr
      cases hr.1
  have hex := hsel.exclusive hwalk.shape hlaw hres hnone
  refine ⟨?_, ?_⟩
  · rintro q hq hne ⟨⟨g, hg⟩, hswapped⟩
    rw [Swapped, hswap] at hswapped
    rcases (hlinked _ g).mp hg.reached with hold | ⟨hroute, -⟩
    · exact hex q hq id ⟨⟨g, hg.1, hold.2⟩, hswapped⟩
    · -- the page at the end of the whole route is the one that is accessed
      have hlast : i = cfg.maxTreeLevel := by
        have hlen := congrArg List.length hroute
        rw [length_pageRoute, List.length_take, length_pageRoute] at hlen
        have := cfg.tablesDepth_eq
        omega
      rw [hlast, ← cfg.tablesDepth_eq, List.take_of_length_le (length_pageRoute p).le] at hroute
      exact hne ⟨if_pos hlast, pageRoute_inj hq hp hroute⟩
  · obtain ⟨before, hbefore, hproper⟩ := h.log
    obtain ⟨evictions, hlog, hproper'⟩ := hsel.log hwalk.shape hnone
    refine ⟨before ++ evictions, ?_, ?_⟩
    · rw [linked_log, hlog, hbefore, List.append_assoc]
    · intro e he
      rcases List.mem_append.mp he with he | he
      · exact hproper e he
      · exact hproper' e he

/-- **One turn of the loop.** -/
theorem SwapWalk.step (hpm : pm.Lawful) (hdepth : cfg.tablesDepth < cfg.numFrames)
    (hp : p < cfg.numPages) (hw' : walkLevel (logged pm) p (pageRoute cfg p) w i = some w') :
    SwapWalk p log₀ w' := by
  by_cases h0 : (logged pm).entry w.memory w.currParent ((pageRoute cfg p).getD i 0) = 0
  · exact h.step_hole hwalk hi hpm hdepth hp h0 hw'
  · rw [walkLevel_found h0] at hw'
    cases hw'
    exact ⟨h.exclusive, h.log⟩

end Turn

/-- All the turns of the loop. -/
theorem swapWalk_run {m : (logged pm).Memory} (hpm : pm.Lawful)
    (hdepth : cfg.tablesDepth < cfg.numFrames) (hs : Shape (logged pm) m)
    (hex : Exclusive (logged pm) m fun _ => False) (hp : p < cfg.numPages) :
    ∀ n ≤ cfg.tablesDepth, ∀ w,
      (List.range n).foldlM (walkLevel (logged pm) p (pageRoute cfg p)) ⟨0, 0, false, m⟩ =
        some w → SwapWalk p m.2 w := by
  intro n
  induction n with
  | zero =>
      intro _ w hw
      cases hw
      exact ⟨fun q hq _ => hex q hq id, [], (List.append_nil _).symm, by simp⟩
  | succ n ih =>
      intro hn w hw
      obtain ⟨u, hu, hwalk⟩ := walk_run (logged_lawful pm hpm) hdepth hs hp n (by omega)
      rw [List.range_succ, List.foldlM_append, hu] at hw
      refine (ih (by omega) u hu).step hwalk (by omega) hpm hdepth hp ?_
      simpa using hw

/-! ## One access -/

/-- The restoration that ends an access is proper. -/
theorem properRestoration {m : pm.Memory} (hs : Shape pm m) (hp : p < cfg.numPages)
    (hpage : IsPage pm m (pageRoute cfg p) f) : ProperRestoration pm p (.restore m f p) := by
  refine ⟨m, f, rfl, hs.lt_numFrames hpage.reached, hs.page_not_table hpage, ?_⟩
  intro q hq hne hqpage
  exact hne (pageRoute_inj hq hp (hs.tree _ _ _ hqpage.reached hpage.reached))

/-- Bringing a page into its frame takes it out of the swap file. -/
theorem exclusive_restore (hpm : pm.Lawful) (hs : Shape pm m)
    (hpage : IsPage pm m (pageRoute cfg p) f) (hex : Exclusive pm m fun q => q = p) :
    Exclusive pm (pm.pmRestore m f p) fun _ => False := by
  rintro q hq - ⟨⟨g, hg⟩, hswapped⟩
  rw [Swapped, hpm.swap_restore _ _ _ (hs.lt_numFrames hpage.reached)] at hswapped
  by_cases hqp : q = p
  · rw [hqp, update_self] at hswapped
    exact hswapped rfl
  · rw [update_of_ne hqp] at hswapped
    have hold := (reached_restore_page hpm hs hpage p _ g).mp hg.reached
    exact hex q hq hqp ⟨⟨g, hg.1, hold.2⟩, hswapped⟩

section Access

variable {m : (logged pm).Memory} (hpm : pm.Lawful) (hdepth : cfg.tablesDepth < cfg.numFrames)
  (hs : Shape (logged pm) m) (hex : Exclusive (logged pm) m fun _ => False)
include hpm hdepth hs hex

/-- **One access.** The page is brought in, with a proper log, and no page is in a frame and in the
swap file afterwards; no page is lost. -/
theorem access_swap (hp : p < cfg.numPages) :
    ∃ f m', getPhysicalAddress (logged pm) p m = some (f, m') ∧ Shape (logged pm) m' ∧
      IsPage (logged pm) m' (pageRoute cfg p) f ∧ Exclusive (logged pm) m' (fun _ => False) ∧
      AccessLog pm p m.2 m'.2 ∧
      ∀ q < cfg.numPages, pageView (logged pm) m q ≠ none → pageView (logged pm) m' q ≠ none := by
  have hlaw := logged_lawful pm hpm
  obtain ⟨f, m', hget, hs', hpage', hview, -⟩ := getPhysicalAddress_spec hlaw hdepth hs hp
  obtain ⟨w, hw, hwalk, hpage, hget'⟩ := getPhysicalAddress_walk hlaw hdepth hs hp
  have hsw := swapWalk_run hpm hdepth hs hex hp _ le_rfl w hw
  obtain ⟨evictions, hlog, hproper⟩ := hsw.log
  rw [hget] at hget'
  obtain ⟨rfl, rfl⟩ := Prod.mk.inj (Option.some.inj hget')
  refine ⟨_, _, hget, hs', hpage', ?_, ?_, ?_⟩
  · cases hr : w.restored with
    | false =>
        intro q hq _
        exact hsw.exclusive q hq fun h => by
          rw [hr] at h
          cases h.1
    | true =>
        refine exclusive_restore hlaw hwalk.shape hpage ?_
        intro q hq hne
        exact hsw.exclusive q hq fun h => hne h.2
  · cases hr : w.restored with
    | false => exact ⟨evictions, [], by simpa using hlog, hproper, by simp, Nat.zero_le _⟩
    | true =>
        refine ⟨evictions, [.restore w.memory.1 w.currParent p], ?_, hproper, ?_, le_rfl⟩
        · show w.memory.2 ++ _ = _
          rw [hlog]
        · intro e he
          obtain rfl := List.mem_singleton.mp he
          exact properRestoration (shape_logged pm hwalk.shape) hp hpage
  · intro q hq hne
    by_cases hqp : q = p
    · rw [hqp]
      exact pageView_ne_none.mpr (.inl ⟨_, hpage'⟩)
    · rwa [hview q hq hqp]

end Access

/-! ## Sequences of calls -/

/-- The address that a call is about. -/
def Call.address : Call → ℕ
  | .read a => a
  | .write a _ => a

/-- What every call keeps: the tree, and that no page is in a frame and in the swap file. -/
def Disciplined (s : System (logged pm)) : Prop :=
  Shape (logged pm) s.memory ∧ Exclusive (logged pm) s.memory fun _ => False

/-- What a call does: a proper log, and no page is lost. -/
def SwapStep (c : Call) (s s' : System (logged pm)) : Prop :=
  AccessLog pm (cfg.numOfPages c.address) s.memory.2 s'.memory.2 ∧
    ∀ q < cfg.numPages, pageView (logged pm) s.memory q ≠ none →
      pageView (logged pm) s'.memory q ≠ none

/-- A call that touches nothing. -/
theorem swapStep_refl {c : Call} {s s' : System (logged pm)} (hm : s'.memory = s.memory) :
    SwapStep c s s' := by
  rw [SwapStep, hm]
  exact ⟨⟨[], [], by simp, by simp, by simp, Nat.zero_le _⟩, fun _ _ h => h⟩

section Step

variable (hpm : pm.Lawful) (hdepth : cfg.tablesDepth < cfg.numFrames) {s : System (logged pm)}
include hpm

/-- Storing a word in the frame of a page keeps the tree, the frames of the pages and the swap
file. -/
theorem disciplined_write {m : (logged pm).Memory} {r : List ℕ} (hs : Shape (logged pm) m)
    (hex : Exclusive (logged pm) m fun _ => False) (hpage : IsPage (logged pm) m r f)
    (i : Fin cfg.pageSize) (v : Word) :
    Shape (logged pm) ((logged pm).pmWrite m (f * cfg.pageSize + i) v) ∧
      Exclusive (logged pm) ((logged pm).pmWrite m (f * cfg.pageSize + i) v) (fun _ => False) ∧
      ∀ q < cfg.numPages, pageView (logged pm) m q ≠ none →
        pageView (logged pm) ((logged pm).pmWrite m (f * cfg.pageSize + i) v) q ≠ none := by
  have hlaw := logged_lawful pm hpm
  have htables : ∀ g, IsTable (logged pm) m g → ∀ j < cfg.pageSize,
      (logged pm).entry ((logged pm).pmWrite m (f * cfg.pageSize + i) v) g j =
        (logged pm).entry m g j :=
    fun g hg j hj => entry_write_page hlaw hs hpage i.isLt v hg hj
  have hfollow := follow_pageRoute_congr fun r g => reached_congr (r := r) (f := g) htables
  have hswap := hlaw.swap_write m (f * cfg.pageSize + i) v
    (PhysicalMemory.address_lt (hs.lt_numFrames hpage.reached) i.isLt)
  refine ⟨hs.congr htables, ?_, ?_⟩
  · intro q hq hne
    rw [Mapped, Swapped, hswap]
    unfold IsPage
    rw [hfollow]
    exact hex q hq hne
  · intro q _ hne
    rw [pageView_ne_none, Mapped, Swapped, hswap] at *
    unfold IsPage at *
    rwa [hfollow]

include hdepth

/-- **Step rule.** Every call succeeds, and keeps the discipline. -/
theorem Disciplined.step (h : Disciplined s) (c : Call) :
    ∃ s', (paging (logged pm)).step c s = some s' ∧ Disciplined s' ∧ SwapStep c s s' := by
  obtain ⟨hs, hex⟩ := h
  by_cases ha : c.address < cfg.virtualMemorySize
  · obtain ⟨f, m', hget, hs', hpage, hex', hlog, hkept⟩ :=
      access_swap hpm hdepth hs hex (cfg.numOfPages_lt ha)
    rcases c with a | ⟨a, v⟩
    · change a < cfg.virtualMemorySize at ha
      change getPhysicalAddress (logged pm) (cfg.numOfPages a) s.memory = _ at hget
      have hread : vmRead (logged pm) a s.memory = some ((1, some ((logged pm).pmRead m'
          (f * cfg.pageSize + cfg.offset a))), m') := by
        rw [vmRead, if_neg (Nat.not_le.mpr ha), hget]
        rfl
      exact ⟨_, step_read hread, ⟨hs', hex'⟩, hlog, hkept⟩
    · change a < cfg.virtualMemorySize at ha
      change getPhysicalAddress (logged pm) (cfg.numOfPages a) s.memory = _ at hget
      have hwrite : vmWrite (logged pm) a v s.memory =
          some (1, (logged pm).pmWrite m' (f * cfg.pageSize + cfg.offset a) v) := by
        rw [vmWrite, if_neg (Nat.not_le.mpr ha), hget]
        rfl
      obtain ⟨hs'', hex'', hkept'⟩ := disciplined_write hpm hs' hex' hpage (rowOf cfg a) v
      exact ⟨_, step_write hwrite, ⟨hs'', hex''⟩, hlog,
        fun q hq hne => hkept' q hq (hkept q hq hne)⟩
  · have hge := Nat.le_of_not_lt ha
    rcases c with a | ⟨a, v⟩
    · exact ⟨_, step_read (if_pos hge), ⟨hs, hex⟩, swapStep_refl rfl⟩
    · exact ⟨_, step_write (if_pos hge), ⟨hs, hex⟩, swapStep_refl rfl⟩

/-- **Run rule.** Every sequence of calls runs through, keeps the discipline, and loses no page. -/
theorem Disciplined.run (calls : List Call) : ∀ {s : System (logged pm)}, Disciplined s →
    ∃ s', (paging (logged pm)).run calls s = some s' ∧ Disciplined s' ∧
      ∀ q < cfg.numPages, pageView (logged pm) s.memory q ≠ none →
        pageView (logged pm) s'.memory q ≠ none := by
  induction calls with
  | nil => exact fun h => ⟨_, rfl, h, fun _ _ hne => hne⟩
  | cons c calls ih =>
      intro s h
      obtain ⟨u, hstep, hu, -, hkept⟩ := h.step hpm hdepth c
      obtain ⟨s', hrun, hs', hkept'⟩ := ih hu
      exact ⟨s', (Machine.run_cons _).mpr ⟨u, hstep, hrun⟩, hs',
        fun q hq hne => hkept' q hq (hkept q hq hne)⟩

end Step

/-- With an empty swap file, nothing is in a frame or in the swap file after `VMinitialize`. -/
theorem disciplined_initialized (hpm : pm.Lawful) {m : pm.Memory}
    (hempty : ∀ p < cfg.numPages, pm.swap m p = none) :
    Disciplined (initialized (logged pm) (unlogged pm m)) := by
  have hlaw := logged_lawful pm hpm
  refine ⟨shape_vmInitialize hlaw _, ?_⟩
  rintro p hp - ⟨-, hswapped⟩
  apply hswapped
  exact (congrFun (swap_clearTable hlaw cfg.frames_pos) p).trans (hempty p hp)

/-- **Swap discipline.** Starting with an empty swap file, every sequence of calls after
`VMinitialize` ends in a state in which no page is both in a frame and in the swap file; the next
call, whichever it is, asks for proper evictions and then for at most one restoration, of the page
that is accessed, to a frame that no other page and no table uses; and a page that has a frame has
one or is in the swap file after whatever is called later. -/
theorem swap_discipline (hpm : pm.Lawful) (hdepth : cfg.tablesDepth < cfg.numFrames)
    {m : pm.Memory} (hempty : ∀ p < cfg.numPages, pm.swap m p = none) (calls : List Call) :
    ∃ s, (paging (logged pm)).run calls (initialized (logged pm) (unlogged pm m)) = some s ∧
      (∀ p < cfg.numPages, ¬ (Mapped pm s.memory.1 p ∧ Swapped pm s.memory.1 p)) ∧
      (∀ c, ∃ s', (paging (logged pm)).step c s = some s' ∧
        AccessLog pm (cfg.numOfPages c.address) s.memory.2 s'.memory.2) ∧
      ∀ more, ∃ s', (paging (logged pm)).run more s = some s' ∧ ∀ p < cfg.numPages,
        Mapped pm s.memory.1 p → Mapped pm s'.memory.1 p ∨ Swapped pm s'.memory.1 p := by
  obtain ⟨s, hrun, hs, -⟩ :=
    Disciplined.run hpm hdepth calls (disciplined_initialized hpm hempty)
  refine ⟨s, hrun, fun p hp => hs.2 p hp id, ?_, ?_⟩
  · intro c
    obtain ⟨s', hstep, -, hlog, -⟩ := hs.step hpm hdepth c
    exact ⟨s', hstep, hlog⟩
  · intro more
    obtain ⟨s', hrun', -, hkept⟩ := Disciplined.run hpm hdepth more hs
    refine ⟨s', hrun', ?_⟩
    intro p hp hmapped
    exact pageView_ne_none.mp (hkept p hp (pageView_ne_none.mpr (.inl hmapped)))

/-- Pages that do not fit into four frames at once are evicted and brought back. -/
theorem swap_discipline_run :
    (∃ s, (paging (logged (arrayMemory fourFrames))).run fourPages (initialized
        (logged (arrayMemory fourFrames)) (unlogged _ (fun _ => 7, fun _ => none))) = some s ∧
      ∀ p < fourFrames.numPages, ¬ (Mapped (arrayMemory fourFrames) s.memory.1 p ∧
        Swapped (arrayMemory fourFrames) s.memory.1 p)) ∧
    ((paging (logged (arrayMemory fourFrames))).run fourPages (initialized
        (logged (arrayMemory fourFrames)) (unlogged _ (fun _ => 7, fun _ => none)))).map
          (fun s => s.memory.2.map fun
            | .evict _ f p => (true, f, p)
            | .restore _ f p => (false, f, p)) =
      some [(false, 3, 0), (true, 3, 0), (false, 2, 2), (true, 2, 2), (false, 1, 7), (true, 1, 7),
        (false, 2, 0), (true, 2, 0), (false, 3, 2)] := by
  obtain ⟨s, hrun, hex, -⟩ := swap_discipline (arrayMemory_lawful fourFrames) (by decide)
    (m := (fun _ => 7, fun _ => none)) (fun _ _ => rfl) fourPages
  exact ⟨⟨s, hrun, hex⟩, by decide +kernel⟩

end CoreOS.VirtualMemory
