import CoreOS.VirtualMemory.Victim

/-!
# A memory that holds no route

What the page tables do where the physical memory has at most as many frames as a route has tables,
so that no page can ever have a frame. The documentation of `VMread` and `VMwrite` promises `0`.

* `PassesUnassigned`: the search for a victim evicts with a `saving_data` that nothing was assigned
  to; `FailsAsDocumented`: it never does, and both calls return `0`.
* `Chain`: the loop invariant of the walk, which builds its route out of the first frames.
* `Chain.stuck`: the turn that finds every frame on its route has no page to evict.
* `never_fails_as_documented`: **no part of the promise is ever kept**.
-/

namespace CoreOS.VirtualMemory

open CoreOS.Lib

variable {cfg : Config} (pm : PhysicalMemory cfg)

/-- `dfs_max_frame`, called for the root, comes to its `PMevict` with nothing assigned to
`saving_data`. -/
def EvictsUnassigned (p : ℕ) (m : pm.Memory) : Prop :=
  ∃ d, (List.range (cfg.children 0)).foldlM (dfsRow pm p cfg.maxTreeLevel 0)
    (⟨0, none, List.replicate cfg.tablesDepth 0⟩, m) = some (d, m) ∧ d.saving = none

/-- At some turn of the walk to the page `p` the search for a victim is called and evicts with a
`saving_data` that nothing was assigned to. -/
def PassesUnassigned (p : ℕ) (m : pm.Memory) : Prop :=
  ∃ i < cfg.tablesDepth, ∃ w, ReachesTurn pm p m i w ∧
    pm.entry w.memory w.currParent ((pageRoute cfg p).getD i 0) = 0 ∧
    FallsThrough pm w.currParent w.memory ∧ EvictsUnassigned pm p w.memory

/-- What the documentation says of an address that cannot be mapped. -/
structure FailsAsDocumented (a : ℕ) (m : pm.Memory) : Prop where
  read : ∃ x m', vmRead pm a m = some ((0, x), m')
  write : ∀ v, ∃ m', vmWrite pm a v m = some (0, m')
  assigned : ¬ PassesUnassigned pm (cfg.numOfPages a) m

/-- Nothing but the root is reached. -/
structure RootOnly (m : pm.Memory) : Prop where
  shape : Shape pm m
  root : ∀ {r f}, Reached pm m r f → r = [] ∧ f = 0

variable {pm} {m : pm.Memory} {p i : ℕ} {w : Walk pm}

/-! ## The chain of tables -/

/-- The walk to the page `p` before the turn `i`: the tables in use are the first frames, one for
each row of the route so far. -/
structure Chain (p i : ℕ) (w : Walk pm) : Prop where
  shape : Shape pm w.memory
  parent : w.currParent = i
  reached : ∀ {r g}, Reached pm w.memory r g ↔ r <+: (pageRoute cfg p).take i ∧ g = r.length

/-- At the start. -/
theorem RootOnly.chain (h : RootOnly pm m) : Chain p 0 (⟨0, 0, false, m⟩ : Walk pm) where
  shape := h.shape
  parent := rfl
  reached {r g} := by
    constructor
    · intro hr
      obtain ⟨rfl, rfl⟩ := h.root hr
      exact ⟨List.prefix_rfl, rfl⟩
    · rintro ⟨hr, rfl⟩
      rw [List.take_zero, List.prefix_nil] at hr
      subst hr
      exact reaches_root

theorem length_take_pageRoute (hi : i < cfg.tablesDepth) :
    ((pageRoute cfg p).take i).length = i := by
  rw [List.length_take, length_pageRoute]
  omega

section chain

variable (h : Chain p i w) (hi : i < cfg.tablesDepth)
include h hi

/-- The route so far leads to the last table. -/
theorem Chain.reached_parent : Reached pm w.memory ((pageRoute cfg p).take i) w.currParent :=
  h.reached.mpr ⟨List.prefix_rfl, by rw [h.parent, length_take_pageRoute hi]⟩

/-- The frames in use. -/
theorem Chain.used {g : ℕ} : (∃ r, Reached pm w.memory r g) ↔ g < i + 1 := by
  have hlen := length_take_pageRoute (p := p) hi
  constructor
  · rintro ⟨r, hr⟩
    obtain ⟨hpre, rfl⟩ := h.reached.mp hr
    have hle := hpre.length_le
    omega
  · intro hg
    refine ⟨((pageRoute cfg p).take i).take g, h.reached.mpr ⟨List.take_prefix _ _, ?_⟩⟩
    rw [List.length_take]
    omega

/-- The last table refers to nothing on the route. -/
theorem Chain.hole (hp : p < cfg.numPages) :
    pm.entry w.memory w.currParent ((pageRoute cfg p).getD i 0) = 0 := by
  have hparent := h.reached_parent hi
  have hrow := lt_of_lt_of_le (getD_pageRoute_lt h.shape hp hi hparent.2) (cfg.children_le _)
  by_contra hne
  have hchild := child_eq_some.mpr ⟨hrow, hne, rfl⟩
  have hnext := reaches_snoc.mpr ⟨_, by rw [length_take_pageRoute hi]; exact hi, hparent.2, hchild⟩
  have hle := (h.reached.mp hnext).1.length_le
  rw [List.length_append, List.length_singleton] at hle
  omega

/-- Every table but the last refers to the next one. -/
theorem Chain.occupied (g : ℕ) (hg : IsTable pm w.memory g) :
    ¬ Vacant pm w.currParent w.memory g := by
  rintro ⟨-, hempty, hne⟩
  obtain ⟨r, hr⟩ := hg.reached
  obtain ⟨hpre, rfl⟩ := h.reached.mp hr
  obtain ⟨t, ht⟩ := hpre
  rcases t with _ | ⟨d, t⟩
  · refine hne ?_
    rw [h.parent, ← length_take_pageRoute hi, ← ht, List.append_nil]
  · have hnext : Reached pm w.memory (r ++ [d]) (r.length + 1) := by
      refine h.reached.mpr ⟨⟨t, ?_⟩, by rw [List.length_append, List.length_singleton]⟩
      rw [← ht, List.append_assoc, List.singleton_append]
    obtain ⟨u, -, hu, hchild⟩ := reaches_snoc.mp hnext
    obtain rfl : u = r.length := Option.some.inj (hu.symm.trans hr.2)
    rw [checkFrameEmpty_iff.mp hempty d] at hchild
    cases hchild

/-- The search for a free frame finds the first one that is not in use. -/
theorem Chain.findFreeFrame :
    let s := findFreeFrame pm w.currParent cfg.tablesDepth 0 0 0 ⟨0, 0, w.memory⟩
    s.memory = w.memory ∧ s.finishedEmpty = 0 ∧ s.maxFrameIndex = i + 1 := by
  intro s
  rcases findFreeFrame_root h.shape w.currParent with hfound | ⟨hmem, hfin, -, -, hused⟩
  · obtain ⟨q, parent, row, hq, hparent, hchild, hvacant, -⟩ := hfound
    refine absurd hvacant (h.occupied hi _ ⟨q ++ [row], ?_, follow_snoc.mpr ⟨_, hparent, hchild⟩⟩)
    rwa [List.length_append, List.length_singleton]
  · refine ⟨hmem, hfin, ?_⟩
    have hiff : ∀ g, g < i + 1 ↔ g < s.maxFrameIndex := fun g => (h.used hi).symm.trans (hused g)
    have hlast := (hiff i).mp (Nat.lt_succ_self i)
    have hnext := mt (hiff (i + 1)).mpr (lt_irrefl _)
    omega

/-! ## One turn -/

/-- A turn with a frame left makes it the next table. -/
theorem Chain.step (hpm : pm.Lawful) (hfew : cfg.numFrames ≤ cfg.tablesDepth)
    (hp : p < cfg.numPages) (hleft : i + 1 < cfg.numFrames) :
    ∃ w', walkLevel pm p (pageRoute cfg p) w i = some w' ∧ Chain p (i + 1) w' := by
  have hmax := cfg.tablesDepth_eq
  have hparent := h.reached_parent hi
  have hhole := h.hole hi hp
  obtain ⟨hmem, hfin, hfirst⟩ := h.findFreeFrame hi
  have hget : getFrame pm p w.currParent w.memory = some (i + 1, w.memory) := by
    unfold getFrame
    dsimp only
    rw [hmem, hfin, hfirst, if_neg (not_not.mpr rfl), if_neg (not_le.mpr hleft)]
  have hres : Reserved pm w.memory w.memory (i + 1) := reserved_fresh (fun _ => h.used hi) hleft
  have hrow := getD_pageRoute_lt h.shape hp hi hparent.2
  have hlen : ((pageRoute cfg p).take i).length < cfg.tablesDepth := by
    rw [length_take_pageRoute hi]
    exact hi
  have hclear : decide (i ≠ cfg.maxTreeLevel) = true := by
    rw [decide_eq_true_eq]
    omega
  obtain ⟨hshape, hreached, -, -⟩ :=
    linked_spec hpm h.shape hres _ hparent hlen hrow hhole (Or.inr hclear)
  refine ⟨_, walkLevel_hole hhole hget hres.lt rfl, hshape, rfl, ?_⟩
  intro r g
  rw [hreached, h.reached, take_succ_pageRoute hi, List.prefix_concat_iff]
  constructor
  · rintro (⟨hr, hg⟩ | ⟨rfl, rfl⟩)
    · exact ⟨Or.inr hr, hg⟩
    · refine ⟨Or.inl rfl, ?_⟩
      rw [List.length_append, length_take_pageRoute hi, List.length_singleton]
  · rintro ⟨rfl | hr, rfl⟩
    · refine Or.inr ⟨rfl, ?_⟩
      rw [List.length_append, length_take_pageRoute hi, List.length_singleton]
    · exact Or.inl ⟨hr, rfl⟩

/-- No page has a frame. -/
theorem Chain.mappedPages_eq_nil : mappedPages pm w.memory = [] := by
  rw [List.eq_nil_iff_forall_not_mem]
  intro x hx
  have hpage := (isPage_of_mem_mappedPages h.shape hx).2.1
  have hle := (h.reached.mp hpage.reached).1.length_le
  rw [length_pageRoute, length_take_pageRoute hi] at hle
  omega

/-- The search for a victim has nothing to evict. -/
theorem Chain.evictsUnassigned : EvictsUnassigned pm p w.memory := by
  obtain ⟨d, hd, hsaving⟩ := dfs_root pm p w.memory
  rw [bestPage, h.mappedPages_eq_nil hi] at hsaving
  exact ⟨d, hd, hsaving⟩

/-- The turn that finds all frames on its route does not come to an end. -/
theorem Chain.stuck (hp : p < cfg.numPages) (hlast : i + 1 = cfg.numFrames) :
    FallsThrough pm w.currParent w.memory ∧ walkLevel pm p (pageRoute cfg p) w i = none := by
  obtain ⟨hmem, hfin, hfirst⟩ := h.findFreeFrame hi
  have hfull : FallsThrough pm w.currParent w.memory := by
    unfold FallsThrough
    dsimp only
    rw [hfin, hfirst, if_neg (not_not.mpr rfl)]
    exact hlast.ge
  refine ⟨hfull, ?_⟩
  obtain ⟨d, hd, hnone⟩ := h.evictsUnassigned hi
  have hdfs : dfsMaxFrame pm p cfg.tablesDepth 0 0 0
      (⟨0, none, List.replicate cfg.tablesDepth 0⟩, w.memory) = none := by
    generalize (Search.mk 0 none (List.replicate cfg.tablesDepth 0), w.memory) = start at hd ⊢
    rw [cfg.tablesDepth_eq, dfsMaxFrame_succ, hd, Option.bind_some, if_pos rfl, hnone,
      Option.bind_none]
  have hget : getFrame pm p w.currParent w.memory = none := by
    unfold getFrame
    dsimp only
    rw [hmem, hfin, hfirst, if_neg (not_not.mpr rfl), if_pos hlast.ge, hdfs]
    rfl
  have hword : pm.pmRead w.memory
      (w.currParent * cfg.pageSize + (pageRoute cfg p).getD i 0) = 0 := h.hole hi hp
  unfold walkLevel
  dsimp only
  rw [hword, if_pos rfl, hget]
  rfl

end chain

/-! ## The walk -/

/-- **Run lemma.** The walk builds its route out of the frames that there are. -/
theorem chain_run (hpm : pm.Lawful) (hfew : cfg.numFrames ≤ cfg.tablesDepth) (hm : RootOnly pm m)
    (hp : p < cfg.numPages) : ∀ n < cfg.numFrames,
      ∃ w, (List.range n).foldlM (walkLevel pm p (pageRoute cfg p)) ⟨0, 0, false, m⟩ = some w ∧
        Chain p n w := by
  intro n
  induction n with
  | zero => exact fun _ => ⟨_, rfl, hm.chain⟩
  | succ n ih =>
      intro hn
      obtain ⟨w, hw, hchain⟩ := ih (by omega)
      obtain ⟨w', hw', hchain'⟩ := hchain.step (by omega) hpm hfew hp hn
      refine ⟨w', ?_, hchain'⟩
      rw [List.range_succ, List.foldlM_append, hw]
      simpa using hw'

section shortage

variable (hpm : pm.Lawful) (hfew : cfg.numFrames ≤ cfg.tablesDepth) (hm : RootOnly pm m)
  (hp : p < cfg.numPages)
include hpm hfew hm hp

/-- The walk comes to a turn without a frame. -/
theorem exists_stuck : ∃ w, ReachesTurn pm p m (cfg.numFrames - 1) w ∧
    Chain p (cfg.numFrames - 1) w := by
  have hpos := cfg.frames_pos
  obtain ⟨w, hw, hchain⟩ := chain_run hpm hfew hm hp (cfg.numFrames - 1) (by omega)
  exact ⟨w, ⟨pageRoute cfg p, getBitesArray_eq hp, hw⟩, hchain⟩

/-- What is never assigned is passed to `PMevict`. -/
theorem passesUnassigned : PassesUnassigned pm p m := by
  have hpos := cfg.frames_pos
  obtain ⟨w, hw, hchain⟩ := exists_stuck hpm hfew hm hp
  have hi : cfg.numFrames - 1 < cfg.tablesDepth := by omega
  exact ⟨_, hi, w, hw, hchain.hole hi hp, (hchain.stuck hi hp (by omega)).1,
    hchain.evictsUnassigned hi⟩

/-- No frame is returned. -/
theorem getPhysicalAddress_eq_none : getPhysicalAddress pm p m = none := by
  have hpos := cfg.frames_pos
  obtain ⟨w, ⟨depth, hdepth, hw⟩, hchain⟩ := exists_stuck hpm hfew hm hp
  rw [getBitesArray_eq hp] at hdepth
  cases hdepth
  have hstuck := (hchain.stuck (by omega) hp (by omega)).2
  obtain ⟨n, hn⟩ : ∃ n, cfg.tablesDepth = cfg.numFrames - 1 + 1 + n :=
    ⟨cfg.tablesDepth - cfg.numFrames, by omega⟩
  have hwalk : (List.range cfg.tablesDepth).foldlM (walkLevel pm p (pageRoute cfg p))
      ⟨0, 0, false, m⟩ = none := by
    rw [hn, List.range_add, List.range_succ, List.foldlM_append, List.foldlM_append, hw]
    simp [hstuck]
  rw [getPhysicalAddress, getBitesArray_eq hp, Option.bind_eq_bind, Option.bind_some, hwalk]
  rfl

end shortage

/-! ## Every state -/

/-- Whatever was called before, nothing but the root is reached. -/
theorem reachable_rootOnly (hpm : pm.Lawful) (hfew : cfg.numFrames ≤ cfg.tablesDepth)
    {s : System pm} (hs : (paging pm).Reachable s) : RootOnly pm s.memory := by
  refine hs.invariant (P := fun s => RootOnly pm s.memory) ?_ ?_
  · rintro s ⟨m, rfl⟩
    exact ⟨shape_vmInitialize hpm m, reached_vmInitialize hpm m⟩
  · intro call s s' h hstep
    cases call with
    | read a =>
        obtain ⟨⟨result, m'⟩, hread, rfl⟩ := Option.map_eq_some_iff.mp hstep
        by_cases ha : a < cfg.virtualMemorySize
        · have hnone := getPhysicalAddress_eq_none hpm hfew h (cfg.numOfPages_lt ha)
          rw [vmRead, if_neg (not_le.mpr ha), hnone] at hread
          cases hread
        · rw [vmRead, if_pos (not_lt.mp ha)] at hread
          cases hread
          exact h
    | write a v =>
        obtain ⟨⟨result, m'⟩, hwrite, rfl⟩ := Option.map_eq_some_iff.mp hstep
        by_cases ha : a < cfg.virtualMemorySize
        · have hnone := getPhysicalAddress_eq_none hpm hfew h (cfg.numOfPages_lt ha)
          rw [vmWrite, if_neg (not_le.mpr ha), hnone] at hwrite
          cases hwrite
        · rw [vmWrite, if_pos (not_lt.mp ha)] at hwrite
          cases hwrite
          exact h

/-- **No part of the promise is ever kept.** In every state after `VMinitialize`, and for every
address of the virtual memory: neither call returns `0`, as the walk comes to a turn at which the
search for a victim evicts with a `saving_data` that nothing was assigned to. -/
theorem never_fails_as_documented (hpm : pm.Lawful) (hfew : cfg.numFrames ≤ cfg.tablesDepth)
    {s : System pm} (hs : (paging pm).Reachable s) {a : ℕ} (ha : a < cfg.virtualMemorySize) :
    (¬ ∃ x m', vmRead pm a s.memory = some ((0, x), m')) ∧
      (∀ v, ¬ ∃ m', vmWrite pm a v s.memory = some (0, m')) ∧
      PassesUnassigned pm (cfg.numOfPages a) s.memory := by
  have hroot := reachable_rootOnly hpm hfew hs
  have hp := cfg.numOfPages_lt ha
  have hnone := getPhysicalAddress_eq_none hpm hfew hroot hp
  refine ⟨?_, ?_, passesUnassigned hpm hfew hroot hp⟩
  · rintro ⟨x, m', hread⟩
    rw [vmRead, if_neg (not_le.mpr ha), hnone] at hread
    cases hread
  · rintro v ⟨m', hwrite⟩
    rw [vmWrite, if_neg (not_le.mpr ha), hnone] at hwrite
    cases hwrite

/-- A memory of three frames of two words for eight pages, with routes of three tables. -/
def threeFrames : Config where
  offsetWidth := 1
  virtualAddressWidth := 4
  numFrames := 3
  offset_pos := fourFrames.offset_pos
  offset_lt := fourFrames.offset_lt
  frames_pos := by decide
  frames_fit := by decide

/-- The first call after `VMinitialize`. -/
theorem never_fails_as_documented_first :
    (¬ ∃ x m', vmRead (arrayMemory threeFrames) 0
      (vmInitialize (arrayMemory threeFrames) (fun _ => 0, fun _ => none)) = some ((0, x), m')) ∧
      PassesUnassigned (arrayMemory threeFrames) (threeFrames.numOfPages 0)
        (vmInitialize (arrayMemory threeFrames) (fun _ => 0, fun _ => none)) := by
  obtain ⟨hread, -, hpasses⟩ := never_fails_as_documented (arrayMemory_lawful threeFrames)
    (by decide) (.init ⟨_, rfl⟩) (a := 0) (by decide)
  exact ⟨hread, hpasses⟩

/-- Three frames do not hold a route. -/
theorem three_frames_fail : ¬ ∀ (cfg : Config) (pm : PhysicalMemory cfg), pm.Lawful →
    cfg.numFrames ≤ cfg.tablesDepth → ∀ s, (paging pm).Reachable s →
      ∀ a < cfg.virtualMemorySize, FailsAsDocumented pm a s.memory := by
  intro hall
  have hpm := arrayMemory_lawful threeFrames
  have hreach : (paging (arrayMemory threeFrames)).Reachable
      (initialized (arrayMemory threeFrames) (fun _ => 0, fun _ => none)) := .init ⟨_, rfl⟩
  have hfails := hall threeFrames _ hpm (by decide) _ hreach 0 (by decide)
  exact hfails.assigned (passesUnassigned hpm (by decide)
    (reachable_rootOnly hpm (by decide) hreach) (threeFrames.numOfPages_lt (by decide)))

end CoreOS.VirtualMemory
