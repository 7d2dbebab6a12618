import CoreOS.VirtualMemory.Swap

/-!
# The pages that stay in memory

How many pages the memory holds at once, for every sequence of calls.

* `pagesOf cfg calls`: the pages that the calls access; `framesFor cfg pages`: the number of frames
  that the pages and the tables on their routes take.
* `Filling`: the loop invariant of a walk, as long as nothing is evicted.
* `resident_tfae`: every page that was accessed is still in memory, no page was ever evicted, and
  the pages with their tables fit into the frames, are the same thing.
* `hits_keep`: calls on pages that are in memory leave the tables and the swap file alone.
-/

namespace CoreOS.VirtualMemory

open CoreOS.Lib

variable {cfg : Config} (pm : PhysicalMemory cfg)

/-! ## Pages and frames -/

/-- The pages that the calls access, in order. -/
def pagesOf (cfg : Config) (calls : List Call) : List ℕ :=
  ((calls.map Call.address).filter (· < cfg.virtualMemorySize)).map cfg.numOfPages

/-- The routes of pages. -/
def routesOf (cfg : Config) (pages : List ℕ) : List (List ℕ) := pages.map (pageRoute cfg)

/-- The number of frames that the pages take, with the tables on their routes. -/
def framesFor (cfg : Config) (pages : List ℕ) : ℕ := (beginnings (routesOf cfg pages)).card

variable {pm}

/-- The call is a `PMevict`. -/
def SwapCall.isEvict : SwapCall pm → Bool
  | .evict _ _ _ => true
  | .restore _ _ _ => false

/-- Nothing was evicted. -/
def NoEviction (log : List (SwapCall pm)) : Prop := ∀ e ∈ log, e.isEvict = false

/-- The pages that were brought in, in order. -/
def restoredPages (log : List (SwapCall pm)) : List ℕ :=
  log.filterMap fun
    | .evict _ _ _ => none
    | .restore _ _ p => some p

/-- The frames in use are those of the pages and of the tables on their routes. -/
def Holds (pm : PhysicalMemory cfg) (m : pm.Memory) (routes : List (List ℕ)) : Prop :=
  MadeOf (child pm m) 0 cfg.tablesDepth routes

variable {m m' : pm.Memory} {pages : List ℕ} {p q f : ℕ}

theorem length_of_mem_routesOf {r : List ℕ} (h : r ∈ routesOf cfg pages) :
    r.length = cfg.tablesDepth := by
  obtain ⟨q, -, rfl⟩ := List.mem_map.mp h
  exact length_pageRoute q

/-- A page is one of those whose routes are given if its route is among the beginnings. -/
theorem pageRoute_mem_beginnings (hp : p < cfg.numPages) (hpages : ∀ q ∈ pages, q < cfg.numPages) :
    pageRoute cfg p ∈ beginnings (routesOf cfg pages) ↔ p ∈ pages := by
  constructor
  · intro h
    have hpos : 0 < cfg.tablesDepth := cfg.tablesDepth_eq ▸ Nat.succ_pos _
    obtain ⟨q, hq, heq⟩ := List.mem_map.mp
      (mem_of_mem_beginnings (fun _ => length_of_mem_routesOf) (length_pageRoute p) hpos h)
    rwa [← pageRoute_inj (hpages q hq) hp heq]
  · exact fun h => mem_beginnings.mpr (.inr ⟨_, List.mem_map_of_mem h, List.prefix_rfl⟩)

/-- A page has a frame if its route is reached. -/
theorem mapped_iff_reached : Mapped pm m p ↔ ∃ f, Reached pm m (pageRoute cfg p) f :=
  exists_congr fun _ => ⟨IsPage.reached, fun h => ⟨length_pageRoute p, h.2⟩⟩

/-- Pages that all have frames fit into the frames there are. -/
theorem framesFor_le (hs : Shape pm m) (h : ∀ p ∈ pages, Mapped pm m p) :
    framesFor cfg pages ≤ cfg.numFrames := by
  have hcard : (beginnings (routesOf cfg pages)).card ≤ (Finset.range cfg.numFrames).card := by
    apply hs.tree.card_le_card_nodes
    intro r hr
    obtain ⟨f, hf⟩ : ∃ f, Reached pm m r f := by
      rcases mem_beginnings.mp hr with rfl | ⟨_, hq, t, ht⟩
      · exact ⟨0, reaches_root⟩
      · obtain ⟨p, hp, rfl⟩ := List.mem_map.mp hq
        obtain ⟨g, hg⟩ := mapped_iff_reached.mp (h p hp)
        obtain ⟨hlen, hfollow⟩ := hg
        rw [← ht] at hlen hfollow
        obtain ⟨f, hf, -⟩ := follow_append.mp hfollow
        rw [List.length_append] at hlen
        exact ⟨f, by omega, hf⟩
    exact ⟨f, Finset.mem_range.mpr (hs.lt_numFrames hf), hf⟩
  rwa [Finset.card_range] at hcard

/-! ## The choice of a frame -/

section Selection

variable {m m' : (logged pm).Memory} {w i : ℕ} (h : Selection w p m f m')
include h

/-- `get_frame` forgets nothing. -/
theorem Selection.noEviction (hno : NoEviction m'.2) : NoEviction m.2 := by
  rcases h with - | - | -
  · exact hno
  · exact hno
  · exact fun e he => hno e (List.mem_append_left _ he)

/-- `get_frame` brings no page in. -/
theorem Selection.restoredPages_eq : restoredPages m'.2 = restoredPages m.2 := by
  rcases h with - | - | -
  · rfl
  · rfl
  · exact List.filterMap_append.trans (List.append_nil _)

variable (hholds : Holds (logged pm) m ((pageRoute cfg p).take i :: routesOf cfg pages))
include hholds

/-- Where every table is in use, `get_frame` takes a fresh frame if it evicts nothing. -/
theorem Selection.fresh_of_holds
    (hw : follow (child (logged pm) m) 0 ((pageRoute cfg p).take i) = some w)
    (hno : NoEviction m'.2) : m' = m := by
  rcases h with ⟨hlen, hparent, hchild, h0, hempty, hne⟩ | - | -
  · have htable : IsTable (logged pm) m f := by
      refine ⟨_ ++ [_], ?_, follow_snoc.mpr ⟨_, hparent, hchild⟩⟩
      rwa [List.length_append, List.length_singleton]
    obtain ⟨j, c, hc⟩ := hholds.exists_child (fun _ => length_of_mem_routesOf) hw htable h0 hne
    rw [checkFrameEmpty_iff.mp hempty j] at hc
    cases hc
  · rfl
  · exact absurd (hno _ (List.mem_append_right _ (List.mem_singleton_self _)))
      (by simp [SwapCall.isEvict])

/-- Where the route is not complete and the pages fit into the frames, `get_frame` evicts
nothing. -/
theorem Selection.fits (hfits : framesFor cfg (p :: pages) ≤ cfg.numFrames)
    (hhole : (pageRoute cfg p).take (i + 1) ∉
      beginnings ((pageRoute cfg p).take i :: routesOf cfg pages)) (hno : NoEviction m.2) :
    NoEviction m'.2 := by
  rcases h with - | - | ⟨-, hused, -, -⟩
  · exact hno
  · exact hno
  · exfalso
    have hle : (Finset.range cfg.numFrames).card ≤
        (beginnings ((pageRoute cfg p).take i :: routesOf cfg pages)).card := by
      apply card_le_card_routes
      intro g hg
      obtain ⟨r, hr⟩ := (hused g).mpr (Finset.mem_range.mp hg)
      exact ⟨r, (hholds r).mp ⟨g, hr⟩, hr⟩
    have hlt : (beginnings ((pageRoute cfg p).take i :: routesOf cfg pages)).card <
        framesFor cfg (p :: pages) := by
      rw [← Nat.add_one_le_iff, ← Finset.card_insert_of_notMem hhole, ← beginnings_take_succ]
      apply Finset.card_le_card
      intro r hr
      rcases mem_beginnings.mp hr with rfl | ⟨q, hq, hrq⟩
      · exact mem_beginnings.mpr (.inl rfl)
      rcases List.mem_cons.mp hq with rfl | hq
      · exact mem_beginnings.mpr
          (.inr ⟨_, List.mem_cons_self, hrq.trans (List.take_prefix _ _)⟩)
      · exact mem_beginnings.mpr (.inr ⟨q, List.mem_cons_of_mem _ hq, hrq⟩)
    rw [Finset.card_range] at hle
    omega

end Selection

/-! ## The walk -/

/-- The walk to the page `p` from the memory `m`, before the turn `i`, when the memory held
`pages`: as long as nothing was evicted the memory holds the pages and the route so far, and while
the pages fit nothing was. -/
structure Filling (pages : List ℕ) (p : ℕ) (m : (logged pm).Memory) (i : ℕ)
    (w : Walk (logged pm)) : Prop where
  /-- The tree is made of the routes of the pages and of the route so far. -/
  holds : NoEviction w.memory.2 →
    Holds (logged pm) w.memory ((pageRoute cfg p).take i :: routesOf cfg pages)
  /-- Nothing was evicted while the pages fit. -/
  fits : framesFor cfg (p :: pages) ≤ cfg.numFrames → NoEviction w.memory.2
  /-- The page is found missing if it was not one of them. -/
  restored : NoEviction w.memory.2 → (w.restored = true ↔ i = cfg.tablesDepth ∧ p ∉ pages)
  /-- What was evicted before. -/
  noEviction : NoEviction w.memory.2 → NoEviction m.2
  /-- No page was brought in yet. -/
  log : restoredPages w.memory.2 = restoredPages m.2

section Turn

variable {m : (logged pm).Memory} {i : ℕ} {w w' : Walk (logged pm)} (hwalk : Walking p m i w)
  (h : Filling pages p m i w) (hi : i < cfg.tablesDepth) (hp : p < cfg.numPages)
include hwalk h hi hp

/-- The turn that finds an entry. -/
theorem Filling.step_found (hpages : ∀ q ∈ pages, q < cfg.numPages)
    (hd : (pageRoute cfg p).getD i 0 < cfg.pageSize)
    (h0 : (logged pm).entry w.memory w.currParent ((pageRoute cfg p).getD i 0) ≠ 0)
    (hw' : walkLevel (logged pm) p (pageRoute cfg p) w i = some w') :
    Filling pages p m (i + 1) w' := by
  rw [walkLevel_found h0] at hw'
  cases hw'
  have hnext : ∃ g, Reached (logged pm) w.memory ((pageRoute cfg p).take (i + 1)) g := by
    rw [take_succ_pageRoute hi]
    refine ⟨_, reaches_snoc.mpr ⟨_, ?_, hwalk.parent, child_eq_some.mpr ⟨hd, h0, rfl⟩⟩⟩
    rw [List.length_take]
    omega
  have hmem : NoEviction w.memory.2 → (pageRoute cfg p).take (i + 1) ∈
      beginnings ((pageRoute cfg p).take i :: routesOf cfg pages) :=
    fun hno => (h.holds hno _).mp hnext
  refine ⟨fun hno r => ?_, h.fits, fun hno => ?_, h.noEviction, h.log⟩
  · rw [beginnings_take_succ, Finset.insert_eq_self.mpr (hmem hno)]
    exact h.holds hno r
  · rw [hwalk.not_restored hi]
    refine ⟨fun hfalse => absurd hfalse (by simp), ?_⟩
    rintro ⟨hlast, hnot⟩
    refine absurd ((pageRoute_mem_beginnings hp hpages).mp ?_) hnot
    have hroute := hmem hno
    rw [hlast, List.take_of_length_le (length_pageRoute p).le] at hroute
    rcases mem_beginnings.mp hroute with hnil | ⟨q, hq, hpq⟩
    · exact mem_beginnings.mpr (.inl hnil)
    rcases List.mem_cons.mp hq with rfl | hq
    · have hlen := hpq.length_le
      rw [length_pageRoute, List.length_take] at hlen
      omega
    · exact mem_beginnings.mpr (.inr ⟨q, hq, hpq⟩)

/-- The turn that finds an empty entry. -/
theorem Filling.step_hole (hpm : pm.Lawful) (hdepth : cfg.tablesDepth < cfg.numFrames)
    (hd : (pageRoute cfg p).getD i 0 < cfg.pageSize)
    (h0 : (logged pm).entry w.memory w.currParent ((pageRoute cfg p).getD i 0) = 0)
    (hw' : walkLevel (logged pm) p (pageRoute cfg p) w i = some w') :
    Filling pages p m (i + 1) w' := by
  have hlaw := logged_lawful pm hpm
  have hmax := cfg.tablesDepth_eq
  obtain ⟨f, m', hget, hsel, hres, hreached⟩ :=
    hwalk.selects hi hlaw hdepth hp (hwalk.miss hi hp h0)
  obtain ⟨-, hlinked, -, -⟩ := hwalk.linked hi hlaw hp h0 hres hreached
  rw [walkLevel_hole h0 hget hres.lt rfl] at hw'
  cases hw'
  have hhole : NoEviction w.memory.2 → (pageRoute cfg p).take (i + 1) ∉
      beginnings ((pageRoute cfg p).take i :: routesOf cfg pages) := by
    intro hno hmem
    obtain ⟨g, hg⟩ := (h.holds hno _).mpr hmem
    rw [take_succ_pageRoute hi] at hg
    obtain ⟨u, -, hu, hchild⟩ := reaches_snoc.mp hg
    obtain rfl : u = w.currParent := Option.some.inj (hu.symm.trans hwalk.parent)
    rw [(child_eq_none hd).mpr h0] at hchild
    cases hchild
  refine ⟨fun hno r => ?_, fun hfits => ?_, fun hno => ?_, fun hno => ?_, ?_⟩
  · rw [linked_log] at hno
    have hold := hsel.noEviction hno
    obtain rfl := hsel.fresh_of_holds (h.holds hold) hwalk.parent hno
    rw [beginnings_take_succ, Finset.mem_insert, ← h.holds hold r]
    constructor
    · rintro ⟨g, hg⟩
      rcases (hlinked r g).mp hg with hg | ⟨rfl, -⟩
      · exact .inr ⟨g, hg⟩
      · exact .inl rfl
    · rintro (rfl | ⟨g, hg⟩)
      · exact ⟨f, (hlinked _ f).mpr (.inr ⟨rfl, rfl⟩)⟩
      · exact ⟨g, (hlinked r g).mpr (.inl hg)⟩
  · rw [linked_log]
    have hno := h.fits hfits
    exact hsel.fits (h.holds hno) hfits (hhole hno) hno
  · rw [linked_log] at hno
    have hold := hsel.noEviction hno
    by_cases hlast : i = cfg.maxTreeLevel
    · rw [if_pos hlast]
      refine ⟨fun _ => ⟨by omega, fun hmem => hhole hold ?_⟩, fun _ => rfl⟩
      rw [hlast, ← hmax, List.take_of_length_le (length_pageRoute p).le]
      exact mem_beginnings.mpr
        (.inr ⟨_, List.mem_cons_of_mem _ (List.mem_map_of_mem hmem), List.prefix_rfl⟩)
    · rw [if_neg hlast, hwalk.not_restored hi]
      exact ⟨fun hfalse => absurd hfalse (by simp), fun hdepth => absurd hdepth.1 (by omega)⟩
  · rw [linked_log] at hno
    exact h.noEviction (hsel.noEviction hno)
  · rw [linked_log, hsel.restoredPages_eq, h.log]

/-- **One turn of the loop.** -/
theorem Filling.step (hpm : pm.Lawful) (hdepth : cfg.tablesDepth < cfg.numFrames)
    (hpages : ∀ q ∈ pages, q < cfg.numPages)
    (hw' : walkLevel (logged pm) p (pageRoute cfg p) w i = some w') :
    Filling pages p m (i + 1) w' := by
  have hd := lt_of_lt_of_le (getD_pageRoute_lt hwalk.shape hp hi hwalk.parent) (cfg.children_le _)
  by_cases h0 : (logged pm).entry w.memory w.currParent ((pageRoute cfg p).getD i 0) = 0
  · exact h.step_hole hwalk hi hp hpm hdepth hd h0 hw'
  · exact h.step_found hwalk hi hp hpages hd h0 hw'

end Turn

/-! ## One access -/

/-- What the calls keep that have accessed `pages`. -/
structure Filled (pages : List ℕ) (m : (logged pm).Memory) : Prop where
  /-- The tree is one. -/
  shape : Shape (logged pm) m
  /-- The pages exist. -/
  exist : ∀ q ∈ pages, q < cfg.numPages
  /-- As long as nothing was evicted the memory holds the pages. -/
  holds : NoEviction m.2 → Holds (logged pm) m (routesOf cfg pages)
  /-- Nothing was evicted while the pages fit. -/
  fits : framesFor cfg pages ≤ cfg.numFrames → NoEviction m.2
  /-- As long as nothing was evicted every page was brought in once. -/
  restored : NoEviction m.2 →
    (restoredPages m.2).Nodup ∧ ∀ q, q ∈ restoredPages m.2 ↔ q ∈ pages

/-- One page more takes as many frames or more. -/
theorem framesFor_le_cons (p : ℕ) (pages : List ℕ) :
    framesFor cfg pages ≤ framesFor cfg (p :: pages) := by
  apply Finset.card_le_card
  intro r hr
  refine mem_beginnings.mpr ((mem_beginnings.mp hr).imp id ?_)
  rintro ⟨q, hq, hrq⟩
  exact ⟨q, List.mem_cons_of_mem _ hq, hrq⟩

section Access

variable {m m' : (logged pm).Memory} (hpm : pm.Lawful)
include hpm

/-- Storing a word in the frame of a page keeps what the calls keep. -/
theorem Filled.write {r : List ℕ} (h : Filled pages m) (hpage : IsPage (logged pm) m r f)
    (i : Fin cfg.pageSize) (v : Word) :
    Filled pages ((logged pm).pmWrite m (f * cfg.pageSize + i) v) := by
  have htables : ∀ g, IsTable (logged pm) m g → ∀ j < cfg.pageSize,
      (logged pm).entry ((logged pm).pmWrite m (f * cfg.pageSize + i) v) g j =
        (logged pm).entry m g j :=
    fun g hg j hj => entry_write_page (logged_lawful pm hpm) h.shape hpage i.isLt v hg hj
  refine ⟨h.shape.congr htables, h.exist, fun hno r => ?_, h.fits, h.restored⟩
  rw [← h.holds hno r]
  exact exists_congr fun g => reached_congr htables

variable (hdepth : cfg.tablesDepth < cfg.numFrames)
include hdepth

/-- All the turns of the loop. -/
theorem filling_run (h : Filled pages m) (hp : p < cfg.numPages) : ∀ n ≤ cfg.tablesDepth, ∀ w,
    (List.range n).foldlM (walkLevel (logged pm) p (pageRoute cfg p)) ⟨0, 0, false, m⟩ = some w →
      Filling pages p m n w := by
  intro n
  induction n with
  | zero =>
      rintro - w hw
      cases hw
      refine ⟨fun hno r => ?_, fun hfits => h.fits ((framesFor_le_cons p pages).trans hfits),
        fun _ => ⟨fun hfalse => absurd hfalse (by simp), fun hzero => ?_⟩, id, rfl⟩
      · rw [List.take_zero, beginnings_nil_cons]
        exact h.holds hno r
      · exact absurd hzero.1 (cfg.tablesDepth_eq ▸ (Nat.succ_ne_zero _).symm)
  | succ n ih =>
      intro hn w hw
      obtain ⟨u, hu, hwalk⟩ := walk_run (logged_lawful pm hpm) hdepth h.shape hp n (by omega)
      rw [List.range_succ, List.foldlM_append, hu] at hw
      refine (ih (by omega) u hu).step hwalk (by omega) hp hpm hdepth h.exist ?_
      simpa using hw

/-- **One access.** It brings in one page more, if it is one more. -/
theorem Filled.access (h : Filled pages m) (hp : p < cfg.numPages) :
    ∃ f m', getPhysicalAddress (logged pm) p m = some (f, m') ∧ Filled (p :: pages) m' ∧
      IsPage (logged pm) m' (pageRoute cfg p) f := by
  have hlaw := logged_lawful pm hpm
  obtain ⟨f, m', hget, hs', hpage', -⟩ := getPhysicalAddress_spec hlaw hdepth h.shape hp
  obtain ⟨w, hw, hwalk, hpage, hget'⟩ := getPhysicalAddress_walk hlaw hdepth h.shape hp
  have hfill := filling_run hpm hdepth h hp _ le_rfl w hw
  have hholds : NoEviction w.memory.2 →
      Holds (logged pm) w.memory (routesOf cfg (p :: pages)) := by
    intro hno
    have hroute := hfill.holds hno
    rwa [List.take_of_length_le (length_pageRoute p).le] at hroute
  rw [hget] at hget'
  obtain ⟨rfl, rfl⟩ := Prod.mk.inj (Option.some.inj hget')
  refine ⟨_, _, hget, ⟨hs', List.forall_mem_cons.mpr ⟨hp, h.exist⟩, ?_, ?_, ?_⟩, hpage'⟩
  · cases hr : w.restored with
    | false => exact hholds
    | true =>
        intro hno r
        rw [← hholds (fun e he => hno e (List.mem_append_left _ he)) r]
        exact exists_congr fun g => reached_restore_page hlaw hwalk.shape hpage p r g
  · intro hfits
    cases hr : w.restored with
    | false => exact hfill.fits hfits
    | true =>
        exact List.forall_mem_append.mpr
          ⟨hfill.fits hfits, List.forall_mem_singleton.mpr rfl⟩
  · cases hr : w.restored with
    | false =>
        intro hno
        have hold := h.restored (hfill.noEviction hno)
        have hmem : p ∈ pages := by
          by_contra hnot
          have htrue := (hfill.restored hno).mpr ⟨rfl, hnot⟩
          rw [hr] at htrue
          cases htrue
        rw [if_neg (by simp), hfill.log]
        refine ⟨hold.1, fun q => ?_⟩
        rw [hold.2 q, List.mem_cons]
        exact ⟨.inr, fun hq => hq.elim (fun heq => heq ▸ hmem) id⟩
    | true =>
        intro hno
        have hno' : NoEviction w.memory.2 := fun e he => hno e (List.mem_append_left _ he)
        have hold := h.restored (hfill.noEviction hno')
        have hnot : p ∉ pages := ((hfill.restored hno').mp hr).2
        have hlog : restoredPages ((logged pm).pmRestore w.memory w.currParent p).2 =
            restoredPages m.2 ++ [p] := by
          rw [← hfill.log]
          exact List.filterMap_append
        rw [if_pos rfl, hlog]
        refine ⟨?_, fun q => ?_⟩
        · exact hold.1.append (List.nodup_singleton p)
            (List.disjoint_singleton.mpr fun hmem => hnot ((hold.2 p).mp hmem))
        · rw [List.mem_append, List.mem_singleton, hold.2 q, List.mem_cons, or_comm]

end Access

/-! ## Sequences of calls -/

/-- A call out of range accesses no page. -/
theorem pagesOf_singleton (c : Call) : pagesOf cfg [c] =
    if c.address < cfg.virtualMemorySize then [cfg.numOfPages c.address] else [] := by
  by_cases ha : c.address < cfg.virtualMemorySize <;> simp [pagesOf, ha]

theorem pagesOf_append (calls more : List Call) :
    pagesOf cfg (calls ++ more) = pagesOf cfg calls ++ pagesOf cfg more := by
  simp only [pagesOf, List.map_append, List.filter_append]

/-- A call in range accesses its page, and then reads it or stores a word in its frame. -/
theorem exists_step_in_range {s : System pm} {c : Call} (ha : c.address < cfg.virtualMemorySize)
    (hget : getPhysicalAddress pm (cfg.numOfPages c.address) s.memory = some (f, m')) :
    ∃ s', (paging pm).step c s = some s' ∧ (s'.memory = m' ∨
      ∃ v, s'.memory = pm.pmWrite m' (f * cfg.pageSize + rowOf cfg c.address) v) := by
  have hin : ¬ c.address ≥ cfg.virtualMemorySize := Nat.not_le.mpr ha
  rcases c with a | ⟨a, v⟩
  · have hread : vmRead pm a s.memory =
        some ((1, some (pm.pmRead m' (f * cfg.pageSize + cfg.offset a))), m') := by
      change getPhysicalAddress pm (cfg.numOfPages a) s.memory = _ at hget
      rw [vmRead, if_neg (by exact hin), hget]
      rfl
    exact ⟨_, step_read hread, .inl rfl⟩
  · have hwrite : vmWrite pm a v s.memory =
        some (1, pm.pmWrite m' (f * cfg.pageSize + cfg.offset a) v) := by
      change getPhysicalAddress pm (cfg.numOfPages a) s.memory = _ at hget
      rw [vmWrite, if_neg (by exact hin), hget]
      rfl
    exact ⟨_, step_write hwrite, .inr ⟨v, rfl⟩⟩

/-- A call out of range leaves the memory as it is. -/
theorem exists_step_out_of_range {s : System pm} {c : Call}
    (ha : cfg.virtualMemorySize ≤ c.address) :
    ∃ s', (paging pm).step c s = some s' ∧ s'.memory = s.memory := by
  rcases c with a | ⟨a, v⟩
  · exact ⟨_, step_read (if_pos ha), rfl⟩
  · exact ⟨_, step_write (if_pos ha), rfl⟩

/-- Only which pages were accessed matters. -/
theorem Filled.congr {m : (logged pm).Memory} {pages' : List ℕ} (h : Filled pages m)
    (hpages : ∀ q, q ∈ pages ↔ q ∈ pages') : Filled pages' m := by
  have hroutes : ∀ r, r ∈ routesOf cfg pages ↔ r ∈ routesOf cfg pages' := by
    intro r
    simp only [routesOf, List.mem_map, hpages]
  refine ⟨h.shape, fun q hq => h.exist q ((hpages q).mpr hq),
    fun hno => (h.holds hno).congr hroutes, ?_, fun hno => ?_⟩
  · rw [framesFor, ← beginnings_congr hroutes]
    exact h.fits
  · exact ⟨(h.restored hno).1, fun q => ((h.restored hno).2 q).trans (hpages q)⟩

/-- After `VMinitialize` the memory holds no page. -/
theorem filled_initialized (hpm : pm.Lawful) (m : pm.Memory) :
    Filled [] (initialized (logged pm) (unlogged pm m)).memory := by
  have hlaw := logged_lawful pm hpm
  have hlog : (vmInitialize (logged pm) (unlogged pm m)).2 = [] :=
    linked_log (unlogged pm m) true 0 0 0
  have hno : NoEviction (vmInitialize (logged pm) (unlogged pm m)).2 := by
    rw [hlog]
    exact fun e he => absurd he List.not_mem_nil
  refine ⟨shape_vmInitialize hlaw _, fun q hq => absurd hq List.not_mem_nil, fun _ r => ?_,
    fun _ => hno, fun _ => ?_⟩
  · constructor
    · rintro ⟨g, hg⟩
      exact mem_beginnings.mpr (.inl (reached_vmInitialize hlaw _ hg).1)
    · intro hr
      obtain rfl : r = [] := by simpa [mem_beginnings, routesOf] using hr
      exact ⟨0, reaches_root⟩
  · show (restoredPages (vmInitialize (logged pm) (unlogged pm m)).2).Nodup ∧
      ∀ q, q ∈ restoredPages (vmInitialize (logged pm) (unlogged pm m)).2 ↔ q ∈ []
    rw [hlog]
    exact ⟨.nil, fun q => Iff.rfl⟩

/-- As long as nothing was evicted every page is in memory. -/
theorem Filled.mapped {m : (logged pm).Memory} (h : Filled pages m) (hno : NoEviction m.2) :
    ∀ p ∈ pages, Mapped (logged pm) m p := by
  intro p hp
  exact mapped_iff_reached.mpr ((h.holds hno _).mpr
    ((pageRoute_mem_beginnings (h.exist p hp) h.exist).mpr hp))

section Runs

variable (hpm : pm.Lawful) (hdepth : cfg.tablesDepth < cfg.numFrames) {s : System (logged pm)}
include hpm hdepth

/-- **Step rule.** A call accesses one page more, if it is in range. -/
theorem Filled.step (h : Filled pages s.memory) (c : Call) :
    ∃ s', (paging (logged pm)).step c s = some s' ∧
      Filled (pagesOf cfg [c] ++ pages) s'.memory := by
  rw [pagesOf_singleton]
  by_cases ha : c.address < cfg.virtualMemorySize
  · obtain ⟨f, m', hget, h', hpage⟩ := h.access hpm hdepth (cfg.numOfPages_lt ha)
    obtain ⟨s', hstep, hread | ⟨v, hwrite⟩⟩ := exists_step_in_range ha hget
    · exact ⟨s', hstep, by rwa [if_pos ha, hread]⟩
    · refine ⟨s', hstep, ?_⟩
      rw [if_pos ha, hwrite]
      exact h'.write hpm hpage (rowOf cfg c.address) v
  · obtain ⟨s', hstep, hm⟩ := exists_step_out_of_range (s := s) (Nat.le_of_not_lt ha)
    exact ⟨s', hstep, by rwa [if_neg ha, hm]⟩

/-- **Run rule.** -/
theorem Filled.run (calls : List Call) : ∀ {pages : List ℕ} {s : System (logged pm)},
    Filled pages s.memory → ∃ s', (paging (logged pm)).run calls s = some s' ∧
      Filled (pagesOf cfg calls ++ pages) s'.memory := by
  induction calls with
  | nil => exact fun h => ⟨_, rfl, h⟩
  | cons c calls ih =>
      intro pages s h
      obtain ⟨u, hstep, hu⟩ := h.step hpm hdepth c
      obtain ⟨s', hrun, hs'⟩ := ih hu
      refine ⟨s', (Machine.run_cons _).mpr ⟨u, hstep, hrun⟩, hs'.congr fun q => ?_⟩
      have hsplit : pagesOf cfg (c :: calls) = pagesOf cfg [c] ++ pagesOf cfg calls :=
        pagesOf_append [c] calls
      rw [hsplit]
      simp only [List.mem_append]
      tauto

/-- **What fits stays.** After every sequence of calls that follows `VMinitialize`, these are the
same: every page that was accessed is in memory; no page was ever evicted; the pages and the tables
on their routes are at most as many as the frames. And then every page was brought in once. -/
theorem resident_tfae {m : pm.Memory} {calls : List Call}
    (hrun : (paging (logged pm)).run calls (initialized (logged pm) (unlogged pm m)) = some s) :
    [∀ p ∈ pagesOf cfg calls, Mapped pm s.memory.1 p,
      NoEviction s.memory.2,
      framesFor cfg (pagesOf cfg calls) ≤ cfg.numFrames].TFAE ∧
    (NoEviction s.memory.2 → (restoredPages s.memory.2).Nodup ∧
      ∀ p, p ∈ restoredPages s.memory.2 ↔ p ∈ pagesOf cfg calls) := by
  obtain ⟨s', hrun', h⟩ := (filled_initialized hpm m).run hpm hdepth calls
  rw [hrun] at hrun'
  cases hrun'
  rw [List.append_nil] at h
  refine ⟨?_, h.restored⟩
  tfae_have 1 → 3 := framesFor_le (shape_logged pm h.shape)
  tfae_have 3 → 2 := h.fits
  tfae_have 2 → 1 := h.mapped
  tfae_finish

end Runs

/-- A configuration with room for two pages of one table, or for one page of another. -/
theorem resident_tfae_run : ∃ s s' : System (logged (arrayMemory fourFrames)),
    (paging (logged (arrayMemory fourFrames))).run [.write 0 100, .read 1] (initialized
      (logged (arrayMemory fourFrames)) (unlogged _ (fun _ => 0, fun _ => none))) = some s ∧
    (∀ p ∈ pagesOf fourFrames [.write 0 100, .read 1],
      Mapped (arrayMemory fourFrames) s.memory.1 p) ∧
    (paging (logged (arrayMemory fourFrames))).run fourPages (initialized
      (logged (arrayMemory fourFrames)) (unlogged _ (fun _ => 7, fun _ => none))) = some s' ∧
    ¬ NoEviction s'.memory.2 := by
  have hlaw := arrayMemory_lawful fourFrames
  obtain ⟨s, hrun, -⟩ := (filled_initialized hlaw (fun _ => 0, fun _ => none)).run hlaw (by decide)
    [.write 0 100, .read 1]
  obtain ⟨s', hrun', -⟩ := (filled_initialized hlaw (fun _ => 7, fun _ => none)).run hlaw
    (by decide) fourPages
  have h := (resident_tfae hlaw (by decide) hrun).1
  have h' := (resident_tfae hlaw (by decide) hrun').1
  refine ⟨s, s', hrun, (h.out 2 0).mp (by decide +kernel), hrun', fun hno => ?_⟩
  exact absurd ((h'.out 1 2).mp hno) (by decide +kernel)

/-! ## Calls on pages that are in memory -/

section Hits

variable (hpm : pm.Lawful) (hdepth : cfg.tablesDepth < cfg.numFrames) (hs : Shape pm m)
include hpm hdepth hs

/-- The walk to a page that has a frame finds every entry. -/
theorem walk_hit (hp : p < cfg.numPages) (hpage : Mapped pm m p) : ∀ n ≤ cfg.tablesDepth, ∀ w,
    (List.range n).foldlM (walkLevel pm p (pageRoute cfg p)) ⟨0, 0, false, m⟩ = some w →
      w.memory = m ∧ w.restored = false := by
  intro n
  induction n with
  | zero =>
      rintro - w hw
      cases hw
      exact ⟨rfl, rfl⟩
  | succ n ih =>
      intro hn w hw
      obtain ⟨u, hu, hwalk⟩ := walk_run hpm hdepth hs hp n (by omega)
      obtain ⟨hmem, hres⟩ := ih (by omega) u hu
      rw [List.range_succ, List.foldlM_append, hu] at hw
      have hfound : pm.entry u.memory u.currParent ((pageRoute cfg p).getD n 0) ≠ 0 := by
        intro h0
        have hmiss := hwalk.miss (by omega) hp h0
        obtain ⟨g, hg⟩ := hpage
        rw [hmem, hg.2] at hmiss
        cases hmiss
      have hw' : walkLevel pm p (pageRoute cfg p) u n = some w := by simpa using hw
      rw [walkLevel_found hfound] at hw'
      cases hw'
      exact ⟨hmem, hres⟩

/-- Looking up a page that has a frame changes nothing. -/
theorem getPhysicalAddress_hit (hp : p < cfg.numPages) (hpage : IsPage pm m (pageRoute cfg p) f) :
    getPhysicalAddress pm p m = some (f, m) := by
  obtain ⟨w, hw, -, hpage', hget⟩ := getPhysicalAddress_walk hpm hdepth hs hp
  obtain ⟨hmem, hres⟩ := walk_hit hpm hdepth hs hp ⟨f, hpage⟩ _ le_rfl w hw
  rw [hmem] at hpage'
  rw [hget, hres, if_neg (by simp), hmem, Option.some.inj (hpage'.2.symm.trans hpage.2)]

end Hits

/-- From `m` to `m'` only the words of the given pages have changed. -/
structure OnlyPages (pages : List ℕ) (m m' : (logged pm).Memory) : Prop where
  /-- The swap file was not asked for anything. -/
  log : m'.2 = m.2
  /-- The same frames are in use, by the same routes. -/
  reached : ∀ r f, Reached (logged pm) m' r f ↔ Reached (logged pm) m r f
  /-- The frames of no other page, and no table, have changed. -/
  frame : ∀ g < cfg.numFrames, (∀ p ∈ pages, ¬ IsPage (logged pm) m (pageRoute cfg p) g) →
    (logged pm).frame m' g = (logged pm).frame m g

namespace OnlyPages

variable {m m' : (logged pm).Memory} (h : OnlyPages pages m m')
include h

theorem mono {pages' : List ℕ} (hsub : ∀ p ∈ pages, p ∈ pages') : OnlyPages pages' m m' :=
  ⟨h.log, h.reached, fun g hg hnot => h.frame g hg fun p hp => hnot p (hsub p hp)⟩

/-- Storing a word in the frame of one of the pages. -/
theorem write (hpm : pm.Lawful) (hs : Shape (logged pm) m') (hp : p ∈ pages)
    (hpage : IsPage (logged pm) m' (pageRoute cfg p) f) {i : Fin cfg.pageSize} {v : Word} :
    OnlyPages pages m ((logged pm).pmWrite m' (f * cfg.pageSize + i) v) := by
  have hlaw := logged_lawful pm hpm
  refine ⟨h.log, fun r g => ?_, fun g hg hnot => ?_⟩
  · rw [← h.reached r g]
    exact reached_congr fun u hu j hj => entry_write_page hlaw hs hpage i.isLt v hu hj
  · rw [← h.frame g hg hnot]
    have hgf : g ≠ f := by
      rintro rfl
      exact hnot p hp ⟨hpage.1, ((h.reached _ g).mp hpage.reached).2⟩
    funext j
    rw [PhysicalMemory.frame,
      hlaw.entry_write v (hs.lt_numFrames hpage.reached) i.isLt hg j.isLt,
      if_neg fun heq => hgf heq.1]
    rfl

end OnlyPages

/-- **Hits.** In every state that calls lead to, calls on pages that are in memory ask nothing of
the swap file, leave every page in its frame, and change no table and no frame of another page. -/
theorem hits_keep (hpm : pm.Lawful) (hdepth : cfg.tablesDepth < cfg.numFrames) {m : pm.Memory}
    {calls more : List Call} {s : System (logged pm)}
    (hrun : (paging (logged pm)).run calls (initialized (logged pm) (unlogged pm m)) = some s)
    (hmapped : ∀ p ∈ pagesOf cfg more, Mapped (logged pm) s.memory p) :
    ∃ s', (paging (logged pm)).run more s = some s' ∧
      OnlyPages (pagesOf cfg more) s.memory s'.memory := by
  have hlaw := logged_lawful pm hpm
  obtain ⟨t, hrun', h⟩ := (filled_initialized hpm m).run hpm hdepth calls
  rw [hrun] at hrun'
  cases hrun'
  induction more using List.reverseRecOn with
  | nil => exact ⟨s, rfl, rfl, fun _ _ => Iff.rfl, fun _ _ _ => rfl⟩
  | append_singleton more c ih =>
      rw [pagesOf_append] at hmapped ⊢
      obtain ⟨u, hu, hkept⟩ := ih fun p hp => hmapped p (List.mem_append_left _ hp)
      obtain ⟨u', hu', hfilled⟩ := h.run hpm hdepth more
      rw [hu] at hu'
      cases hu'
      have hrest : OnlyPages (pagesOf cfg more ++ pagesOf cfg [c]) s.memory u.memory :=
        hkept.mono fun p hp => List.mem_append_left _ hp
      by_cases ha : c.address < cfg.virtualMemorySize
      · have hmem : cfg.numOfPages c.address ∈ pagesOf cfg more ++ pagesOf cfg [c] := by
          rw [pagesOf_singleton, if_pos ha]
          exact List.mem_append_right _ (List.mem_singleton_self _)
        obtain ⟨g, hg⟩ := hmapped _ hmem
        have hpage : IsPage (logged pm) u.memory (pageRoute cfg (cfg.numOfPages c.address)) g :=
          ⟨hg.1, ((hkept.reached _ g).mpr hg.reached).2⟩
        obtain ⟨s', hstep, hread | ⟨v, hwrite⟩⟩ := exists_step_in_range ha
          (getPhysicalAddress_hit hlaw hdepth hfilled.shape (cfg.numOfPages_lt ha) hpage)
        · refine ⟨s', (Machine.run_append _).mpr ⟨u, hu, (Machine.run_singleton _).mpr hstep⟩, ?_⟩
          rwa [hread]
        · refine ⟨s', (Machine.run_append _).mpr ⟨u, hu, (Machine.run_singleton _).mpr hstep⟩, ?_⟩
          rw [hwrite]
          exact hrest.write hpm hfilled.shape hmem hpage
      · obtain ⟨s', hstep, hm⟩ := exists_step_out_of_range (s := u) (Nat.le_of_not_lt ha)
        refine ⟨s', (Machine.run_append _).mpr ⟨u, hu, (Machine.run_singleton _).mpr hstep⟩, ?_⟩
        rwa [hm]

/-- A page that stays in its frame while it and another one are read and written. -/
theorem hits_keep_run : ∃ s s' : System (logged (arrayMemory fourFrames)),
    (paging (logged (arrayMemory fourFrames))).run [.write 0 100] (initialized
      (logged (arrayMemory fourFrames)) (unlogged _ (fun _ => 0, fun _ => none))) = some s ∧
    (paging (logged (arrayMemory fourFrames))).run [.write 1 5, .read 0] s = some s' ∧
    OnlyPages (pagesOf fourFrames [.write 1 5, .read 0]) s.memory s'.memory := by
  have hlaw := arrayMemory_lawful fourFrames
  obtain ⟨s, hrun, hfilled⟩ :=
    (filled_initialized hlaw (fun _ => 0, fun _ => none)).run hlaw (by decide) [.write 0 100]
  have hfirst := hfilled.mapped (hfilled.fits (by decide +kernel))
  have hsame : ∀ p ∈ pagesOf fourFrames [.write 1 5, .read 0],
      p ∈ pagesOf fourFrames [.write 0 100] ++ [] := by decide +kernel
  obtain ⟨s', hmore, hkept⟩ := hits_keep hlaw (by decide) hrun fun p hp => hfirst p (hsame p hp)
  exact ⟨s, s', hrun, hmore, hkept⟩

end CoreOS.VirtualMemory
