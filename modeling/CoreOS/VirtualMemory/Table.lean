import CoreOS.Lib.Radix
import CoreOS.Lib.RouteTree
import CoreOS.VirtualMemory.Paging

/-!
# The tree in the memory

The frames that the entries of the tables refer to, as a tree in the sense of `Lib/RouteTree`.

* `child`: the frame that an entry refers to; `Reached`, `IsTable`, `IsPage`: the frames in use.
* `pageRoute`: the route of a page; `getBitesArray_eq` and `convertTreeRouteToDecimal_eq` say that
  the source computes routes and page numbers by the digits of the number.
* `Shape`: the invariant of the tree between two allocations.
* `pageView`: the words of a page, in its frame or in the swap file.
* `clearTable` and `checkFrameEmpty`, and what writes do to the tree.
-/

namespace CoreOS.VirtualMemory

open CoreOS.Lib

variable {cfg : Config} (pm : PhysicalMemory cfg)

/-! ## Entries and frames -/

/-- The frame that the row `i` of the table `f` refers to. -/
def child (m : pm.Memory) (f i : ℕ) : Option ℕ :=
  if i < cfg.pageSize ∧ pm.entry m f i ≠ 0 then some (pm.entry m f i).toIndex else none

/-- The rows `r`, from the root, lead to the frame `f`. -/
def Reached (m : pm.Memory) (r : List ℕ) (f : ℕ) : Prop :=
  Reaches (child pm m) 0 cfg.tablesDepth r f

/-- `f` is used as a table. -/
def IsTable (m : pm.Memory) (f : ℕ) : Prop := Inner (child pm m) 0 cfg.tablesDepth f

/-- The route `r` of a page leads to the frame `f`. -/
def IsPage (m : pm.Memory) (r : List ℕ) (f : ℕ) : Prop :=
  r.length = cfg.tablesDepth ∧ follow (child pm m) 0 r = some f

/-- The route of a page. -/
def pageRoute (cfg : Config) (p : ℕ) : List ℕ := toDigits cfg.pageSize cfg.tablesDepth p

/-- The words of a page: those of its frame while it has one, else those in the swap file. -/
def pageView (m : pm.Memory) (p : ℕ) : Option (Fin cfg.pageSize → Word) :=
  match follow (child pm m) 0 (pageRoute cfg p) with
  | some f => some (pm.frame m f)
  | none => pm.swap m p

/-- The invariant of the tree. -/
structure Shape (m : pm.Memory) : Prop where
  /-- No frame is reached by two routes. -/
  tree : IsTree (child pm m) 0 cfg.tablesDepth
  /-- The frames in use are the first ones. -/
  used : ∃ k < cfg.numFrames, ∀ f, (∃ r, Reached pm m r f) ↔ f ≤ k
  /-- The rows of the root that are no first digit of a page number are empty. -/
  root_rows : ∀ i, cfg.children 0 ≤ i → i < cfg.pageSize → pm.entry m 0 i = 0

variable {pm} {m m' : pm.Memory} {f g i j p : ℕ} {r : List ℕ}

/-- An entry refers to a frame if it is not `0`. -/
theorem child_eq_some :
    child pm m f i = some g ↔
      i < cfg.pageSize ∧ pm.entry m f i ≠ 0 ∧ (pm.entry m f i).toIndex = g := by
  unfold child
  split_ifs with h
  · rw [Option.some.injEq]
    exact ⟨fun hg => ⟨h.1, h.2, hg⟩, fun hg => hg.2.2⟩
  · constructor
    · intro hg
      exact absurd hg (by simp)
    · rintro ⟨hi, h0, -⟩
      exact absurd ⟨hi, h0⟩ h

/-- An entry that is `0` refers to no frame. -/
theorem child_eq_none (hi : i < cfg.pageSize) :
    child pm m f i = none ↔ pm.entry m f i = 0 := by
  unfold child
  simp [hi]

/-- No entry refers to the root. -/
theorem child_ne_zero (h : child pm m f i = some g) : g ≠ 0 := by
  obtain ⟨-, h0, rfl⟩ := child_eq_some.mp h
  rwa [Ne, toIndex_eq_zero]

/-- Tables with the same entries refer to the same frames. -/
theorem child_congr {f' : ℕ} (h : ∀ i < cfg.pageSize, pm.entry m' f' i = pm.entry m f i) (i : ℕ) :
    child pm m' f' i = child pm m f i := by
  unfold child
  by_cases hi : i < cfg.pageSize
  · rw [h i hi]
  · simp [hi]

/-- The root is a table. -/
theorem isTable_root : IsTable pm m 0 := by
  refine ⟨[], ?_, rfl⟩
  rw [cfg.tablesDepth_eq]
  exact Nat.succ_pos _

/-- A table is in use. -/
theorem IsTable.reached (h : IsTable pm m f) : ∃ r, Reached pm m r f := by
  obtain ⟨r, hlen, hr⟩ := h
  exact ⟨r, hlen.le, hr⟩

/-- The frame of a page is in use. -/
theorem IsPage.reached (h : IsPage pm m r f) : Reached pm m r f := ⟨h.1.le, h.2⟩

/-- The digits of a route are rows of a table. -/
theorem lt_of_mem_route (h : follow (child pm m) f r = some g) : ∀ d ∈ r, d < cfg.pageSize := by
  induction r generalizing f with
  | nil => simp
  | cons i r ih =>
      obtain ⟨u, hu, hr⟩ := follow_cons.mp h
      intro d hd
      rcases List.mem_cons.mp hd with rfl | hd
      · exact (child_eq_some.mp hu).1
      · exact ih hr d hd

namespace Shape

variable (hs : Shape pm m)
include hs

/-- Every frame in use exists. -/
theorem lt_numFrames (h : Reached pm m r f) : f < cfg.numFrames := by
  obtain ⟨k, hk, hused⟩ := hs.used
  exact lt_of_le_of_lt ((hused f).mp ⟨r, h⟩) hk

/-- Every table exists. -/
theorem table_lt (h : IsTable pm m f) : f < cfg.numFrames := by
  obtain ⟨r, hr⟩ := h.reached
  exact hs.lt_numFrames hr

/-- The searches look at every row that refers to a frame. -/
theorem row_lt (h : child pm m f i = some g) : i < cfg.children f := by
  obtain ⟨hi, h0, -⟩ := child_eq_some.mp h
  by_cases hf : f = 0
  · subst hf
    by_contra hge
    exact h0 (hs.root_rows i (Nat.le_of_not_lt hge) hi)
  · rwa [cfg.children_of_ne hf]

/-- The frame of a page is no table. -/
theorem page_not_table (h : IsPage pm m r f) : ¬ IsTable pm m f := hs.tree.not_inner h.2 h.1

end Shape

/-! ## Page numbers -/

/-- The number of digits of a route. -/
@[simp] theorem length_pageRoute (p : ℕ) : (pageRoute cfg p).length = cfg.tablesDepth :=
  length_toDigits _ _

/-- The source computes a page number from the digits. -/
theorem convertTreeRouteToDecimal_eq (hr : ∀ d ∈ r, d < cfg.pageSize) :
    convertTreeRouteToDecimal cfg r = ofDigits cfg.pageSize r := by
  induction r using List.reverseRecOn with
  | nil => rfl
  | append_singleton r d ih =>
      have hd : d < 2 ^ cfg.offsetWidth := hr d (by simp)
      have ih' := ih fun e he => hr e (by simp [he])
      unfold convertTreeRouteToDecimal at ih' ⊢
      rw [List.foldl_append, ih', ofDigits_snoc, List.foldl_cons, List.foldl_nil,
        ← Nat.shiftLeft_add_eq_or_of_lt hd, Nat.shiftLeft_eq]
      rfl

/-- The route of a page number is the route it was computed from. -/
theorem pageRoute_ofDigits (hlen : r.length = cfg.tablesDepth) (hr : ∀ d ∈ r, d < cfg.pageSize) :
    pageRoute cfg (ofDigits cfg.pageSize r) = r := by
  rw [pageRoute, ← hlen, toDigits_ofDigits hr]

/-- The page number of the route of a page. -/
theorem ofDigits_pageRoute (hp : p < cfg.numPages) :
    ofDigits cfg.pageSize (pageRoute cfg p) = p :=
  ofDigits_toDigits (lt_of_lt_of_le hp cfg.numPages_le)

/-- Different pages have different routes. -/
theorem pageRoute_inj {q : ℕ} (hp : p < cfg.numPages) (hq : q < cfg.numPages)
    (h : pageRoute cfg p = pageRoute cfg q) : p = q := by
  rw [← ofDigits_pageRoute hp, h, ofDigits_pageRoute hq]

/-- Rows of a route of a page are rows of a table. -/
theorem pageRoute_lt : ∀ d ∈ pageRoute cfg p, d < cfg.pageSize :=
  fun _ hd => toDigits_lt cfg.pageSize_pos hd

/-- The first row of a route of a page is a row of the root that the searches look at. -/
theorem pageRoute_head_lt (hp : p < cfg.numPages) (h : pageRoute cfg p = i :: r) :
    i < cfg.children 0 := by
  unfold pageRoute at h
  have hle := cfg.numPages_le
  rw [cfg.tablesDepth_eq] at h hle
  rw [cfg.children_root]
  apply toDigits_head_lt h (lt_of_lt_of_le hp hle)
  rwa [← cfg.numPages_eq]

/-- Every route of full length is the route of a page. -/
theorem Shape.ofDigits_lt_numPages (hs : Shape pm m) (h : IsPage pm m r f) :
    ofDigits cfg.pageSize r < cfg.numPages := by
  obtain ⟨hlen, hr⟩ := h
  rw [cfg.tablesDepth_eq] at hlen
  obtain ⟨i, r, rfl⟩ : ∃ i r', r = i :: r' := List.exists_cons_of_length_eq_add_one hlen
  obtain ⟨g, hg, -⟩ := follow_cons.mp hr
  have hi : i < 2 ^ cfg.rootWidth := by
    rw [← cfg.children_root]
    exact hs.row_lt hg
  rw [cfg.numPages_eq, ← Nat.succ.inj hlen]
  exact ofDigits_lt hi fun d hd => lt_of_mem_route hr d (List.mem_cons_of_mem _ hd)

/-- The rows that are still to be written, followed by those that are, when the number that is left
is below `b ^ count`. -/
theorem getBitesArray_aux : ∀ {count p : ℕ} (written : List ℕ), p < cfg.pageSize ^ count →
    getBitesArray cfg count p (List.replicate count 0 ++ written) =
      some (toDigits cfg.pageSize count p ++ written)
  | 0, p, _, hp => by
      rw [pow_zero, Nat.lt_one_iff] at hp
      subst hp
      rfl
  | count + 1, p, written, hp => by
      have hshift : p >>> cfg.offsetWidth = p / cfg.pageSize := Nat.shiftRight_eq_div_pow _ _
      have hmask : p &&& (cfg.pageSize - 1) = p % cfg.pageSize :=
        Nat.and_two_pow_sub_one_eq_mod _ _
      have hlt : p / cfg.pageSize < cfg.pageSize ^ count := by
        rw [pow_succ, mul_comm] at hp
        exact Nat.div_lt_of_lt_mul hp
      have hsplit : List.replicate (count + 1) 0 ++ written =
          List.replicate count 0 ++ 0 :: written := by
        rw [List.replicate_succ', List.append_assoc, List.singleton_append]
      rw [getBitesArray, toDigits, hshift, hmask, hsplit]
      split_ifs with h0
      · have hset : (List.replicate count 0 ++ 0 :: written).set count (p % cfg.pageSize) =
            List.replicate count 0 ++ (p % cfg.pageSize) :: written := by
          rw [List.set_append_right _ _ (by simp)]
          simp
        rw [hset, getBitesArray_aux _ hlt, List.append_assoc, List.singleton_append]
      · -- the digits that are left are all `0`
        obtain rfl : p = 0 := by omega
        have hzero : ∀ n, toDigits cfg.pageSize n 0 = List.replicate n 0 := by
          intro n
          induction n with
          | zero => rfl
          | succ n ih => rw [toDigits, Nat.zero_div, Nat.zero_mod, ih, List.replicate_succ']
        rw [Nat.zero_div, Nat.zero_mod, hzero, List.append_assoc, List.singleton_append]

/-- The source computes the route of a page by the digits of its number. -/
theorem getBitesArray_eq (hp : p < cfg.numPages) :
    getBitesArray cfg cfg.tablesDepth p (List.replicate cfg.tablesDepth 0) =
      some (pageRoute cfg p) := by
  have h := getBitesArray_aux [] (lt_of_lt_of_le hp cfg.numPages_le)
  rwa [List.append_nil, List.append_nil] at h

/-! ## Frames as a whole -/

/-- The loop of `clear_table` after `n` rows. -/
theorem clear_rows (hpm : pm.Lawful) (hf : f < cfg.numFrames) {n : ℕ} (hn : n ≤ cfg.pageSize) :
    let m' := (List.range n).foldl (fun m i => pm.pmWrite m (f * cfg.pageSize + i) 0) m
    pm.swap m' = pm.swap m ∧ ∀ g j, g < cfg.numFrames → j < cfg.pageSize →
      pm.entry m' g j = if g = f ∧ j < n then 0 else pm.entry m g j := by
  induction n with
  | zero => simp
  | succ n ih =>
      obtain ⟨hswap, hentry⟩ := ih (by omega)
      simp only [List.range_succ, List.foldl_append, List.foldl_cons, List.foldl_nil]
      constructor
      · rw [hpm.swap_write _ _ _ (PhysicalMemory.address_lt hf (by omega)), hswap]
      · intro g j hg hj
        rw [hpm.entry_write 0 hf (by omega) hg hj, hentry g j hg hj]
        grind

/-- `clear_table` changes the frame it is called for only. -/
theorem entry_clearTable (hpm : pm.Lawful) (hf : f < cfg.numFrames) (hg : g < cfg.numFrames)
    (hj : j < cfg.pageSize) :
    pm.entry (clearTable pm f m) g j = if g = f then 0 else pm.entry m g j := by
  have h := (clear_rows (m := m) hpm hf le_rfl).2 g j hg hj
  simp only [hj, and_true] at h
  exact h

/-- `clear_table` leaves the swap file as it is. -/
theorem swap_clearTable (hpm : pm.Lawful) (hf : f < cfg.numFrames) :
    pm.swap (clearTable pm f m) = pm.swap m := (clear_rows hpm hf le_rfl).1

/-- An empty frame is one whose rows refer to no frame. -/
theorem checkFrameEmpty_iff : checkFrameEmpty pm f m = true ↔ ∀ i, child pm m f i = none := by
  unfold checkFrameEmpty
  rw [List.all_eq_true]
  constructor
  · intro h i
    by_cases hi : i < cfg.pageSize
    · rw [child_eq_none hi]
      exact beq_iff_eq.mp (h i (List.mem_range.mpr hi))
    · simp [child, hi]
  · intro h i hi
    exact beq_iff_eq.mpr ((child_eq_none (List.mem_range.mp hi)).mp (h i))

/-! ## Changes of the memory -/

/-- A change of the memory that leaves the tables as they are leaves the tree as it is. -/
theorem reached_congr (h : ∀ g, IsTable pm m g → ∀ i < cfg.pageSize,
    pm.entry m' g i = pm.entry m g i) {r : List ℕ} {f : ℕ} :
    Reached pm m' r f ↔ Reached pm m r f := by
  apply reaches_congr
  intro g hg i
  exact child_congr (h g hg) i

/-- Trees with the same routes have the same frames for the pages. -/
theorem follow_pageRoute_congr (h : ∀ r f, Reached pm m' r f ↔ Reached pm m r f) (p : ℕ) :
    follow (child pm m') 0 (pageRoute cfg p) = follow (child pm m) 0 (pageRoute cfg p) := by
  have hlen : (pageRoute cfg p).length ≤ cfg.tablesDepth := (length_pageRoute p).le
  ext f
  have := h (pageRoute cfg p) f
  unfold Reached Reaches at this
  simpa [hlen] using this

/-- Trees with the same routes have the same tables. -/
theorem isTable_congr (h : ∀ r f, Reached pm m' r f ↔ Reached pm m r f) {f : ℕ} :
    IsTable pm m' f ↔ IsTable pm m f := by
  constructor
  · rintro ⟨r, hlen, hr⟩
    exact ⟨r, hlen, ((h r f).mp ⟨hlen.le, hr⟩).2⟩
  · rintro ⟨r, hlen, hr⟩
    exact ⟨r, hlen, ((h r f).mpr ⟨hlen.le, hr⟩).2⟩

/-- A change of the memory that leaves the tables as they are keeps the invariant. -/
theorem Shape.congr (hs : Shape pm m) (h : ∀ g, IsTable pm m g → ∀ i < cfg.pageSize,
    pm.entry m' g i = pm.entry m g i) : Shape pm m' where
  tree r r' f hr hr' := hs.tree r r' f ((reached_congr h).mp hr) ((reached_congr h).mp hr')
  used := by
    obtain ⟨k, hk, hused⟩ := hs.used
    refine ⟨k, hk, ?_⟩
    intro f
    rw [← hused f]
    exact exists_congr fun r => reached_congr h
  root_rows i hi hlt := by
    rw [h 0 isTable_root i hlt]
    exact hs.root_rows i hi hlt

/-- `VMinitialize` empties the root. -/
theorem entry_vmInitialize (hpm : pm.Lawful) (m : pm.Memory) {i : ℕ} (hi : i < cfg.pageSize) :
    pm.entry (vmInitialize pm m) 0 i = 0 := by
  rw [vmInitialize, entry_clearTable hpm cfg.frames_pos cfg.frames_pos hi, if_pos rfl]

/-- After `VMinitialize` nothing but the root is reached. -/
theorem reached_vmInitialize (hpm : pm.Lawful) (m : pm.Memory) {r : List ℕ} {f : ℕ}
    (h : Reached pm (vmInitialize pm m) r f) : r = [] ∧ f = 0 := by
  obtain ⟨-, hr⟩ := h
  rcases r with _ | ⟨i, r⟩
  · exact ⟨rfl, (Option.some.inj hr).symm⟩
  · obtain ⟨g, hg, -⟩ := follow_cons.mp hr
    obtain ⟨hi, hne, -⟩ := child_eq_some.mp hg
    exact absurd (entry_vmInitialize hpm m hi) hne

/-- `VMinitialize` leaves a tree that is the root. -/
theorem shape_vmInitialize (hpm : pm.Lawful) (m : pm.Memory) : Shape pm (vmInitialize pm m) := by
  have h0 : 0 < cfg.numFrames := cfg.frames_pos
  have hroot : ∀ r f, Reached pm (vmInitialize pm m) r f → r = [] ∧ f = 0 :=
    fun _ _ h => reached_vmInitialize hpm m h
  constructor
  · intro r r' f hr hr'
    rw [(hroot r f hr).1, (hroot r' f hr').1]
  · refine ⟨0, h0, ?_⟩
    intro f
    constructor
    · rintro ⟨r, hr⟩
      exact (hroot r f hr).2.le
    · intro hf
      obtain rfl : f = 0 := Nat.le_zero.mp hf
      exact ⟨[], reaches_root⟩
  · exact fun i _ hi => entry_vmInitialize hpm m hi

end CoreOS.VirtualMemory
