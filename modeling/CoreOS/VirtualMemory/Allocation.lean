import CoreOS.VirtualMemory.Eviction
import CoreOS.VirtualMemory.FreeFrame

/-!
# The allocation of a frame

What `get_frame` does, for every tree, and what hanging the frame into the tree does then.

* `Reserved m m' f`: from the memory `m` to `m'` the frame `f` was taken out of the tree, or never
  was in it, and nothing else changed for the pages.
* `reserved_of_cut`: emptying the entry of a frame with nothing below it reserves it.
* `exists_page`: if the memory is full and no table can be taken, some page has a frame.
* `Selection`: the three things `get_frame` can do; `getFrame_selection` and `Selection.reserved`
  say that it does one of them and reserves a frame.
* `reached_link`, `shape_link`: referring to a reserved frame adds it to the tree and keeps the
  invariant.
-/

namespace CoreOS.VirtualMemory

open CoreOS.Lib

variable {cfg : Config} (pm : PhysicalMemory cfg)

/-- Between the memories `m` and `m'` the frame `f` was put aside. -/
structure Reserved (m m' : pm.Memory) (f : ℕ) : Prop where
  /-- The root is not put aside. -/
  ne_zero : f ≠ 0
  /-- The frame exists. -/
  lt : f < cfg.numFrames
  /-- The rest of the tree is as it was. -/
  reached : ∀ r g, Reached pm m' r g ↔ Reached pm m r g ∧ g ≠ f
  /-- The frames in use, with `f`, are the first ones. -/
  used : ∃ k < cfg.numFrames, ∀ g, ((∃ r, Reached pm m' r g) ∨ g = f) ↔ g ≤ k
  /-- Empty entries stay empty. -/
  empty : ∀ g i, g < cfg.numFrames → i < cfg.pageSize → pm.entry m g i = 0 → pm.entry m' g i = 0
  /-- Every page has the words it had. -/
  view : ∀ p < cfg.numPages, pageView pm m' p = pageView pm m p

variable {pm} {m m' : pm.Memory} {f : ℕ}

/-! ## Taking a frame out of the tree -/

/-- Emptying the entry that refers to a frame with nothing below it takes the frame out of the
tree, whatever happens to the swap file. -/
theorem reached_cut (hs : Shape pm m) {q : List ℕ} {p i : ℕ}
    (hf : Reached pm m (q ++ [i]) f) (hp : follow (child pm m) 0 q = some p)
    (hbare : Bare (child pm m) cfg.tablesDepth (q ++ [i]) f)
    (hentry : ∀ g j, g < cfg.numFrames → j < cfg.pageSize →
      pm.entry m' g j = if g = p ∧ j = i then 0 else pm.entry m g j) (r : List ℕ) (g : ℕ) :
    Reached pm m' r g ↔ Reached pm m r g ∧ g ≠ f := by
  obtain ⟨p', hlen, hp', hpf⟩ := reaches_snoc.mp hf
  obtain rfl : p' = p := Option.some.inj (hp'.symm.trans hp)
  have hi : i < cfg.pageSize := (child_eq_some.mp hpf).1
  have hpt : IsTable pm m p' := ⟨q, hlen, hp'⟩
  apply reaches_unlink_iff hs.tree hf hp hbare
  · rw [child_eq_none hi, hentry _ _ (hs.table_lt hpt) hi, if_pos ⟨rfl, rfl⟩]
  · intro u hu j hpos
    unfold child
    by_cases hj : j < cfg.pageSize
    · rw [hentry u j (hs.table_lt hu) hj, if_neg hpos]
    · simp [hj]

/-- If the page that was in the frame, if any, is found in the swap file, every page has the words
it had. -/
theorem pageView_cut (hs : Shape pm m) {r : List ℕ} {w i : ℕ} (hf : Reached pm m r f)
    (hw : IsTable pm m w)
    (hreached : ∀ r g, Reached pm m' r g ↔ Reached pm m r g ∧ g ≠ f)
    (hentry : ∀ g j, g < cfg.numFrames → j < cfg.pageSize →
      pm.entry m' g j = if g = w ∧ j = i then 0 else pm.entry m g j)
    (hswap : ∀ x < cfg.numPages, pm.swap m' x =
      if pageRoute cfg x = r then some (pm.frame m f) else pm.swap m x)
    {x : ℕ} (hx : x < cfg.numPages) : pageView pm m' x = pageView pm m x := by
  have hroute : (pageRoute cfg x).length ≤ cfg.tablesDepth := (length_pageRoute x).le
  unfold pageView
  rcases hfo : follow (child pm m) 0 (pageRoute cfg x) with _ | g
  · have hfo' : follow (child pm m') 0 (pageRoute cfg x) = none := by
      apply Option.eq_none_iff_forall_ne_some.mpr
      intro g hg
      have hg' := ((hreached _ g).mp ⟨hroute, hg⟩).1.2
      rw [hfo] at hg'
      cases hg'
    have hne : pageRoute cfg x ≠ r := by
      rintro rfl
      rw [hf.2] at hfo
      cases hfo
    rw [hfo']
    dsimp only
    rw [hswap x hx, if_neg hne]
  · by_cases hgf : g = f
    · -- the page that was in the frame
      subst hgf
      have heq : pageRoute cfg x = r := hs.tree _ _ _ ⟨hroute, hfo⟩ hf
      have hfo' : follow (child pm m') 0 (pageRoute cfg x) = none := by
        apply Option.eq_none_iff_forall_ne_some.mpr
        intro u hu
        obtain ⟨hu', hne⟩ := (hreached _ u).mp ⟨hroute, hu⟩
        exact hne (Option.some.inj (hu'.2.symm.trans hfo))
      rw [hfo']
      dsimp only
      rw [hswap x hx, if_pos heq]
    · rw [((hreached _ g).mpr ⟨⟨hroute, hfo⟩, hgf⟩).2]
      dsimp only
      have hpage : IsPage pm m (pageRoute cfg x) g := ⟨length_pageRoute x, hfo⟩
      have hgw : g ≠ w := by
        rintro rfl
        exact hs.page_not_table hpage hw
      congr 1
      funext j
      rw [PhysicalMemory.frame, hentry g j (hs.lt_numFrames hpage.reached) j.isLt,
        if_neg fun h => hgw h.1]
      rfl

/-- Emptying the entry of a frame with nothing below it reserves the frame, if the page that was
in it, if any, is found in the swap file. -/
theorem reserved_of_cut (hs : Shape pm m) {q : List ℕ} {p i : ℕ}
    (hf : Reached pm m (q ++ [i]) f) (hp : follow (child pm m) 0 q = some p)
    (hbare : Bare (child pm m) cfg.tablesDepth (q ++ [i]) f)
    (hentry : ∀ g j, g < cfg.numFrames → j < cfg.pageSize →
      pm.entry m' g j = if g = p ∧ j = i then 0 else pm.entry m g j)
    (hswap : ∀ x < cfg.numPages, pm.swap m' x =
      if pageRoute cfg x = q ++ [i] then some (pm.frame m f) else pm.swap m x) :
    Reserved pm m m' f := by
  have hreached := reached_cut hs hf hp hbare hentry
  obtain ⟨p', hlen, hp', hpf⟩ := reaches_snoc.mp hf
  obtain rfl : p' = p := Option.some.inj (hp'.symm.trans hp)
  refine ⟨child_ne_zero hpf, hs.lt_numFrames hf, hreached, ?_, ?_, ?_⟩
  · obtain ⟨k, hk, hused⟩ := hs.used
    refine ⟨k, hk, ?_⟩
    intro g
    rw [← hused g]
    constructor
    · rintro (⟨r, hr⟩ | rfl)
      · exact ⟨r, ((hreached r g).mp hr).1⟩
      · exact ⟨_, hf⟩
    · rintro ⟨r, hr⟩
      by_cases hgf : g = f
      · exact Or.inr hgf
      · exact Or.inl ⟨r, (hreached r g).mpr ⟨hr, hgf⟩⟩
  · intro g j hg hj h0
    rw [hentry g j hg hj, h0, ite_self]
  · intro x hx
    exact pageView_cut hs hf ⟨q, hlen, hp'⟩ hreached hentry hswap hx

/-! ## A page to evict -/

/-- If the tables below the root are all taken and the memory is full, some page has a frame. -/
theorem exists_page (hs : Shape pm m) (hdepth : cfg.tablesDepth < cfg.numFrames) {rt : List ℕ}
    {w : ℕ} (hw : follow (child pm m) 0 rt = some w) (hlen : rt.length < cfg.tablesDepth)
    (hfull : ∀ f < cfg.numFrames, ∃ r, Reached pm m r f)
    (hoccupied : ∀ g, IsTable pm m g → ¬ Vacant pm w m g) : ∃ r f, IsPage pm m r f := by
  by_contra hno
  have hnone : ∀ r g, follow (child pm m) 0 r = some g → r.length ≠ cfg.tablesDepth :=
    fun r g hg hr => hno ⟨r, g, hr, hg⟩
  have hchild : ∀ g, IsTable pm m g → g ≠ 0 → g ≠ w → ∃ i c, child pm m g i = some c := by
    intro g hg h0 hgw
    by_contra hempty
    refine hoccupied g hg ⟨h0, checkFrameEmpty_iff.mpr ?_, hgw⟩
    intro i
    by_contra hne
    obtain ⟨c, hc⟩ := Option.ne_none_iff_exists'.mp hne
    exact hempty ⟨i, c, hc⟩
  have hprefix : ∀ f ∈ Finset.range cfg.numFrames,
      ∃ r, Reaches (child pm m) 0 cfg.tablesDepth r f ∧ r <+: rt := by
    intro f hf
    obtain ⟨r, hr⟩ := hfull f (Finset.mem_range.mp hf)
    exact ⟨r, hr, isPrefix_of_no_leaf hs.tree ⟨hlen.le, hw⟩ hchild hnone hr⟩
  have hcard := card_le_of_isPrefix _ hprefix
  rw [Finset.card_range] at hcard
  omega

/-! ## `get_frame` -/

/-- What `get_frame` can do for the page `p` while the caller works on the table `w`: the frame that
it returns and the memory that it leaves. -/
inductive Selection (w p : ℕ) (m : pm.Memory) : ℕ → pm.Memory → Prop
  /-- The empty table `f` is unlinked. -/
  | reclaim {q : List ℕ} {parent row f : ℕ} (hlen : q.length + 1 < cfg.tablesDepth)
      (hparent : follow (child pm m) 0 q = some parent)
      (hchild : child pm m parent row = some f) (hvacant : Vacant pm w m f) :
      Selection w p m f (pm.pmWrite m (parent * cfg.pageSize + row) 0)
  /-- No table can be unlinked, and the frame `f` is the first one that is not in use. -/
  | fresh {f : ℕ} (hoccupied : ∀ g, IsTable pm m g → ¬ Vacant pm w m g)
      (hused : ∀ g, (∃ r, Reached pm m r g) ↔ g < f) (hlt : f < cfg.numFrames) :
      Selection w p m f m
  /-- No table can be unlinked, every frame is in use, and the best page is evicted. -/
  | evict {x : Leaf ℕ ℕ} (hoccupied : ∀ g, IsTable pm m g → ¬ Vacant pm w m g)
      (hused : ∀ g, (∃ r, Reached pm m r g) ↔ g < cfg.numFrames) (hx : x ∈ mappedPages pm m)
      (hbest : bestPage pm p m = some x) :
      Selection w p m x.node
        (pm.pmWrite (pm.pmEvict m x.node (convertTreeRouteToDecimal cfg x.route))
          (x.parent * cfg.pageSize + x.row) 0)

/-- Unlinking an empty table puts it aside. -/
theorem reserved_reclaim (hs : Shape pm m) (hpm : pm.Lawful) {q : List ℕ} {parent row : ℕ}
    (hq : q.length + 1 < cfg.tablesDepth) (hparent : follow (child pm m) 0 q = some parent)
    (hchild : child pm m parent row = some f) (hempty : checkFrameEmpty pm f m = true) :
    Reserved pm m (pm.pmWrite m (parent * cfg.pageSize + row) 0) f := by
  have hpat : parent < cfg.numFrames := hs.table_lt ⟨q, by omega, hparent⟩
  have hrow : row < cfg.pageSize := (child_eq_some.mp hchild).1
  have hf : Reached pm m (q ++ [row]) f := reaches_snoc.mpr ⟨parent, by omega, hparent, hchild⟩
  apply reserved_of_cut hs hf hparent (Or.inr (checkFrameEmpty_iff.mp hempty))
  · intro g j hg hj
    exact hpm.entry_write 0 hpat hrow hg hj
  · intro x _
    have hne : pageRoute cfg x ≠ q ++ [row] := by
      intro heq
      have hlen' := congrArg List.length heq
      rw [length_pageRoute, List.length_append, List.length_singleton] at hlen'
      omega
    rw [hpm.swap_write _ _ _ (PhysicalMemory.address_lt hpat hrow), if_neg hne]

/-- The first frame that is not in use is aside. -/
theorem reserved_fresh (hused : ∀ g, (∃ r, Reached pm m r g) ↔ g < f) (hlt : f < cfg.numFrames) :
    Reserved pm m m f := by
  have hfree : ∀ r, ¬ Reached pm m r f := fun r hr => lt_irrefl f ((hused f).mp ⟨r, hr⟩)
  refine ⟨?_, hlt, fun r g => ⟨fun hr => ⟨hr, ?_⟩, And.left⟩, ⟨f, hlt, ?_⟩,
    fun _ _ _ _ h => h, fun _ _ => rfl⟩
  · rintro rfl
    exact hfree [] reaches_root
  · rintro rfl
    exact hfree r hr
  · intro g
    rw [hused g]
    omega

/-- Evicting a page puts its frame aside, which is not a table. -/
theorem reserved_evict (hs : Shape pm m) (hpm : pm.Lawful) {x : Leaf ℕ ℕ}
    (hx : x ∈ mappedPages pm m) :
    Reserved pm m (pm.pmWrite (pm.pmEvict m x.node (convertTreeRouteToDecimal cfg x.route))
      (x.parent * cfg.pageSize + x.row) 0) x.node ∧ ¬ IsTable pm m x.node := by
  obtain ⟨q, hq, hroute, hparent, hnode⟩ := mem_mappedPages hs hx
  have hqlen : q.length < cfg.tablesDepth := by
    rw [hq, cfg.tablesDepth_eq]
    exact Nat.lt_succ_self _
  have hpat : x.parent < cfg.numFrames := hs.table_lt ⟨q, hqlen, hparent⟩
  have hrow : x.row < cfg.pageSize := (child_eq_some.mp hnode).1
  have hf : Reached pm m (q ++ [x.row]) x.node :=
    reaches_snoc.mpr ⟨x.parent, hqlen, hparent, hnode⟩
  have hfull : (q ++ [x.row]).length = cfg.tablesDepth := by
    rw [List.length_append, List.length_singleton, hq, cfg.tablesDepth_eq]
  have hlt : x.node < cfg.numFrames := hs.lt_numFrames hf
  have hdigits := lt_of_mem_route hf.2
  have hnum : convertTreeRouteToDecimal cfg x.route = ofDigits cfg.pageSize (q ++ [x.row]) := by
    rw [hroute, convertTreeRouteToDecimal_eq hdigits]
  refine ⟨reserved_of_cut hs hf hparent (Or.inl hfull) ?_ ?_, hs.page_not_table ⟨hfull, hf.2⟩⟩
  · intro g j hg hj
    rw [hpm.entry_write 0 hpat hrow hg hj, hpm.entry_evict hlt hg hj]
  · intro y hy
    rw [hpm.swap_write _ _ _ (PhysicalMemory.address_lt hpat hrow), hpm.swap_evict _ _ _ hlt,
      hnum]
    by_cases heq : pageRoute cfg y = q ++ [x.row]
    · rw [if_pos heq, ← heq, ofDigits_pageRoute hy, Function.update_self]
    · rw [if_neg heq, Function.update_of_ne]
      rintro rfl
      exact heq (pageRoute_ofDigits hfull hdigits)

section GetFrame

variable (hs : Shape pm m) {rt : List ℕ} {w p : ℕ} (hw : follow (child pm m) 0 rt = some w)
  (hlen : rt.length < cfg.tablesDepth)
include hs hw hlen

/-- For the table `w`, which the route `rt` leads to, and a page without a frame, `get_frame` does
one of these. -/
theorem getFrame_selection (hdepth : cfg.tablesDepth < cfg.numFrames) (hp : p < cfg.numPages)
    (hmiss : follow (child pm m) 0 (pageRoute cfg p) = none) :
    ∃ f m', getFrame pm p w m = some (f, m') ∧ Selection w p m f m' := by
  unfold getFrame
  have hsearch := findFreeFrame_root hs w
  generalize findFreeFrame pm w cfg.tablesDepth 0 0 0 ⟨0, 0, m⟩ = s at hsearch
  dsimp only at hsearch ⊢
  rcases hsearch with hfound | ⟨hmem, hfin, hoccupied, hmax, hused⟩
  · rw [if_pos hfound.ne_zero]
    obtain ⟨q, parent, row, hq, hparent, hchild, hvacant, hmem⟩ := hfound
    have hlt : s.finishedEmpty < cfg.numFrames :=
      hs.lt_numFrames (reaches_snoc.mpr ⟨parent, by omega, hparent, hchild⟩)
    rw [if_neg (Nat.not_le.mpr hlt), hmem]
    exact ⟨_, _, rfl, Selection.reclaim hq hparent hchild hvacant⟩
  · have hcheck : (if s.finishedEmpty ≠ 0 then s.finishedEmpty else s.maxFrameIndex) =
        s.maxFrameIndex := if_neg (not_not.mpr hfin)
    rw [hcheck, hmem]
    generalize s.maxFrameIndex = n at *
    by_cases hn : n < cfg.numFrames
    · rw [if_neg (Nat.not_le.mpr hn)]
      exact ⟨n, m, rfl, Selection.fresh hoccupied hused hn⟩
    · obtain rfl : n = cfg.numFrames := by omega
      obtain ⟨r, g, hpage⟩ := exists_page hs hdepth hw hlen (fun f hf => (hused f).mpr hf)
        hoccupied
      have hne : pageRoute cfg p ≠ r := by
        rintro rfl
        have hr := hpage.2
        rw [hmiss] at hr
        exact absurd hr (by simp)
      obtain ⟨x, hx, hbest⟩ := exists_bestPage hs hpage hp hne
      obtain ⟨d, hd, hsaving⟩ := dfsMaxFrame_root hbest
      rw [if_pos le_rfl, hd, Option.bind_eq_bind, Option.bind_some, hsaving]
      exact ⟨_, _, rfl, Selection.evict hoccupied hused hx hbest⟩

/-- Whatever `get_frame` does, it puts a frame aside that is not `w`. -/
theorem Selection.reserved (hpm : pm.Lawful) (h : Selection w p m f m') :
    Reserved pm m m' f ∧ f ≠ w := by
  have hwt : IsTable pm m w := ⟨rt, hlen, hw⟩
  rcases h with ⟨hq, hparent, hchild, -, hempty, hfw⟩ | ⟨-, hused, hlt⟩ | ⟨-, -, hx, -⟩
  · exact ⟨reserved_reclaim hs hpm hq hparent hchild hempty, hfw⟩
  · refine ⟨reserved_fresh hused hlt, ?_⟩
    rintro rfl
    obtain ⟨r, hr⟩ := hwt.reached
    exact lt_irrefl f ((hused f).mp ⟨r, hr⟩)
  · obtain ⟨hres, hpage⟩ := reserved_evict hs hpm hx
    refine ⟨hres, ?_⟩
    rintro rfl
    exact hpage hwt

end GetFrame

/-! ## Hanging the frame into the tree -/

/-- Referring the empty row `i` of the table `w` to the frame that was put aside adds the frame to
the tree, if it is a page or an empty table. -/
theorem reached_link (hs : Shape pm m) (hres : Reserved pm m m' f) {m'' : pm.Memory}
    {rt : List ℕ} {w i : ℕ} (hw : Reached pm m' rt w) (hlen : rt.length < cfg.tablesDepth)
    (hi : i < cfg.pageSize) (hhole : pm.entry m' w i = 0)
    (hbare : rt.length + 1 = cfg.tablesDepth ∨ ∀ j < cfg.pageSize, pm.entry m'' f j = 0)
    (hentry : ∀ g j, g < cfg.numFrames → g ≠ f → j < cfg.pageSize →
      pm.entry m'' g j = if g = w ∧ j = i then toWord f else pm.entry m' g j)
    (r : List ℕ) (g : ℕ) :
    Reached pm m'' r g ↔ Reached pm m' r g ∨ r = rt ++ [i] ∧ g = f := by
  have htree : IsTree (child pm m') 0 cfg.tablesDepth := fun r r' g hr hr' =>
    hs.tree r r' g ((hres.reached r g).mp hr).1 ((hres.reached r' g).mp hr').1
  have hfit : f < 2 ^ 31 := lt_of_lt_of_le hres.lt cfg.frames_fit
  have hin : ∀ {r g}, Reached pm m' r g → g < cfg.numFrames ∧ g ≠ f := fun {r g} hr =>
    ⟨hs.lt_numFrames ((hres.reached r g).mp hr).1, ((hres.reached r g).mp hr).2⟩
  obtain ⟨hwlt, hwf⟩ := hin hw
  apply reaches_link_iff htree hw.2 hlen (fun r hr => (hin hr).2 rfl)
  · rcases hbare with hfull | hzero
    · left
      rw [List.length_append, List.length_singleton, hfull]
    · right
      intro j
      by_cases hj : j < cfg.pageSize
      · exact (child_eq_none hj).mpr (hzero j hj)
      · simp [child, hj]
  · exact (child_eq_none hi).mpr hhole
  · rw [child_eq_some, hentry w i hwlt hwf hi, if_pos ⟨rfl, rfl⟩]
    exact ⟨hi, toWord_ne_zero hres.ne_zero hfit, toIndex_toWord hfit⟩
  · intro g hg j hpos
    obtain ⟨q, hq, hqg⟩ := hg
    obtain ⟨hglt, hgf⟩ := hin ⟨hq.le, hqg⟩
    unfold child
    by_cases hj : j < cfg.pageSize
    · rw [hentry g j hglt hgf hj, if_neg hpos]
    · simp [hj]

/-- Referring a row that the searches look at to the frame that was put aside keeps the
invariant. -/
theorem shape_link (hs : Shape pm m) (hres : Reserved pm m m' f) {m'' : pm.Memory}
    {rt : List ℕ} {w i : ℕ} (hw : Reached pm m' rt w) (hlen : rt.length < cfg.tablesDepth)
    (hi : i < cfg.children w) (hhole : pm.entry m' w i = 0)
    (hbare : rt.length + 1 = cfg.tablesDepth ∨ ∀ j < cfg.pageSize, pm.entry m'' f j = 0)
    (hentry : ∀ g j, g < cfg.numFrames → g ≠ f → j < cfg.pageSize →
      pm.entry m'' g j = if g = w ∧ j = i then toWord f else pm.entry m' g j) :
    Shape pm m'' := by
  have hreached := reached_link hs hres hw hlen (lt_of_lt_of_le hi (cfg.children_le w)) hhole hbare
    hentry
  constructor
  · intro r r' g hr hr'
    rcases (hreached r g).mp hr with hr | ⟨rfl, rfl⟩
    · obtain ⟨hr, hgf⟩ := (hres.reached r g).mp hr
      rcases (hreached r' g).mp hr' with hr' | ⟨-, rfl⟩
      · exact hs.tree r r' g hr ((hres.reached r' g).mp hr').1
      · exact absurd rfl hgf
    · rcases (hreached r' g).mp hr' with hr' | ⟨rfl, -⟩
      · exact absurd rfl ((hres.reached r' g).mp hr').2
      · rfl
  · obtain ⟨k, hk, hused⟩ := hres.used
    refine ⟨k, hk, ?_⟩
    intro g
    rw [← hused g]
    constructor
    · rintro ⟨r, hr⟩
      rcases (hreached r g).mp hr with hr | ⟨-, rfl⟩
      · exact Or.inl ⟨r, hr⟩
      · exact Or.inr rfl
    · rintro (⟨r, hr⟩ | rfl)
      · exact ⟨r, (hreached r g).mpr (Or.inl hr)⟩
      · exact ⟨rt ++ [i], (hreached _ g).mpr (Or.inr ⟨rfl, rfl⟩)⟩
  · intro j hj hlt
    rw [hentry 0 j cfg.frames_pos (Ne.symm hres.ne_zero) hlt, if_neg]
    · exact hres.empty 0 j cfg.frames_pos hlt (hs.root_rows j hj hlt)
    · rintro ⟨rfl, rfl⟩
      omega

end CoreOS.VirtualMemory
