import CoreOS.VirtualMemory.Table

/-!
# Routes and page numbers

The number of a page and its route are computed from each other, whatever the widths: the width of
an address need not be a multiple of that of an offset, so the row of the root may have fewer bits
than the rows of the other tables.

* `IsRoute cfg r`: a list of rows that `CHILDREN` admits, one for every level.
* `pageRoute_isRoute`, `ofDigits_lt_numPages`: routes and page numbers correspond.
* `routes_bijection`: `get_bites_array` and `convert_tree_route_to_decimal` are inverse to each
  other and keep the order, and the rows of the root that the searches look at are those in use.
-/

namespace CoreOS.VirtualMemory

open CoreOS.Lib

variable {cfg : Config} {p q i : ℕ} {r r' : List ℕ}

/-- A row for every level, each below the number of rows that the table at that level has. -/
structure IsRoute (cfg : Config) (r : List ℕ) : Prop where
  /-- There is a row for every level. -/
  length : r.length = cfg.tablesDepth
  /-- A row is a row of a table. -/
  rows : ∀ d ∈ r, d < cfg.pageSize
  /-- The first row has the width of the root. -/
  root : ∀ d, r[0]? = some d → d < 2 ^ cfg.rootWidth

/-- The route of a page is one. -/
theorem pageRoute_isRoute (hp : p < cfg.numPages) : IsRoute cfg (pageRoute cfg p) where
  length := length_pageRoute p
  rows := pageRoute_lt
  root d hd := by
    rcases h : pageRoute cfg p with _ | ⟨c, r⟩
    · rw [h] at hd
      cases hd
    · rw [h] at hd
      cases hd
      rw [← cfg.children_root]
      exact pageRoute_head_lt hp h

namespace IsRoute

variable (h : IsRoute cfg r)
include h

/-- The number of a route is that of a page. -/
theorem ofDigits_lt_numPages : ofDigits cfg.pageSize r < cfg.numPages := by
  have hlen := h.length
  rw [cfg.tablesDepth_eq] at hlen
  obtain ⟨d, r, rfl⟩ := List.exists_cons_of_length_eq_add_one hlen
  rw [cfg.numPages_eq, ← Nat.succ.inj hlen]
  exact ofDigits_lt (h.root d rfl) fun e he => h.rows e (List.mem_cons_of_mem _ he)

/-- A route is the route of its number. -/
theorem pageRoute_eq : pageRoute cfg (ofDigits cfg.pageSize r) = r :=
  pageRoute_ofDigits h.length h.rows

/-- The numbers of two routes compare as the routes do. -/
theorem lt_iff (h' : IsRoute cfg r') :
    ofDigits cfg.pageSize r < ofDigits cfg.pageSize r' ↔ r < r' :=
  ofDigits_lt_ofDigits (h.length.trans h'.length.symm) h.rows h'.rows

end IsRoute

/-- The routes of two pages compare as the pages do. -/
theorem pageRoute_lt_iff (hp : p < cfg.numPages) (hq : q < cfg.numPages) :
    pageRoute cfg p < pageRoute cfg q ↔ p < q := by
  rw [← (pageRoute_isRoute hp).lt_iff (pageRoute_isRoute hq), ofDigits_pageRoute hp,
    ofDigits_pageRoute hq]

/-- Every row of the root that the searches look at is on the route of a page. -/
theorem exists_pageRoute_root (hi : i < cfg.children 0) :
    ∃ p < cfg.numPages, (pageRoute cfg p)[0]? = some i := by
  have hroute : IsRoute cfg (i :: List.replicate cfg.maxTreeLevel 0) := by
    refine ⟨by rw [List.length_cons, List.length_replicate, cfg.tablesDepth_eq], ?_, ?_⟩
    · intro d hd
      rcases List.mem_cons.mp hd with rfl | hd
      · exact lt_of_lt_of_le hi (cfg.children_le 0)
      · rw [(List.mem_replicate.mp hd).2]
        exact cfg.pageSize_pos
    · intro d hd
      cases hd
      rwa [← cfg.children_root]
  exact ⟨_, hroute.ofDigits_lt_numPages, by rw [hroute.pageRoute_eq]; rfl⟩

/-- **Page routes are a bijection that the searches cover.** For every page, `get_bites_array` on an
array of zeros writes rows of that array only, a route, and `convert_tree_route_to_decimal` gives
the page back. Every route converts to a page, from which `get_bites_array` recovers it. Routes
compare as their pages do. And the rows of the root up to `CHILDREN` are the first rows of the
routes of pages. -/
theorem routes_bijection (cfg : Config) :
    (∀ p < cfg.numPages, ∃ r,
      getBitesArray cfg cfg.tablesDepth p (List.replicate cfg.tablesDepth 0) = some r ∧
        IsRoute cfg r ∧ convertTreeRouteToDecimal cfg r = p) ∧
    (∀ r, IsRoute cfg r → convertTreeRouteToDecimal cfg r < cfg.numPages ∧
      getBitesArray cfg cfg.tablesDepth (convertTreeRouteToDecimal cfg r)
        (List.replicate cfg.tablesDepth 0) = some r) ∧
    (∀ r r', IsRoute cfg r → IsRoute cfg r' →
      (r < r' ↔ convertTreeRouteToDecimal cfg r < convertTreeRouteToDecimal cfg r')) ∧
    ∀ i, i < cfg.children 0 ↔ ∃ p < cfg.numPages, ∃ r,
      getBitesArray cfg cfg.tablesDepth p (List.replicate cfg.tablesDepth 0) = some r ∧
        r[0]? = some i := by
  refine ⟨?_, ?_, ?_, ?_⟩
  · intro p hp
    refine ⟨_, getBitesArray_eq hp, pageRoute_isRoute hp, ?_⟩
    rw [convertTreeRouteToDecimal_eq pageRoute_lt, ofDigits_pageRoute hp]
  · intro r hr
    rw [convertTreeRouteToDecimal_eq hr.rows]
    refine ⟨hr.ofDigits_lt_numPages, ?_⟩
    rw [getBitesArray_eq hr.ofDigits_lt_numPages, hr.pageRoute_eq]
  · intro r r' hr hr'
    rw [convertTreeRouteToDecimal_eq hr.rows, convertTreeRouteToDecimal_eq hr'.rows]
    exact (hr.lt_iff hr').symm
  · intro i
    constructor
    · intro hi
      obtain ⟨p, hp, hhead⟩ := exists_pageRoute_root hi
      exact ⟨p, hp, _, getBitesArray_eq hp, hhead⟩
    · rintro ⟨p, hp, r, hr, hhead⟩
      rw [getBitesArray_eq hp] at hr
      cases hr
      rw [cfg.children_root]
      exact (pageRoute_isRoute hp).root i hhead

end CoreOS.VirtualMemory
