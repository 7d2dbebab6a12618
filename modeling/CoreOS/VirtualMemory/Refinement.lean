import CoreOS.VirtualMemory.Translation

/-!
# A flat memory

The interface of `ex4/VirtualMemory.cpp` behaves as a memory without frames, and its tables stay a
tree.

* `flatMemory`: the abstract machine, a value for every address that was accessed before.
* `Represents m t`: the physical memory `m` holds the values of the flat memory `t`.
* `vmRead_represents`, `vmWrite_represents`, `step_represents`: the calls keep it.
* `lastValue`: the value of the most recent call on an address; `flat_run_lastValue`.
* `refines_flat_memory`: every sequence of calls is one of the flat memory.
* `WellShaped`: what the tables look like to somebody who reads them; `tables_well_shaped`.
-/

namespace CoreOS.VirtualMemory

open CoreOS.Lib Function

/-! ## The flat memory -/

/-- A call of the flat memory: a read in range succeeds and yields the value of the address, if it
has one, a write in range succeeds and sets it, and a call out of range fails and does nothing. -/
def flatStep (cfg : Config) (e : Event) (t : ℕ → Option Word) : Option (ℕ → Option Word) :=
  match e.call with
  | .read a =>
      if a < cfg.virtualMemorySize then
        if e.result = 1 ∧ e.value.isSome ∧ (t a = none ∨ t a = e.value) then
          some (update t a e.value)
        else none
      else if e.result = 0 then some t else none
  | .write a v =>
      if a < cfg.virtualMemorySize then
        if e.result = 1 then some (update t a (some v)) else none
      else if e.result = 0 then some t else none

/-- The flat memory. At first no address has a value. -/
def flatMemory (cfg : Config) : Machine (ℕ → Option Word) Event where
  init t := t = fun _ => none
  step := flatStep cfg

/-- The value of the most recent call on the address `a`: the value read, or the value written. -/
def lastValue (a : ℕ) (events : List Event) : Option Word :=
  events.reverse.findSome? fun e =>
    match e.call with
    | .read b => if b = a then e.value else none
    | .write b v => if b = a then some v else none

/-- The flat memory holds the value of the most recent call on every address in range. -/
theorem flat_run_lastValue {cfg : Config} {events : List Event} {t : ℕ → Option Word}
    (h : (flatMemory cfg).run events (fun _ => none) = some t) {a : ℕ}
    (ha : a < cfg.virtualMemorySize) : t a = lastValue a events := by
  induction events using List.reverseRecOn generalizing t with
  | nil =>
      cases h
      rfl
  | append_singleton events e ih =>
      obtain ⟨u, hu, hstep⟩ := (Machine.run_append _).mp h
      rw [Machine.run_singleton] at hstep
      have ih' := ih hu
      unfold lastValue at ih' ⊢
      rw [List.reverse_append, List.reverse_singleton, List.singleton_append,
        List.findSome?_cons, ← ih']
      unfold flatMemory flatStep at hstep
      dsimp only at hstep
      rcases hcall : e.call with b | ⟨b, v⟩
      · rw [hcall] at hstep
        dsimp only at hstep ⊢
        by_cases hba : b = a
        · subst hba
          rw [if_pos ha] at hstep
          split_ifs at hstep with hok
          obtain ⟨v, hv⟩ := Option.isSome_iff_exists.mp hok.2.1
          cases hstep
          rw [update_self, if_pos rfl, hv]
        · rw [if_neg hba]
          split_ifs at hstep <;> cases hstep
          · rw [update_of_ne (Ne.symm hba)]
          · rfl
      · rw [hcall] at hstep
        dsimp only at hstep ⊢
        by_cases hba : b = a
        · subst hba
          rw [if_pos ha] at hstep
          split_ifs at hstep
          cases hstep
          rw [update_self, if_pos rfl]
        · rw [if_neg hba]
          split_ifs at hstep <;> cases hstep
          · rw [update_of_ne (Ne.symm hba)]
          · rfl

/-! ## The simulation -/

variable {cfg : Config} {pm : PhysicalMemory cfg}

/-- The row of an address in its page. -/
def rowOf (cfg : Config) (a : ℕ) : Fin cfg.pageSize :=
  ⟨cfg.offset a, by rw [cfg.offset_eq]; exact Nat.mod_lt _ cfg.pageSize_pos⟩

/-- The physical memory `m` holds the values of the flat memory `t`, in frames or in the swap
file. -/
structure Represents (m : pm.Memory) (t : ℕ → Option Word) : Prop where
  /-- The tables are a tree. -/
  shape : Shape pm m
  /-- The page of an address with a value has that value in the row of the address. -/
  value : ∀ a < cfg.virtualMemorySize, ∀ v, t a = some v →
    ∃ c, pageView pm m (cfg.numOfPages a) = some c ∧ c (rowOf cfg a) = v

variable {m : pm.Memory} {t : ℕ → Option Word} {a : ℕ}

/-- What both calls do first: the page of the address is brought in, and the values stay. -/
theorem access_represents (hpm : pm.Lawful) (hdepth : cfg.tablesDepth < cfg.numFrames)
    (h : Represents m t) (ha : a < cfg.virtualMemorySize) :
    ∃ f m', getPhysicalAddress pm (cfg.numOfPages a) m = some (f, m') ∧ Represents m' t ∧
      IsPage pm m' (pageRoute cfg (cfg.numOfPages a)) f := by
  obtain ⟨f, m', hget, hs, hpage, hother, hself⟩ :=
    getPhysicalAddress_spec hpm hdepth h.shape (cfg.numOfPages_lt ha)
  refine ⟨f, m', hget, ⟨hs, ?_⟩, hpage⟩
  intro b hb v hv
  obtain ⟨c, hc, hcv⟩ := h.value b hb v hv
  by_cases hba : cfg.numOfPages b = cfg.numOfPages a
  · rw [hba] at hc ⊢
    refine ⟨c, ?_, hcv⟩
    rw [pageView, hpage.2]
    exact congrArg some (hself c hc)
  · exact ⟨c, by rw [hother _ (cfg.numOfPages_lt hb) hba, hc], hcv⟩

/-- A read yields the value of the address, which it has afterwards in any case. -/
theorem vmRead_represents (hpm : pm.Lawful) (hdepth : cfg.tablesDepth < cfg.numFrames)
    (h : Represents m t) (ha : a < cfg.virtualMemorySize) :
    ∃ v m', vmRead pm a m = some ((1, some v), m') ∧ (t a = none ∨ t a = some v) ∧
      Represents m' (update t a (some v)) := by
  obtain ⟨f, m', hget, hrep, hpage⟩ := access_represents hpm hdepth h ha
  have hview : pageView pm m' (cfg.numOfPages a) = some (pm.frame m' f) := by
    rw [pageView, hpage.2]
  refine ⟨pm.frame m' f (rowOf cfg a), m', ?_, ?_, hrep.shape, ?_⟩
  · rw [vmRead, if_neg (Nat.not_le.mpr ha), hget]
    rfl
  · rcases hta : t a with _ | v
    · exact Or.inl rfl
    · obtain ⟨c, hc, hcv⟩ := hrep.value a ha v hta
      rw [hview] at hc
      cases hc
      exact Or.inr (congrArg some hcv.symm)
  · intro b hb v hv
    by_cases hba : b = a
    · subst hba
      rw [update_self] at hv
      exact ⟨_, hview, Option.some.inj hv⟩
    · rw [update_of_ne hba] at hv
      exact hrep.value b hb v hv

section Write

variable (hpm : pm.Lawful) (hs : Shape pm m) {f : ℕ}
include hpm hs

/-- Writing to the frame of a page leaves the tables as they are. -/
theorem entry_write_page {r : List ℕ} (hpage : IsPage pm m r f) {i : ℕ} (hi : i < cfg.pageSize)
    (v : Word) {g j : ℕ} (hg : IsTable pm m g) (hj : j < cfg.pageSize) :
    pm.entry (pm.pmWrite m (f * cfg.pageSize + i) v) g j = pm.entry m g j := by
  rw [hpm.entry_write v (hs.lt_numFrames hpage.reached) hi (hs.table_lt hg) hj, if_neg]
  rintro ⟨rfl, -⟩
  exact hs.page_not_table hpage hg

variable {p : ℕ} (hpage : IsPage pm m (pageRoute cfg p) f) (i : Fin cfg.pageSize) (v : Word)
include hpage

/-- Writing to the frame of a page leaves the routes as they are. -/
theorem follow_write_page (q : ℕ) :
    follow (child pm (pm.pmWrite m (f * cfg.pageSize + i) v)) 0 (pageRoute cfg q) =
      follow (child pm m) 0 (pageRoute cfg q) := by
  apply follow_pageRoute_congr
  intro r g
  apply reached_congr
  intro u hu j hj
  exact entry_write_page hpm hs hpage i.isLt v hu hj

/-- The page has the word in its row, and the words it had in the others. -/
theorem pageView_write_self : pageView pm (pm.pmWrite m (f * cfg.pageSize + i) v) p =
    some (update (pm.frame m f) i v) := by
  have hlt := hs.lt_numFrames hpage.reached
  rw [pageView, follow_write_page hpm hs hpage, hpage.2]
  apply congrArg some
  funext j
  rw [PhysicalMemory.frame, hpm.entry_write v hlt i.isLt hlt j.isLt]
  by_cases hji : j = i
  · rw [hji, update_self, if_pos ⟨rfl, rfl⟩]
  · rw [update_of_ne hji, if_neg fun h => hji (Fin.ext h.2)]
    rfl

/-- Every other page has the words it had. -/
theorem pageView_write_of_ne (hp : p < cfg.numPages) {q : ℕ} (hq : q < cfg.numPages)
    (hne : q ≠ p) : pageView pm (pm.pmWrite m (f * cfg.pageSize + i) v) q = pageView pm m q := by
  have hlt := hs.lt_numFrames hpage.reached
  unfold pageView
  rw [follow_write_page hpm hs hpage]
  rcases hg : follow (child pm m) 0 (pageRoute cfg q) with _ | g
  · dsimp only
    rw [hpm.swap_write _ _ _ (PhysicalMemory.address_lt hlt i.isLt)]
  · have hqpage : IsPage pm m (pageRoute cfg q) g := ⟨length_pageRoute q, hg⟩
    have hgf : g ≠ f := by
      rintro rfl
      exact hne (pageRoute_inj hq hp (hs.tree _ _ _ hqpage.reached hpage.reached))
    apply congrArg some
    funext j
    rw [PhysicalMemory.frame, hpm.entry_write v hlt i.isLt (hs.lt_numFrames hqpage.reached) j.isLt,
      if_neg fun h => hgf h.1]
    rfl

end Write

/-- A write sets the value of the address. -/
theorem vmWrite_represents (hpm : pm.Lawful) (hdepth : cfg.tablesDepth < cfg.numFrames)
    (h : Represents m t) (ha : a < cfg.virtualMemorySize) (v : Word) :
    ∃ m', vmWrite pm a v m = some (1, m') ∧ Represents m' (update t a (some v)) := by
  obtain ⟨f, m', hget, hrep, hpage⟩ := access_represents hpm hdepth h ha
  have hs := hrep.shape
  have hself := pageView_write_self hpm hs hpage (rowOf cfg a) v
  refine ⟨pm.pmWrite m' (f * cfg.pageSize + rowOf cfg a) v, ?_, ?_, ?_⟩
  · rw [vmWrite, if_neg (Nat.not_le.mpr ha), hget]
    rfl
  · exact hs.congr fun g hg j hj => entry_write_page hpm hs hpage (rowOf cfg a).isLt v hg hj
  · intro b hb u hu
    by_cases hba : b = a
    · subst hba
      rw [update_self] at hu
      refine ⟨_, hself, ?_⟩
      rw [update_self]
      exact Option.some.inj hu
    · rw [update_of_ne hba] at hu
      obtain ⟨c, hc, hcu⟩ := hrep.value b hb u hu
      by_cases hpages : cfg.numOfPages b = cfg.numOfPages a
      · -- another word of the same page
        have hrow : rowOf cfg b ≠ rowOf cfg a := fun hrow =>
          hba (cfg.address_inj hpages (congrArg Fin.val hrow))
        rw [hpages] at hc ⊢
        refine ⟨_, hself, ?_⟩
        rw [pageView, hpage.2] at hc
        cases hc
        rw [update_of_ne hrow, hcu]
      · refine ⟨c, ?_, hcu⟩
        rw [pageView_write_of_ne hpm hs hpage _ v (cfg.numOfPages_lt ha) (cfg.numOfPages_lt hb)
          hpages, hc]

/-- A read as a step of the system. -/
theorem step_read {s : System pm} {r : ℕ × Option Word} {m' : pm.Memory}
    (h : vmRead pm a s.memory = some (r, m')) :
    (paging pm).step (.read a) s = some ⟨m', s.events ++ [⟨.read a, r.1, r.2⟩]⟩ := by
  show (vmRead pm a s.memory).map _ = _
  rw [h]
  rfl

/-- A write as a step of the system. -/
theorem step_write {s : System pm} {v : Word} {r : ℕ} {m' : pm.Memory}
    (h : vmWrite pm a v s.memory = some (r, m')) :
    (paging pm).step (.write a v) s = some ⟨m', s.events ++ [⟨.write a v, r, none⟩]⟩ := by
  show (vmWrite pm a v s.memory).map _ = _
  rw [h]
  rfl

/-- **Simulation.** Every call succeeds, and the flat memory makes the same call with the same
result. -/
theorem step_represents (hpm : pm.Lawful) (hdepth : cfg.tablesDepth < cfg.numFrames)
    {s : System pm} (h : Represents s.memory t) (c : Call) :
    ∃ s' e t', (paging pm).step c s = some s' ∧ s'.events = s.events ++ [e] ∧ e.call = c ∧
      (flatMemory cfg).step e t = some t' ∧ Represents s'.memory t' := by
  rcases c with a | ⟨a, v⟩
  · by_cases ha : a < cfg.virtualMemorySize
    · obtain ⟨v, m', hread, hv, hrep⟩ := vmRead_represents hpm hdepth h ha
      refine ⟨_, _, _, step_read hread, rfl, rfl, ?_, hrep⟩
      show ite _ _ _ = _
      rw [if_pos ha, if_pos ⟨rfl, rfl, hv⟩]
    · refine ⟨_, _, t, step_read (if_pos (Nat.le_of_not_lt ha)), rfl, rfl, ?_, h⟩
      show ite _ _ _ = _
      rw [if_neg ha, if_pos rfl]
  · by_cases ha : a < cfg.virtualMemorySize
    · obtain ⟨m', hwrite, hrep⟩ := vmWrite_represents hpm hdepth h ha v
      refine ⟨_, _, _, step_write hwrite, rfl, rfl, ?_, hrep⟩
      show ite _ _ _ = _
      rw [if_pos ha, if_pos rfl]
    · refine ⟨_, _, t, step_write (if_pos (Nat.le_of_not_lt ha)), rfl, rfl, ?_, h⟩
      show ite _ _ _ = _
      rw [if_neg ha, if_pos rfl]

/-- After `VMinitialize` no value is held. -/
theorem represents_initialized (hpm : pm.Lawful) (m : pm.Memory) :
    Represents (initialized pm m).memory fun _ => none :=
  ⟨shape_vmInitialize hpm m, fun _ _ _ hv => absurd hv (by simp)⟩

/-- Every sequence of calls runs through, as a sequence of calls of the flat memory. -/
theorem run_represents (hpm : pm.Lawful) (hdepth : cfg.tablesDepth < cfg.numFrames)
    (m : pm.Memory) (calls : List Call) :
    ∃ s t, (paging pm).run calls (initialized pm m) = some s ∧ s.events.map Event.call = calls ∧
      (flatMemory cfg).run s.events (fun _ => none) = some t ∧ Represents s.memory t := by
  induction calls using List.reverseRecOn with
  | nil => exact ⟨_, _, rfl, rfl, rfl, represents_initialized hpm m⟩
  | append_singleton calls c ih =>
      obtain ⟨s, t, hrun, hcalls, hflat, hrep⟩ := ih
      obtain ⟨s', e, t', hstep, hevents, hcall, hflat', hrep'⟩ :=
        step_represents hpm hdepth hrep c
      refine ⟨s', t', ?_, ?_, ?_, hrep'⟩
      · exact (Machine.run_append _).mpr ⟨s, hrun, (Machine.run_singleton _).mpr hstep⟩
      · rw [hevents, List.map_append, hcalls, List.map_singleton, hcall]
      · rw [hevents]
        exact (Machine.run_append _).mpr ⟨t, hflat, (Machine.run_singleton _).mpr hflat'⟩

/-- **The virtual memory refines a flat memory.** Every sequence of calls after `VMinitialize` runs
through and is a sequence of calls of the flat memory: a read in range returns `1` and yields the
value of the most recent call on its address, if there is one, and a call out of range returns
`0`. -/
theorem refines_flat_memory (hpm : pm.Lawful) (hdepth : cfg.tablesDepth < cfg.numFrames)
    (m : pm.Memory) (calls : List Call) :
    ∃ s, (paging pm).run calls (initialized pm m) = some s ∧ s.events.map Event.call = calls ∧
      (∃ t, (flatMemory cfg).run s.events (fun _ => none) = some t) ∧
      ∀ before e after, s.events = before ++ e :: after →
        (∀ a, e.call = .read a → a < cfg.virtualMemorySize →
          e.result = 1 ∧ ∃ v, e.value = some v ∧ ∀ u, lastValue a before = some u → v = u) ∧
        ∀ a, (e.call = .read a ∨ ∃ v, e.call = .write a v) → cfg.virtualMemorySize ≤ a →
          e.result = 0 := by
  obtain ⟨s, t, hrun, hcalls, hflat, -⟩ := run_represents hpm hdepth m calls
  refine ⟨s, hrun, hcalls, ⟨t, hflat⟩, ?_⟩
  intro before e after hsplit
  rw [hsplit] at hflat
  obtain ⟨u, hu, hrest⟩ := (Machine.run_append _).mp hflat
  obtain ⟨u', hstep, -⟩ := (Machine.run_cons _).mp hrest
  unfold flatMemory flatStep at hstep
  dsimp only at hstep
  constructor
  · intro a hcall ha
    rw [hcall] at hstep
    dsimp only at hstep
    rw [if_pos ha] at hstep
    split_ifs at hstep with hok
    obtain ⟨hres, hsome, hval⟩ := hok
    obtain ⟨v, hv⟩ := Option.isSome_iff_exists.mp hsome
    refine ⟨hres, v, hv, ?_⟩
    intro w hw
    rw [flat_run_lastValue hu ha, hw, hv] at hval
    simpa [eq_comm] using hval
  · rintro a (hcall | ⟨v, hcall⟩) ha
    · rw [hcall] at hstep
      dsimp only at hstep
      rw [if_neg (Nat.not_lt.mpr ha)] at hstep
      split_ifs at hstep with hres
      exact hres
    · rw [hcall] at hstep
      dsimp only at hstep
      rw [if_neg (Nat.not_lt.mpr ha)] at hstep
      split_ifs at hstep with hres
      exact hres

/-- A memory of four frames of two words for eight pages. -/
def fourFrames : Config where
  offsetWidth := 1
  virtualAddressWidth := 4
  numFrames := 4
  offset_pos := by decide
  offset_lt := by decide
  frames_pos := by decide
  frames_fit := by decide

/-- Calls on different pages, one more than there is room for. -/
def fourPages : List Call :=
  [.write 0 100, .write 5 105, .read 16, .write 15 115, .read 0, .read 5]

theorem refines_flat_memory_run :
    (∃ s, (paging (arrayMemory fourFrames)).run fourPages
        (initialized (arrayMemory fourFrames) (fun a => BitVec.ofNat 32 (a + 7), fun _ => none)) =
          some s ∧ s.events.map Event.call = fourPages ∧
      (∃ t, (flatMemory fourFrames).run s.events (fun _ => none) = some t) ∧
      ∀ before e after, s.events = before ++ e :: after →
        (∀ a, e.call = .read a → a < fourFrames.virtualMemorySize →
          e.result = 1 ∧ ∃ v, e.value = some v ∧ ∀ u, lastValue a before = some u → v = u) ∧
        ∀ a, (e.call = .read a ∨ ∃ v, e.call = .write a v) → fourFrames.virtualMemorySize ≤ a →
          e.result = 0) ∧
      ((paging (arrayMemory fourFrames)).run fourPages
        (initialized (arrayMemory fourFrames)
          (fun a => BitVec.ofNat 32 (a + 7), fun _ => none))).map
          (fun s => s.events.map fun e => (e.result, e.value)) =
        some [(1, none), (1, none), (0, none), (1, none), (1, some 100), (1, some 105)] :=
  ⟨refines_flat_memory (arrayMemory_lawful fourFrames) (by decide) _ _, by decide +kernel⟩

/-! ## The tables -/

/-- What the tables of the memory `m` look like: the frames that the entries refer to, starting
from the root, form a tree. -/
structure WellShaped (pm : PhysicalMemory cfg) (m : pm.Memory) : Prop where
  /-- Every frame is referred to by at most one entry of at most one table. -/
  entry_unique : ∀ g g' i i' f, IsTable pm m g → IsTable pm m g' → child pm m g i = some f →
    child pm m g' i' = some f → g = g' ∧ i = i'
  /-- No entry refers to the root. -/
  entry_ne_root : ∀ g i, child pm m g i ≠ some 0
  /-- No frame is used both as a table and for a page. -/
  page_not_table : ∀ r f, IsPage pm m r f → ¬ IsTable pm m f
  /-- Every frame that an entry refers to exists. -/
  entry_lt : ∀ g i f, IsTable pm m g → child pm m g i = some f → f < cfg.numFrames
  /-- The frames in use are the first ones. -/
  contiguous : ∃ k, ∀ f, (∃ r, Reached pm m r f) ↔ f ≤ k
  /-- A table leads only to pages whose route begins with the route to the table. -/
  route_prefix : ∀ r g p n, r.length < cfg.tablesDepth → follow (child pm m) 0 r = some g →
    follow (child pm m) 0 ((pageRoute cfg p).take n) = some g → r <+: pageRoute cfg p
  /-- Every route of full length is that of a page. -/
  route_page : ∀ r f, IsPage pm m r f → ∃ p < cfg.numPages, r = pageRoute cfg p
  /-- Every page has at most one frame. -/
  page_frame : ∀ p f g, IsPage pm m (pageRoute cfg p) f → IsPage pm m (pageRoute cfg p) g → f = g
  /-- No frame holds two pages. -/
  frame_page : ∀ p q f, p < cfg.numPages → q < cfg.numPages → IsPage pm m (pageRoute cfg p) f →
    IsPage pm m (pageRoute cfg q) f → p = q

/-- The invariant says what the tables look like. -/
theorem Shape.wellShaped (hs : Shape pm m) : WellShaped pm m where
  entry_unique g g' i i' f hg hg' hf hf' := by
    obtain ⟨r, hlen, hr⟩ := hg
    obtain ⟨r', hlen', hr'⟩ := hg'
    have heq : r ++ [i] = r' ++ [i'] := hs.tree _ _ f (reaches_snoc.mpr ⟨g, hlen, hr, hf⟩)
      (reaches_snoc.mpr ⟨g', hlen', hr', hf'⟩)
    obtain ⟨rfl, hi⟩ := List.append_inj' heq rfl
    exact ⟨Option.some.inj (hr.symm.trans hr'), by simpa using hi⟩
  entry_ne_root g i h := child_ne_zero h rfl
  page_not_table r f h := hs.page_not_table h
  entry_lt g i f hg hf := by
    obtain ⟨r, hlen, hr⟩ := hg
    exact hs.lt_numFrames (reaches_snoc.mpr ⟨g, hlen, hr, hf⟩)
  contiguous := by
    obtain ⟨k, -, hk⟩ := hs.used
    exact ⟨k, hk⟩
  route_prefix r g p n hlen hr hp := by
    have hle : ((pageRoute cfg p).take n).length ≤ cfg.tablesDepth := by
      rw [List.length_take, length_pageRoute]
      exact Nat.min_le_right _ _
    rw [hs.tree _ _ g ⟨hlen.le, hr⟩ ⟨hle, hp⟩]
    exact List.take_prefix n _
  route_page r f h :=
    ⟨_, hs.ofDigits_lt_numPages h, (pageRoute_ofDigits h.1 (lt_of_mem_route h.2)).symm⟩
  page_frame p f g hf hg := Option.some.inj (hf.2.symm.trans hg.2)
  frame_page p q f hp hq hpf hqf := pageRoute_inj hp hq (hs.tree _ _ f hpf.reached hqf.reached)

/-- **The tables keep their shape.** After every sequence of calls that follows `VMinitialize` the
tables are well shaped, and a write stores its word in the frame of a page and leaves every table
as the walk to that page made it. -/
theorem tables_well_shaped (hpm : pm.Lawful) (hdepth : cfg.tablesDepth < cfg.numFrames)
    (m : pm.Memory) (calls : List Call) :
    ∃ s, (paging pm).run calls (initialized pm m) = some s ∧ WellShaped pm s.memory ∧
      ∀ a < cfg.virtualMemorySize, ∀ v, ∃ f m',
        getPhysicalAddress pm (cfg.numOfPages a) s.memory = some (f, m') ∧
        IsPage pm m' (pageRoute cfg (cfg.numOfPages a)) f ∧
        vmWrite pm a v s.memory =
          some (1, pm.pmWrite m' (f * cfg.pageSize + cfg.offset a) v) ∧
        (∀ g, IsTable pm (pm.pmWrite m' (f * cfg.pageSize + cfg.offset a) v) g ↔
          IsTable pm m' g) ∧
        ∀ g, IsTable pm m' g → ∀ i < cfg.pageSize,
          pm.entry (pm.pmWrite m' (f * cfg.pageSize + cfg.offset a) v) g i =
            pm.entry m' g i := by
  obtain ⟨s, t, hrun, -, -, hrep⟩ := run_represents hpm hdepth m calls
  refine ⟨s, hrun, hrep.shape.wellShaped, ?_⟩
  intro a ha v
  obtain ⟨f, m', hget, hrep', hpage⟩ := access_represents hpm hdepth hrep ha
  have hrow : cfg.offset a < cfg.pageSize := (rowOf cfg a).isLt
  have htables := fun g (hg : IsTable pm m' g) i hi =>
    entry_write_page hpm hrep'.shape hpage hrow v hg (j := i) hi
  refine ⟨f, m', hget, hpage, ?_, ?_, htables⟩
  · rw [vmWrite, if_neg (Nat.not_le.mpr ha), hget]
    rfl
  · intro g
    exact isTable_congr fun r f => reached_congr htables

theorem tables_well_shaped_run :
    ∃ s, (paging (arrayMemory fourFrames)).run fourPages
        (initialized (arrayMemory fourFrames) (fun a => BitVec.ofNat 32 (a + 7), fun _ => none)) =
          some s ∧ WellShaped (arrayMemory fourFrames) s.memory ∧
      ∃ f m', getPhysicalAddress (arrayMemory fourFrames) (fourFrames.numOfPages 9) s.memory =
          some (f, m') ∧
        vmWrite (arrayMemory fourFrames) 9 3 s.memory =
          some (1, (arrayMemory fourFrames).pmWrite m' (f * 2 + 1) 3) := by
  obtain ⟨s, hrun, hshape, hwrite⟩ := tables_well_shaped (arrayMemory_lawful fourFrames) (by decide)
    (fun a => BitVec.ofNat 32 (a + 7), fun _ => none) fourPages
  obtain ⟨f, m', hget, -, hw, -⟩ := hwrite 9 (by decide) 3
  exact ⟨s, hrun, hshape, f, m', hget, hw⟩

end CoreOS.VirtualMemory
