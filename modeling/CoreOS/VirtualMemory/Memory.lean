import Mathlib

/-!
# The memory under the page tables

The constants, the machine word and the physical memory that `ex4/VirtualMemory.cpp` is compiled
against. The headers that define them are not part of the repository, so they are parameters here.

* `Config`: the constants, with the relations among them that the page tables need.
* `Word`: `word_t`, with the conversions to and from `uint64_t` that the source performs.
* `PhysicalMemory`: the functions `PMread`, `PMwrite`, `PMevict` and `PMrestore`;
  `PhysicalMemory.Lawful` says what the page tables rely on.

Addresses and frame indices are natural numbers. No upper bound on the widths is stated; it is
assumed that `VIRTUAL_MEMORY_SIZE` and `RAM_SIZE` fit `uint64_t`, the type of an address, and the
arithmetic of that type then agrees with that of the natural numbers on every address of the memory.
-/

namespace CoreOS.VirtualMemory

/-! ## Constants -/

/-- The constants of a build. -/
structure Config where
  /-- `OFFSET_WIDTH`: the number of bits of an address inside its page. -/
  offsetWidth : ℕ
  /-- `VIRTUAL_ADDRESS_WIDTH`: the number of bits of a virtual address. -/
  virtualAddressWidth : ℕ
  /-- `NUM_FRAMES`: the number of frames of the physical memory. -/
  numFrames : ℕ
  /-- A page has at least two words. -/
  offset_pos : 1 ≤ offsetWidth
  /-- There is more than one page. -/
  offset_lt : offsetWidth < virtualAddressWidth
  /-- There is a frame for the root table. -/
  frames_pos : 1 ≤ numFrames
  /-- A frame index fits `word_t`. -/
  frames_fit : numFrames ≤ 2 ^ 31

namespace Config

variable (cfg : Config)

/-- `PAGE_SIZE`. -/
def pageSize : ℕ := 2 ^ cfg.offsetWidth

/-- `VIRTUAL_MEMORY_SIZE`. -/
def virtualMemorySize : ℕ := 2 ^ cfg.virtualAddressWidth

/-- `NUM_PAGES`. -/
def numPages : ℕ := cfg.virtualMemorySize / cfg.pageSize

/-- `RAM_SIZE`. -/
def ramSize : ℕ := cfg.numFrames * cfg.pageSize

/-- `TABLES_DEPTH`: the width of a page number over `OFFSET_WIDTH`, rounded up. -/
def tablesDepth : ℕ :=
  (cfg.virtualAddressWidth - cfg.offsetWidth + cfg.offsetWidth - 1) / cfg.offsetWidth

/-- Source: `VirtualMemory.cpp`, `ROOT_WIDTH` -/
def rootWidth : ℕ :=
  if cfg.virtualAddressWidth % cfg.offsetWidth = 0 then cfg.offsetWidth
  else cfg.virtualAddressWidth % cfg.offsetWidth

/-- Source: `VirtualMemory.cpp`, `OFFSET` -/
def offset (address : ℕ) : ℕ := address &&& (cfg.pageSize - 1)

/-- Source: `VirtualMemory.cpp`, `NUM_OF_PAGES` -/
def numOfPages (address : ℕ) : ℕ := Nat.ldiff address (cfg.pageSize - 1) >>> cfg.offsetWidth

/-- Source: `VirtualMemory.cpp`, `CIRCULAR_DISTANCE` -/
def circularDistance (distance : ℕ) : ℕ :=
  if cfg.numPages - distance < distance then cfg.numPages - distance else distance

/-- The number of rows of a table that the searches look at.
Source: `VirtualMemory.cpp`, `CHILDREN` -/
def children (frameIndex : ℕ) : ℕ :=
  if frameIndex = 0 then 1 <<< cfg.rootWidth else cfg.pageSize

/-- Source: `VirtualMemory.cpp`, `MAX_TREE_LEVEL` -/
def maxTreeLevel : ℕ := cfg.tablesDepth - 1

/-! ### Widths -/

theorem pageSize_pos : 0 < cfg.pageSize := Nat.two_pow_pos _

/-- A page number is one root digit, of at least one bit, followed by whole digits. -/
theorem exists_digits : ∃ q k, 1 ≤ k ∧ k ≤ cfg.offsetWidth ∧
    cfg.virtualAddressWidth = cfg.offsetWidth * q + k + cfg.offsetWidth ∧
    cfg.rootWidth = k ∧ cfg.tablesDepth = q + 1 := by
  have hpos : 0 < cfg.offsetWidth := cfg.offset_pos
  have hlt := cfg.offset_lt
  unfold tablesDepth rootWidth
  generalize cfg.offsetWidth = w at *
  obtain ⟨q, k, hk, hkw, hv⟩ : ∃ q k, 1 ≤ k ∧ k ≤ w ∧
      cfg.virtualAddressWidth = w * q + k + w := by
    refine ⟨(cfg.virtualAddressWidth - w - 1) / w, (cfg.virtualAddressWidth - w - 1) % w + 1,
      Nat.succ_pos _, Nat.mod_lt _ hpos, ?_⟩
    have hdiv := Nat.div_add_mod (cfg.virtualAddressWidth - w - 1) w
    omega
  refine ⟨q, k, hk, hkw, hv, ?_, ?_⟩
  · rw [hv, Nat.add_mod_right, Nat.mul_add_mod]
    rcases hkw.eq_or_lt with rfl | hkw
    · rw [Nat.mod_self, if_pos rfl]
    · rw [Nat.mod_eq_of_lt hkw, if_neg (by omega)]
  · have hsum : cfg.virtualAddressWidth - w + w - 1 = w * (q + 1) + (k - 1) := by
      rw [hv, mul_add]
      omega
    rw [hsum, Nat.mul_add_div hpos, Nat.div_eq_of_lt (by omega), add_zero]

/-- The width of a page number is that of the root digit and of one digit for every other level. -/
theorem rootWidth_add :
    cfg.rootWidth + cfg.maxTreeLevel * cfg.offsetWidth + cfg.offsetWidth =
      cfg.virtualAddressWidth ∧ 1 ≤ cfg.rootWidth ∧ cfg.rootWidth ≤ cfg.offsetWidth ∧
      cfg.tablesDepth = cfg.maxTreeLevel + 1 := by
  obtain ⟨q, k, hk, hkw, hv, hroot, hdepth⟩ := cfg.exists_digits
  rw [maxTreeLevel, hroot, hdepth, hv]
  refine ⟨?_, hk, hkw, rfl⟩
  rw [Nat.add_sub_cancel]
  ring

/-- There is at least one level of tables. -/
theorem tablesDepth_eq : cfg.tablesDepth = cfg.maxTreeLevel + 1 := cfg.rootWidth_add.2.2.2

/-- The number of pages, by the digits of a page number. -/
theorem numPages_eq : cfg.numPages = 2 ^ cfg.rootWidth * cfg.pageSize ^ cfg.maxTreeLevel := by
  obtain ⟨hsum, -⟩ := cfg.rootWidth_add
  have hsize : cfg.virtualMemorySize =
      2 ^ cfg.rootWidth * cfg.pageSize ^ cfg.maxTreeLevel * cfg.pageSize := by
    unfold virtualMemorySize pageSize
    rw [← pow_mul, ← pow_add, ← pow_add, ← hsum, mul_comm cfg.offsetWidth]
  unfold numPages
  rw [hsize, Nat.mul_div_cancel _ cfg.pageSize_pos]

/-- Every page number has at most `tablesDepth` digits. -/
theorem numPages_le : cfg.numPages ≤ cfg.pageSize ^ cfg.tablesDepth := by
  obtain ⟨-, -, hle, -⟩ := cfg.rootWidth_add
  rw [numPages_eq, tablesDepth_eq, pow_succ, mul_comm]
  exact Nat.mul_le_mul_left _ (Nat.pow_le_pow_right (by omega) hle)

/-- The searches look at a row of the root for every first digit of a page number. -/
theorem children_root : cfg.children 0 = 2 ^ cfg.rootWidth := by
  rw [children, if_pos rfl, Nat.one_shiftLeft]

/-- The searches look at every row of the other tables. -/
theorem children_of_ne {f : ℕ} (hf : f ≠ 0) : cfg.children f = cfg.pageSize := if_neg hf

/-- The searches look at rows of the table only. -/
theorem children_le (f : ℕ) : cfg.children f ≤ cfg.pageSize := by
  obtain ⟨-, -, hle, -⟩ := cfg.rootWidth_add
  by_cases hf : f = 0
  · rw [hf, children_root]
    exact Nat.pow_le_pow_right (by omega) hle
  · rw [children_of_ne cfg hf]

/-- Every table has a row. -/
theorem children_pos (f : ℕ) : 0 < cfg.children f := by
  by_cases hf : f = 0
  · rw [hf, children_root]
    exact Nat.two_pow_pos _
  · rw [children_of_ne cfg hf]
    exact cfg.pageSize_pos

/-! ### Addresses -/

/-- The offset of an address is the address within its page. -/
theorem offset_eq (a : ℕ) : cfg.offset a = a % cfg.pageSize := by
  rw [offset, pageSize, Nat.and_two_pow_sub_one_eq_mod]

/-- The page of an address. -/
theorem numOfPages_eq (a : ℕ) : cfg.numOfPages a = a / cfg.pageSize := by
  rw [numOfPages, pageSize, ← Nat.shiftRight_eq_div_pow]
  apply Nat.eq_of_testBit_eq
  intro i
  rw [Nat.testBit_shiftRight, Nat.testBit_shiftRight, Nat.testBit_ldiff,
    Nat.testBit_two_pow_sub_one]
  simp

/-- The page of an address in range is a page. -/
theorem numOfPages_lt {a : ℕ} (ha : a < cfg.virtualMemorySize) :
    cfg.numOfPages a < cfg.numPages := by
  rw [numOfPages_eq, numPages]
  have hdvd : cfg.pageSize ∣ cfg.virtualMemorySize := Nat.pow_dvd_pow 2 cfg.offset_lt.le
  exact Nat.div_lt_div_of_lt_of_dvd hdvd ha

/-- An address is given by its page and its offset. -/
theorem address_inj {a b : ℕ} (hp : cfg.numOfPages a = cfg.numOfPages b)
    (ho : cfg.offset a = cfg.offset b) : a = b := by
  rw [numOfPages_eq, numOfPages_eq] at hp
  rw [offset_eq, offset_eq] at ho
  rw [← Nat.div_add_mod a cfg.pageSize, ← Nat.div_add_mod b cfg.pageSize, hp, ho]

end Config

/-! ## Words -/

/-- `word_t`. -/
abbrev Word := BitVec 32

/-- The conversion of `word_t` to `uint64_t`, which extends the sign. -/
def Word.toIndex (w : Word) : ℕ := (w.signExtend 64).toNat

/-- The conversion of `uint64_t` to `word_t`. -/
def toWord (n : ℕ) : Word := BitVec.ofNat 32 n

/-- A frame index that fits `word_t` survives the conversions. -/
theorem toIndex_toWord {n : ℕ} (hn : n < 2 ^ 31) : (toWord n).toIndex = n := by
  have hlt : n % 2 ^ 32 = n := Nat.mod_eq_of_lt (by omega)
  have hmsb : (toWord n).msb = false := by
    rw [toWord, BitVec.msb_eq_decide, BitVec.toNat_ofNat, hlt]
    simpa using hn
  rw [Word.toIndex, BitVec.toNat_signExtend, hmsb, toWord]
  simp only [BitVec.toNat_setWidth, BitVec.toNat_ofNat, hlt]
  simp
  omega

/-- Only the word `0` converts to `0`. -/
theorem toIndex_eq_zero {w : Word} : w.toIndex = 0 ↔ w = 0 := by
  constructor
  · intro h
    have h64 : w.signExtend 64 = 0 := BitVec.eq_of_toNat_eq h
    apply BitVec.eq_of_toInt_eq
    rw [← BitVec.toInt_signExtend_of_le (show 32 ≤ 64 by omega), h64]
    rfl
  · rintro rfl
    rfl

/-- Only the frame index `0` converts to the word `0`. -/
theorem toWord_ne_zero {n : ℕ} (h0 : n ≠ 0) (hn : n < 2 ^ 31) : toWord n ≠ 0 := by
  intro h
  rw [← toIndex_eq_zero, toIndex_toWord hn] at h
  exact h0 h

/-! ## Physical memory -/

/-- The functions of the physical memory, over a type of memories. `swap` shows the words of the
pages that are in the swap file. -/
structure PhysicalMemory (cfg : Config) where
  /-- The memory and the swap file. -/
  Memory : Type
  /-- `PMread`: the word at a physical address. -/
  pmRead : Memory → ℕ → Word
  /-- `PMwrite`: stores a word at a physical address. -/
  pmWrite : Memory → ℕ → Word → Memory
  /-- `PMevict`: stores a frame in the swap file as a page. -/
  pmEvict : Memory → ℕ → ℕ → Memory
  /-- `PMrestore`: brings a page from the swap file to a frame. -/
  pmRestore : Memory → ℕ → ℕ → Memory
  /-- The pages in the swap file. -/
  swap : Memory → ℕ → Option (Fin cfg.pageSize → Word)

variable {cfg : Config}

namespace PhysicalMemory

variable (pm : PhysicalMemory cfg)

/-- The word in a row of a frame. -/
def entry (m : pm.Memory) (f i : ℕ) : Word := pm.pmRead m (f * cfg.pageSize + i)

/-- The words of a frame. -/
def frame (m : pm.Memory) (f : ℕ) : Fin cfg.pageSize → Word := fun i => pm.entry m f i

/-- What the page tables rely on: reads and writes act on an array of `RAM_SIZE` words, an eviction
stores a copy of the frame in the swap file, and a restoration moves the page, if it is in the swap
file, to the frame. -/
structure Lawful : Prop where
  read_write : ∀ m a b v, a < cfg.ramSize → b < cfg.ramSize →
    pm.pmRead (pm.pmWrite m a v) b = if b = a then v else pm.pmRead m b
  swap_write : ∀ m a v, a < cfg.ramSize → pm.swap (pm.pmWrite m a v) = pm.swap m
  read_evict : ∀ m f p a, f < cfg.numFrames → a < cfg.ramSize →
    pm.pmRead (pm.pmEvict m f p) a = pm.pmRead m a
  swap_evict : ∀ m f p, f < cfg.numFrames →
    pm.swap (pm.pmEvict m f p) = Function.update (pm.swap m) p (some (pm.frame m f))
  frame_restore : ∀ m f p, f < cfg.numFrames →
    pm.frame (pm.pmRestore m f p) f = (pm.swap m p).getD (pm.frame m f)
  frame_restore_of_ne : ∀ m f p g, f < cfg.numFrames → g < cfg.numFrames → g ≠ f →
    pm.frame (pm.pmRestore m f p) g = pm.frame m g
  swap_restore : ∀ m f p, f < cfg.numFrames →
    pm.swap (pm.pmRestore m f p) = Function.update (pm.swap m) p none

variable {pm} {m : pm.Memory} {f g i j : ℕ}

/-- A row of a frame is an address of the memory. -/
theorem address_lt (hf : f < cfg.numFrames) (hi : i < cfg.pageSize) :
    f * cfg.pageSize + i < cfg.ramSize := by
  calc f * cfg.pageSize + i < f * cfg.pageSize + cfg.pageSize := by omega
    _ = (f + 1) * cfg.pageSize := by ring
    _ ≤ cfg.ramSize := Nat.mul_le_mul_right _ hf

/-- An address is a row of one frame. -/
theorem address_eq_iff (hi : i < cfg.pageSize) (hj : j < cfg.pageSize) :
    g * cfg.pageSize + j = f * cfg.pageSize + i ↔ g = f ∧ j = i := by
  constructor
  · intro h
    have hrow : j = i := by
      have hmod := congrArg (· % cfg.pageSize) h
      simpa [Nat.mul_add_mod', Nat.mod_eq_of_lt hi, Nat.mod_eq_of_lt hj] using hmod
    subst hrow
    exact ⟨Nat.eq_of_mul_eq_mul_right cfg.pageSize_pos (by omega), rfl⟩
  · rintro ⟨rfl, rfl⟩
    rfl

/-- A write changes one row of one frame. -/
theorem Lawful.entry_write (hpm : pm.Lawful) (v : Word) (hf : f < cfg.numFrames)
    (hi : i < cfg.pageSize) (hg : g < cfg.numFrames) (hj : j < cfg.pageSize) :
    pm.entry (pm.pmWrite m (f * cfg.pageSize + i) v) g j =
      if g = f ∧ j = i then v else pm.entry m g j := by
  rw [entry, hpm.read_write _ _ _ _ (address_lt hf hi) (address_lt hg hj)]
  simp only [address_eq_iff hi hj]
  rfl

/-- An eviction changes no row of a frame. -/
theorem Lawful.entry_evict (hpm : pm.Lawful) {p : ℕ} (hf : f < cfg.numFrames)
    (hg : g < cfg.numFrames) (hj : j < cfg.pageSize) :
    pm.entry (pm.pmEvict m f p) g j = pm.entry m g j :=
  hpm.read_evict _ _ _ _ hf (address_lt hg hj)

/-- A restoration changes no row of another frame. -/
theorem Lawful.entry_restore (hpm : pm.Lawful) {p : ℕ} (hf : f < cfg.numFrames)
    (hg : g < cfg.numFrames) (hne : g ≠ f) (hj : j < cfg.pageSize) :
    pm.entry (pm.pmRestore m f p) g j = pm.entry m g j :=
  congrFun (hpm.frame_restore_of_ne m f p g hf hg hne) ⟨j, hj⟩

end PhysicalMemory

/-! ## An array with a swap file -/

/-- The physical memory made of an array and a table of the pages that were evicted. -/
def arrayMemory (cfg : Config) : PhysicalMemory cfg where
  Memory := (ℕ → Word) × (ℕ → Option (Fin cfg.pageSize → Word))
  pmRead m a := m.1 a
  pmWrite m a v := (Function.update m.1 a v, m.2)
  pmEvict m f p := (m.1, Function.update m.2 p (some fun i => m.1 (f * cfg.pageSize + i)))
  pmRestore m f p :=
    match m.2 p with
    | none => m
    | some c =>
        (fun a => if a / cfg.pageSize = f then c ⟨a % cfg.pageSize, Nat.mod_lt a cfg.pageSize_pos⟩
          else m.1 a, Function.update m.2 p none)
  swap m := m.2

/-- The array with a swap file behaves as the page tables expect. -/
theorem arrayMemory_lawful (cfg : Config) : (arrayMemory cfg).Lawful where
  read_write m a b v _ _ := by
    simp only [arrayMemory, Function.update_apply]
  swap_write _ _ _ _ := rfl
  read_evict _ _ _ _ _ _ := rfl
  swap_evict _ _ _ _ := rfl
  frame_restore m f p _ := by
    funext i
    have hdiv : (f * cfg.pageSize + i) / cfg.pageSize = f := by
      rw [Nat.mul_comm, Nat.mul_add_div cfg.pageSize_pos, Nat.div_eq_of_lt i.isLt, Nat.add_zero]
    simp only [arrayMemory, PhysicalMemory.frame, PhysicalMemory.entry]
    rcases m.2 p with _ | c
    · rfl
    · simp [hdiv, Nat.mod_eq_of_lt i.isLt]
  frame_restore_of_ne m f p g _ _ hne := by
    funext i
    have hdiv : (g * cfg.pageSize + i) / cfg.pageSize = g := by
      rw [Nat.mul_comm, Nat.mul_add_div cfg.pageSize_pos, Nat.div_eq_of_lt i.isLt, Nat.add_zero]
    simp only [arrayMemory, PhysicalMemory.frame, PhysicalMemory.entry]
    rcases m.2 p with _ | c
    · rfl
    · simp [hdiv, hne]
  swap_restore m f p _ := by
    rcases h : m.2 p with _ | c
    · simp only [arrayMemory, h]
      exact (Function.update_eq_self_iff.mpr h.symm).symm
    · simp only [arrayMemory, h]

end CoreOS.VirtualMemory
