import CoreOS.Lib.Machine
import CoreOS.VirtualMemory.Memory

/-!
# The page tables

The functions of `ex4/VirtualMemory.cpp`, over a physical memory `pm`. `none` is undefined
behaviour: an element of an array that does not exist, or the use of the four elements of
`saving_data` before they are assigned.

* `findFreeFrame`, `dfsMaxFrame`: the two depth-first searches. The recursion is on the number of
  levels below the frame, `TABLES_DEPTH - tree_level`.
* `getFrame`, `getPhysicalAddress`: the allocation of a frame and the walk along a route.
* `vmInitialize`, `vmRead`, `vmWrite`: the interface; `paging` is the machine that calls it.
-/

namespace CoreOS.VirtualMemory

open CoreOS.Lib

/-! ## Routes -/

/-- The number of a page from its route.
Source: `VirtualMemory.cpp`, `convert_tree_route_to_decimal` -/
def convertTreeRouteToDecimal (cfg : Config) (arrayDepth : List ℕ) : ℕ :=
  arrayDepth.foldl (fun temp digit => (temp <<< cfg.offsetWidth) ||| digit) 0

/-- Writes the route of a page into an array, last row first. The first argument is `count + 1`.
Source: `VirtualMemory.cpp`, `get_bites_array` -/
def getBitesArray (cfg : Config) : ℕ → ℕ → List ℕ → Option (List ℕ)
  | 0, pageIndex, arrayDepth => if pageIndex > 0 then none else some arrayDepth
  | count + 1, pageIndex, arrayDepth =>
      if pageIndex > 0 then
        getBitesArray cfg count (pageIndex >>> cfg.offsetWidth)
          (arrayDepth.set count (pageIndex &&& (cfg.pageSize - 1)))
      else some arrayDepth

section Frames

variable {cfg : Config} (pm : PhysicalMemory cfg)

/-! ## Frames -/

/-- Every word of the frame is `0`. Source: `VirtualMemory.cpp`, `check_frame_empty` -/
def checkFrameEmpty (frameIndex : ℕ) (m : pm.Memory) : Bool :=
  (List.range cfg.pageSize).all fun i => pm.pmRead m (frameIndex * cfg.pageSize + i) == 0

/-- Writes `0` to every word of the frame. Source: `VirtualMemory.cpp`, `clear_table` -/
def clearTable (frameIndex : ℕ) (m : pm.Memory) : pm.Memory :=
  (List.range cfg.pageSize).foldl
    (fun m i => pm.pmWrite m (frameIndex * cfg.pageSize + i) 0) m

/-! ## The page to evict -/

/-- `saving_data` once it is assigned. -/
structure Saving where
  /-- `saving[PAGE_INDEX]` -/
  pageIndex : ℕ
  /-- `saving[PARENT]` -/
  parent : ℕ
  /-- `saving[ROW_NUMBER]` -/
  rowNumber : ℕ
  /-- `saving[FRAME_INDEX]` -/
  frameIndex : ℕ
  deriving DecidableEq, Repr

/-- The variables that `dfs_max_frame` passes by reference. -/
structure Search where
  /-- `max_value` -/
  maxValue : ℕ
  /-- `saving`, `none` until it is assigned. -/
  saving : Option Saving
  /-- `page_route` -/
  pageRoute : List ℕ
  deriving DecidableEq, Repr

/-- Source: `VirtualMemory.cpp`, `DISTANCE` -/
def distance (a b : ℕ) : ℕ := if a > b then a - b else b - a

/-- Keeps the page at the end of the route if it is farther away than every page before.
Source: `VirtualMemory.cpp`, `finding_max_value` -/
def findingMaxValue (cfg : Config) (pageSwapped frameIndex rowNumber parent : ℕ) (s : Search) :
    Search :=
  let pageIndex := convertTreeRouteToDecimal cfg s.pageRoute
  let thisValue := cfg.circularDistance (distance pageSwapped pageIndex)
  if thisValue > s.maxValue then
    { s with maxValue := thisValue, saving := some { pageIndex, parent, rowNumber, frameIndex } }
  else s

/-- Looks for the page that is farthest away from `pageSwapped`; the call for the root evicts it.
Source: `VirtualMemory.cpp`, `dfs_max_frame` -/
def dfsMaxFrame (pageSwapped : ℕ) :
    ℕ → ℕ → ℕ → ℕ → Search × pm.Memory → Option (Search × pm.Memory)
  | 0, frameIndex, rowNumber, parent, (s, m) =>
      some (findingMaxValue cfg pageSwapped frameIndex rowNumber parent s, m)
  | levels + 1, frameIndex, _, _, s => do
      let (s, m) ← (List.range (cfg.children frameIndex)).foldlM (fun s i =>
        let thisFrameIndex := pm.pmRead s.2 (frameIndex * cfg.pageSize + i)
        if thisFrameIndex ≠ 0 then
          dfsMaxFrame pageSwapped levels thisFrameIndex.toIndex i frameIndex
            ({ s.1 with pageRoute := s.1.pageRoute.set (cfg.tablesDepth - (levels + 1)) i }, s.2)
        else some s) s
      if frameIndex = 0 then
        let saving ← s.saving
        let m := pm.pmEvict m saving.frameIndex saving.pageIndex
        some (s, pm.pmWrite m (saving.parent * cfg.pageSize + saving.rowNumber) 0)
      else some (s, m)

/-! ## A free frame -/

/-- Source: `VirtualMemory.cpp`, `MAX_FRAME` -/
def maxFrame (maxFrameIndex frameIndex : ℕ) : ℕ :=
  if maxFrameIndex < frameIndex + 1 then frameIndex + 1 else maxFrameIndex

/-- What `find_free_frame` returns, passes by reference and changes. -/
structure FreeSearch where
  /-- `max_frame_index` -/
  maxFrameIndex : ℕ
  /-- `finished_empty` -/
  finishedEmpty : ℕ
  /-- The physical memory. -/
  memory : pm.Memory

/-- Computes the largest frame index in use plus one, and unlinks the first empty table.
Source: `VirtualMemory.cpp`, `find_free_frame` -/
def findFreeFrame (currentlyWorkingOn : ℕ) : ℕ → ℕ → ℕ → ℕ → FreeSearch pm → FreeSearch pm
  | 0, frameIndex, _, _, s => { s with maxFrameIndex := maxFrame s.maxFrameIndex frameIndex }
  | levels + 1, frameIndex, parent, rowInParent, s =>
      let s := (List.range (cfg.children frameIndex)).foldl (fun s i =>
        let thisFrameIndex := pm.pmRead s.memory (frameIndex * cfg.pageSize + i)
        let s :=
          if thisFrameIndex ≠ 0 then
            findFreeFrame currentlyWorkingOn levels thisFrameIndex.toIndex frameIndex i s
          else s
        { s with maxFrameIndex := maxFrame s.maxFrameIndex frameIndex }) s
      if frameIndex ≠ 0 ∧ checkFrameEmpty pm frameIndex s.memory ∧
          frameIndex ≠ currentlyWorkingOn ∧ s.finishedEmpty = 0 then
        { s with
          memory := pm.pmWrite s.memory (parent * cfg.pageSize + rowInParent) 0
          finishedEmpty := frameIndex }
      else s

/-- An empty table, a frame that was never used, or the frame of an evicted page.
Source: `VirtualMemory.cpp`, `get_frame` -/
def getFrame (currentFrame currParent : ℕ) (m : pm.Memory) : Option (ℕ × pm.Memory) :=
  let s := findFreeFrame pm currParent cfg.tablesDepth 0 0 0 ⟨0, 0, m⟩
  let check := if s.finishedEmpty ≠ 0 then s.finishedEmpty else s.maxFrameIndex
  if check ≥ cfg.numFrames then do
    let (d, m) ← dfsMaxFrame pm currentFrame cfg.tablesDepth 0 0 0
      (⟨0, none, List.replicate cfg.tablesDepth 0⟩, s.memory)
    let saving ← d.saving
    some (saving.frameIndex, m)
  else some (check, s.memory)

/-! ## The walk along a route -/

/-- The variables of the loop of `get_physical_address`. -/
structure Walk where
  /-- `curr_parent` -/
  currParent : ℕ
  /-- `curr_child` -/
  currChild : Word
  /-- `restored` -/
  restored : Bool
  /-- The physical memory. -/
  memory : pm.Memory

/-- One turn of the loop. Source: `VirtualMemory.cpp`, `get_physical_address` -/
def walkLevel (pageIndex : ℕ) (getPageDepth : List ℕ) (w : Walk pm) (i : ℕ) :
    Option (Walk pm) := do
  let address := w.currParent * cfg.pageSize + getPageDepth.getD i 0
  let currChild := pm.pmRead w.memory address
  if currChild = 0 then
    let restored := if i = cfg.maxTreeLevel then true else w.restored
    let (f, m) ← getFrame pm pageIndex w.currParent w.memory
    let currChild := toWord f
    let m := if i ≠ cfg.maxTreeLevel then clearTable pm currChild.toIndex m else m
    let m := pm.pmWrite m address currChild
    some { currParent := currChild.toIndex, currChild, restored, memory := m }
  else some { w with currParent := currChild.toIndex, currChild }

/-- The frame that holds a page, which is brought in if it is not there.
Source: `VirtualMemory.cpp`, `get_physical_address` -/
def getPhysicalAddress (pageIndex : ℕ) (m : pm.Memory) : Option (ℕ × pm.Memory) := do
  let getPageDepth ←
    getBitesArray cfg cfg.tablesDepth pageIndex (List.replicate cfg.tablesDepth 0)
  let w ← (List.range cfg.tablesDepth).foldlM (walkLevel pm pageIndex getPageDepth)
    ⟨0, 0, false, m⟩
  let m := if w.restored then pm.pmRestore w.memory w.currChild.toIndex pageIndex else w.memory
  some (w.currChild.toIndex, m)

/-! ## The interface -/

/-- Source: `VirtualMemory.cpp`, `VMinitialize` -/
def vmInitialize (m : pm.Memory) : pm.Memory := clearTable pm 0 m

/-- The returned value, the word stored in `*value` if one is, and the memory after the call.
Source: `VirtualMemory.cpp`, `VMread` -/
def vmRead (virtualAddress : ℕ) (m : pm.Memory) : Option ((ℕ × Option Word) × pm.Memory) :=
  if virtualAddress ≥ cfg.virtualMemorySize then some ((0, none), m)
  else do
    let (address, m) ← getPhysicalAddress pm (cfg.numOfPages virtualAddress) m
    some ((1, some (pm.pmRead m (address * cfg.pageSize + cfg.offset virtualAddress))), m)

/-- The returned value and the memory after the call. Source: `VirtualMemory.cpp`, `VMwrite` -/
def vmWrite (virtualAddress : ℕ) (value : Word) (m : pm.Memory) : Option (ℕ × pm.Memory) :=
  if virtualAddress ≥ cfg.virtualMemorySize then some (0, m)
  else do
    let (address, m) ← getPhysicalAddress pm (cfg.numOfPages virtualAddress) m
    some (1, pm.pmWrite m (address * cfg.pageSize + cfg.offset virtualAddress) value)

/-! ## The machine -/

/-- A call of the interface. -/
inductive Call
  /-- `VMread(virtualAddress, &value)` -/
  | read (virtualAddress : ℕ)
  /-- `VMwrite(virtualAddress, value)` -/
  | write (virtualAddress : ℕ) (value : Word)
  deriving DecidableEq, Repr

/-- A call with what it returned and, where it did, stored in `*value`. -/
structure Event where
  /-- The call. -/
  call : Call
  /-- The returned value. -/
  result : ℕ
  /-- The word stored in `*value`. -/
  value : Option Word
  deriving DecidableEq, Repr

/-- The physical memory and the calls made so far, latest last. -/
structure System where
  /-- The physical memory. -/
  memory : pm.Memory
  /-- The calls made so far. -/
  events : List Event

/-- Makes a call. -/
def System.step (c : Call) (s : System pm) : Option (System pm) :=
  match c with
  | .read a => (vmRead pm a s.memory).map fun r =>
      { memory := r.2, events := s.events ++ [⟨c, r.1.1, r.1.2⟩] }
  | .write a v => (vmWrite pm a v s.memory).map fun r =>
      { memory := r.2, events := s.events ++ [⟨c, r.1, none⟩] }

/-- The system after `VMinitialize` on the memory `m`. -/
def initialized (m : pm.Memory) : System pm := ⟨vmInitialize pm m, []⟩

/-- Any sequence of calls after `VMinitialize`. -/
def paging : Machine (System pm) Call where
  init s := ∃ m, s = initialized pm m
  step := System.step pm

end Frames

end CoreOS.VirtualMemory
