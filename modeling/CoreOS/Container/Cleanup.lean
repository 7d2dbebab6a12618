import CoreOS.Container.Processes

/-!
# What the parent leaves behind

`umount_container` and `releasing_all_resources`, on whatever the child has left.

* `created`: what `limiting_number_processes` creates. `NothingLeft`: nothing of it is there in the
  end.
* `Waits`, `Unmounts` and `Releasable`: what the calls of the parent need to succeed.
* `goesThrough_release`: the calls of `releasing_all_resources` one after the other;
  `released_iff` says what they need of the filesystem they find.
* `cleanup_iff`: **when the parent leaves nothing behind**.
-/

namespace CoreOS.Container

open CoreOS.Lib

variable {env : Environment} {rootDirectory : List Char} {cwd : List (List Char)}

/-! ## The paths -/

/-- What an absolute path of a container names. -/
def rootPath (rootDirectory : List Char) : List (List Char) :=
  normal [] [] (components rootDirectory)

/-- `<root>/sys`. -/
def sysPath (rootDirectory : List Char) : List (List Char) := rootPath rootDirectory ++ [sys]

/-- `<root>/sys/fs`. -/
def fsPath (rootDirectory : List Char) : List (List Char) := sysPath rootDirectory ++ [fs]

/-- `<root>/sys/fs/cgroup`. -/
def cgroupPath (rootDirectory : List Char) : List (List Char) := fsPath rootDirectory ++ [cgroup]

/-- `<root>/sys/fs/cgroup/pids`. -/
def pidsPath (rootDirectory : List Char) : List (List Char) := cgroupPath rootDirectory ++ [pids]

/-- The names of the files in it. -/
def pidsFiles : List (List Char) := [maxFile, releaseFile, procsFile]

/-- What `limiting_number_processes` creates. -/
def created (rootDirectory : List Char) : List (List (List Char)) :=
  [fsPath rootDirectory, cgroupPath rootDirectory, pidsPath rootDirectory] ++
    pidsFiles.map fun name => pidsPath rootDirectory ++ [name]

/-- The path from which the parent removes. -/
def pidsDirectory (rootDirectory : List Char) : List Char :=
  rootDirectory ++ dir sys ++ dir fs ++ dir cgroup ++ dir pids

/-! ## What is said of a run -/

/-- Nothing undefined has happened, and nothing that is created is there. -/
def NothingLeft (rootDirectory : List Char) (parent : Process × Option Stop) : Prop :=
  parent.2 ≠ some .undefined ∧ ∀ q ∈ created rootDirectory, ¬ parent.1.fs.Exists q

/-- There is a child, and the parent waits until it has ended. -/
def Waits (env : Environment) : Prop := env.grants .clone = true ∧ env.grants .wait = true

instance : Decidable (Waits env) := inferInstanceAs (Decidable (_ ∧ _))

/-- The parent's `umount` succeeds. -/
def Unmounts (env : Environment) (rootDirectory : List Char) (fs₁ : Filesystem (List Char)) :
    Prop :=
  env.grants .umount = true ∧
    ∃ q ∈ fs₁.mounts, walk fs₁.dirs [] [] (components (rootDirectory ++ dir proc)) = some q

/-- The path fits `buffer`. -/
def Fits (rootDirectory : List Char) : Prop := (pidsDirectory rootDirectory).length < bufferSize

instance : Decidable (Fits rootDirectory) := inferInstanceAs (Decidable (_ < _))

/-- Where the parent calls the kernel in `releasing_all_resources`. -/
def releaseSites : List Site :=
  [.chdirRelease, .removeMax, .removeRelease, .removeProcs, .leavePids, .removePids, .leaveCgroup,
    .removeCgroup, .leaveFs, .removeFs]

/-- The directory `<root>/sys/fs` holds what is created, all of it and nothing else, and the kernel
does not refuse to remove it. -/
structure Releasable (env : Environment) (rootDirectory : List Char)
    (fs₁ : Filesystem (List Char)) : Prop where
  granted : ∀ site ∈ releaseSites, env.grants site = true
  reached : walk fs₁.dirs [] [] (components (pidsDirectory rootDirectory)) =
    some (pidsPath rootDirectory)
  files : ∀ name ∈ pidsFiles, fs₁.Removable (pidsPath rootDirectory ++ [name])
  pids : fs₁.Sole (pidsPath rootDirectory) pidsFiles
  cgroup : fs₁.Sole (cgroupPath rootDirectory) [Container.pids]
  fs : fs₁.Sole (fsPath rootDirectory) [Container.cgroup]
  unmounted : ∀ q ∈ [fsPath rootDirectory, cgroupPath rootDirectory, pidsPath rootDirectory],
    q ∉ fs₁.mounts

/-! ## Calls -/

section calls

variable {site : Site} {message : String} {op : Process → Option Process} {p p' : Process}
  {name path : List Char}

theorem checked_eq_ok : checked env site message op p = .ok p' ↔
    env.grants site = true ∧ op p = some p' := by
  rw [checked]
  by_cases h : env.grants site = true
  · rw [if_pos h]
    cases op p <;> simp [h]
  · rw [if_neg h]
    simp [h]

theorem checked_ne_undefined : checked env site message op p ≠ .error .undefined := by
  rw [checked]
  split
  · nofun
  · rw [errorHandler]
    nofun

/-- `chdir` keeps the filesystem. -/
theorem fs_of_chdir (h : chdir path p = some p') : p'.fs = p.fs ∧ p'.root = p.root := by
  obtain ⟨cwd, -, rfl⟩ := Option.map_eq_some_iff.mp h
  exact ⟨rfl, rfl⟩

theorem chdir_parentDir : chdir parentDir p =
    some { p with cwd := if p.cwd = p.root then p.cwd else p.cwd.dropLast } := by
  have hcomponents : components parentDir = [.up] := rfl
  rw [chdir, Process.resolve, hcomponents]
  rfl

theorem remove_eq_some : remove name p = some p' ↔
    ∃ fs', p.fs.remove (p.cwd ++ [name]) = some fs' ∧ p' = { p with fs := fs' } := by
  rw [remove, Option.map_eq_some_iff]
  simp only [eq_comm]

end calls

/-! ## Two processes -/

section processes

variable {fs₀ : Filesystem (List Char)}

theorem child_of_cloned (h : env.grants .clone = true) :
    (main env rootDirectory cwd fs₀).child =
      runCalls (createContainer env rootDirectory) ⟨fs₀, cwd, []⟩ := by
  simp only [main, if_pos h]

/-- A child that is not there leaves everything as it was. -/
theorem child_of_not_cloned (h : ¬ env.grants .clone = true) :
    (main env rootDirectory cwd fs₀).child = (⟨fs₀, cwd, []⟩, some .unborn) := by
  simp only [main, if_neg h]

theorem parent_of_waits (h : Waits env) : (main env rootDirectory cwd fs₀).parent =
    runCalls (umountContainer env rootDirectory ++ releasingAllResources env rootDirectory)
      ⟨(main env rootDirectory cwd fs₀).child.1.fs, cwd, []⟩ :=
  runCalls_cons_of_ok (checked_eq_ok.mpr ⟨h.2, if_pos h.1⟩)

/-- A parent that does not wait exits at once. -/
theorem parent_of_not_waits (h : ¬ Waits env) : (main env rootDirectory cwd fs₀).parent =
    (⟨(main env rootDirectory cwd fs₀).child.1.fs, cwd, []⟩, some (errorHandler errorWait)) := by
  refine runCalls_cons_of_error ?_
  rw [waitChild, checked]
  by_cases hwait : env.grants .wait = true
  · rw [if_pos hwait, if_neg fun hclone => h ⟨hclone, hwait⟩]
  · rw [if_neg hwait]

end processes

/-! ## Releasing -/

section release

variable {site : Site} {message : String} {p p' : Process} {name : List Char}
  {calls : List (Call Process Stop)} {f : Filesystem (List Char)}
  {gone : List (List (List Char))} {c : List (List Char)} {X : Prop} {Y : Process → Prop}

/-- The parent has removed the paths in `gone` from `f`, and is in the directory `c`. -/
structure Releasing (f : Filesystem (List Char)) (gone : List (List (List Char)))
    (c : List (List Char)) (p : Process) : Prop where
  without : f.Without gone p.fs
  cwd : p.cwd = c
  root : p.root = []

/-- What a path needs in order to be removed next. -/
def Next (f : Filesystem (List Char)) (gone : List (List (List Char))) (q : List (List Char)) :
    Prop :=
  q ∉ gone ∧ (q ∈ f.files ∨ (q ∈ f.dirs ∧ q ≠ [] ∧ q ∉ f.mounts ∧
    ∀ r, f.Exists r → r ≠ [] → r.dropLast = q → r ∈ gone))

/-- A `remove` and what follows. -/
theorem Releasing.remove (h : Releasing f gone c p)
    (hrest : ∀ p', Releasing f ((c ++ [name]) :: gone) c p' → GoesThrough calls p' X Y) :
    GoesThrough (checked env site message (remove name) :: calls) p
      ((env.grants site = true ∧ Next f gone (c ++ [name])) ∧ X) Y := by
  have hop : ∀ p', checked env site message (Container.remove name) p = .ok p' ↔
      env.grants site = true ∧
        ∃ fs', p.fs.remove (c ++ [name]) = some fs' ∧ p' = { p with fs := fs' } := by
    intro p'
    rw [checked_eq_ok, remove_eq_some, h.cwd]
  refine .cons ?_ fun p' hp' => ?_
  · have hnext : (p.fs.remove (c ++ [name])).isSome ↔ Next f gone (c ++ [name]) :=
      Filesystem.remove_isSome.trans h.without.removable_iff
    rw [← hnext, Option.isSome_iff_exists]
    constructor
    · rintro ⟨p', hp'⟩
      obtain ⟨hgrants, fs', hfs, -⟩ := (hop p').mp hp'
      exact ⟨hgrants, fs', hfs⟩
    · rintro ⟨hgrants, fs', hfs⟩
      exact ⟨_, (hop _).mpr ⟨hgrants, fs', hfs, rfl⟩⟩
  · obtain ⟨-, fs', hfs, rfl⟩ := (hop p').mp hp'
    exact hrest _ ⟨h.without.remove hfs, h.cwd, h.root⟩

/-- A `chdir("..")` and what follows. -/
theorem Releasing.leave (h : Releasing f gone (c ++ [name]) p)
    (hrest : ∀ p', Releasing f gone c p' → GoesThrough calls p' X Y) :
    GoesThrough (checked env site message (chdir parentDir) :: calls) p
      (env.grants site = true ∧ X) Y := by
  have hop : ∀ p', checked env site message (chdir parentDir) p = .ok p' ↔
      env.grants site = true ∧ p' = { p with cwd := c } := by
    intro p'
    have hne : p.cwd ≠ p.root := by
      rw [h.cwd, h.root]
      simp
    rw [checked_eq_ok, chdir_parentDir, if_neg hne, h.cwd, List.dropLast_concat, Option.some_inj]
    exact and_congr_right fun _ => eq_comm
  refine .cons ?_ fun p' hp' => ?_
  · simp [hop]
  · obtain ⟨-, rfl⟩ := (hop p').mp hp'
    exact hrest _ ⟨h.without, rfl, h.root⟩

/-- The components of the path from which the parent removes. -/
theorem components_pidsDirectory (rootDirectory : List Char) :
    components (pidsDirectory rootDirectory) =
      components rootDirectory ++ [sys, fs, cgroup, pids].map .down := by
  have hname : components sys = [.down sys] ∧ components fs = [.down fs] ∧
      components cgroup = [.down cgroup] ∧ components pids = [.down pids] := by decide
  obtain ⟨hsys, hfs, hcgroup, hpids⟩ := hname
  rw [pidsDirectory, dir, dir, dir, dir, components_append, components_append, components_append,
    components_append, hsys, hfs, hcgroup, hpids]
  simp

theorem normal_pidsDirectory (rootDirectory : List Char) :
    normal [] [] (components (pidsDirectory rootDirectory)) = pidsPath rootDirectory := by
  rw [components_pidsDirectory, normal_append, normal_down]
  simp [pidsPath, cgroupPath, fsPath, sysPath, rootPath]

/-- The three files, the one first that is removed last. -/
def removedFiles (rootDirectory : List Char) : List (List (List Char)) :=
  (pidsFiles.map fun name => pidsPath rootDirectory ++ [name]).reverse

theorem mem_removedFiles {r : List (List Char)} : r ∈ removedFiles rootDirectory ↔
    ∃ name ∈ pidsFiles, r = pidsPath rootDirectory ++ [name] := by
  rw [removedFiles, List.mem_reverse, List.mem_map]
  simp only [eq_comm]

/-- What `releasing_all_resources` removes, the last first. -/
def removed (rootDirectory : List Char) : List (List (List Char)) :=
  fsPath rootDirectory :: cgroupPath rootDirectory :: pidsPath rootDirectory ::
    removedFiles rootDirectory

/-- What the calls of `releasing_all_resources` need after the copy, one after the other. -/
def Released (env : Environment) (rootDirectory : List Char) (f : Filesystem (List Char)) : Prop :=
  let granted := fun site => env.grants site = true
  let inPids := fun name => pidsPath rootDirectory ++ [name]
  (granted .chdirRelease ∧ walk f.dirs [] [] (components (pidsDirectory rootDirectory)) =
    some (pidsPath rootDirectory)) ∧
  (granted .removeMax ∧ Next f [] (inPids maxFile)) ∧
  (granted .removeRelease ∧ Next f [inPids maxFile] (inPids releaseFile)) ∧
  (granted .removeProcs ∧ Next f [inPids releaseFile, inPids maxFile] (inPids procsFile)) ∧
  granted .leavePids ∧
  (granted .removePids ∧ Next f (removedFiles rootDirectory) (pidsPath rootDirectory)) ∧
  granted .leaveCgroup ∧
  (granted .removeCgroup ∧
    Next f (pidsPath rootDirectory :: removedFiles rootDirectory) (cgroupPath rootDirectory)) ∧
  granted .leaveFs ∧
  (granted .removeFs ∧
    Next f (cgroupPath rootDirectory :: pidsPath rootDirectory :: removedFiles rootDirectory)
      (fsPath rootDirectory)) ∧ True

/-- **The calls after the copy**: when they go through, and where that leads. -/
theorem goesThrough_release (habs : rootDirectory.head? = some '/') (hroot : p.root = []) :
    GoesThrough (releasingAllResources env rootDirectory).tail p
      (Released env rootDirectory p.fs) fun p' => p.fs.Without (removed rootDirectory) p'.fs := by
  have hresolve : p.resolve (pidsDirectory rootDirectory) =
      walk p.fs.dirs [] [] (components (pidsDirectory rootDirectory)) := by
    have hhead : (pidsDirectory rootDirectory).head? = some '/' := by
      simp [pidsDirectory, habs]
    rw [Process.resolve, if_pos hhead, hroot]
  have hchdir : ∀ p', checked env .chdirRelease errorFileDirectory
      (chdir (pidsDirectory rootDirectory)) p = .ok p' ↔
      (env.grants .chdirRelease = true ∧
        walk p.fs.dirs [] [] (components (pidsDirectory rootDirectory)) =
          some (pidsPath rootDirectory)) ∧ p' = { p with cwd := pidsPath rootDirectory } := by
    intro p'
    rw [checked_eq_ok, chdir, hresolve, Option.map_eq_some_iff, and_assoc]
    refine and_congr_right fun _ => ?_
    constructor
    · rintro ⟨q, hq, rfl⟩
      have hq' := eq_normal_of_walk hq
      rw [normal_pidsDirectory] at hq'
      exact ⟨hq' ▸ hq, by rw [hq']⟩
    · rintro ⟨hq, rfl⟩
      exact ⟨_, hq, rfl⟩
  refine .cons ?_ fun p₁ h₁ => ?_
  · refine ⟨fun ⟨p', hp'⟩ => ((hchdir p').mp hp').1, fun h => ⟨_, (hchdir _).mpr ⟨h, rfl⟩⟩⟩
  obtain ⟨-, rfl⟩ := (hchdir p₁).mp h₁
  have hstart : Releasing p.fs [] (pidsPath rootDirectory)
      { p with cwd := pidsPath rootDirectory } := ⟨.refl, rfl, hroot⟩
  refine hstart.remove fun p₂ h₂ => h₂.remove fun p₃ h₃ => h₃.remove fun p₄ h₄ => ?_
  refine Releasing.leave h₄ fun p₅ h₅ => h₅.remove fun p₆ h₆ => ?_
  refine Releasing.leave h₆ fun p₇ h₇ => h₇.remove fun p₈ h₈ => ?_
  refine Releasing.leave h₈ fun p₉ h₉ => h₉.remove fun p' h' => .nil ?_
  exact h'.without

/-- What is gone does not matter for what it does not lie in. -/
theorem next_iff_removable {q : List (List Char)} (hq : q ∉ gone)
    (hgone : ∀ r ∈ gone, r.dropLast ≠ q) : Next f gone q ↔ f.Removable q := by
  rw [Filesystem.Without.refl.removable_iff, Next]
  have hchildren : ∀ r, r.dropLast = q → (r ∈ gone ↔ r ∈ ([] : List (List (List Char)))) :=
    fun r hr => ⟨fun h => absurd hr (hgone r h), nofun⟩
  refine and_congr (by simp [hq]) (or_congr_right ?_)
  refine and_congr_right fun _ => and_congr_right fun _ => and_congr_right fun _ => ?_
  exact forall_congr' fun r => imp_congr_right fun _ => imp_congr_right fun _ =>
    ⟨fun h hr => (hchildren r hr).mp (h hr), fun h hr => (hchildren r hr).mpr (h hr)⟩

/-- A directory can be removed next if what is gone is all that lay in it. -/
theorem next_dir_iff {d : List (List Char)} {names : List (List Char)} (hd : d ∈ f.dirs)
    (hne : d ≠ []) (hgone : d ∉ gone)
    (hnames : ∀ r, r.dropLast = d → (r ∈ gone ↔ ∃ name ∈ names, r = d ++ [name])) :
    Next f gone d ↔ d ∉ f.mounts ∧ f.Sole d names := by
  have hfile : d ∉ f.files := Finset.disjoint_left.mp f.disjoint hd
  have hsole : f.Sole d names ↔ ∀ r, f.Exists r → r ≠ [] → r.dropLast = d → r ∈ gone := by
    constructor
    · intro h r hr hr0 hrd
      exact (hnames r hrd).mpr (h r hr.mem hr0 hrd)
    · intro h r hr hr0 hrd
      exact (hnames r hrd).mp (h r (Finset.mem_union.mp hr) hr0 hrd)
  rw [Next, hsole]
  simp only [hgone, hfile, hd, hne, ne_eq, not_false_eq_true, true_and, false_or]

/-- The directories are there if something is in the innermost. -/
theorem dirs_of_removable (h : f.Removable (pidsPath rootDirectory ++ [name])) :
    pidsPath rootDirectory ∈ f.dirs ∧ cgroupPath rootDirectory ∈ f.dirs ∧
      fsPath rootDirectory ∈ f.dirs := by
  have hpids : pidsPath rootDirectory ∈ f.dirs := h.exists_.parent
  have hcgroup : cgroupPath rootDirectory ∈ f.dirs := Filesystem.Exists.parent (.inl hpids)
  exact ⟨hpids, hcgroup, Filesystem.Exists.parent (.inl hcgroup)⟩

theorem next_pids_iff (hd : pidsPath rootDirectory ∈ f.dirs) :
    Next f (removedFiles rootDirectory) (pidsPath rootDirectory) ↔
      pidsPath rootDirectory ∉ f.mounts ∧ f.Sole (pidsPath rootDirectory) pidsFiles := by
  refine next_dir_iff hd (by simp [pidsPath]) ?_ fun r _ => mem_removedFiles
  rw [mem_removedFiles]
  rintro ⟨name, -, h⟩
  simpa using congrArg List.length h

/-- A directory can be removed after the only one in it, when all else that is gone lay below. -/
theorem next_outer_iff {d : List (List Char)} {inner : List Char} (hd : d ∈ f.dirs) (hne : d ≠ [])
    (hbelow : ∀ r ∈ gone, d.length + 2 ≤ r.length) :
    Next f ((d ++ [inner]) :: gone) d ↔ d ∉ f.mounts ∧ f.Sole d [inner] := by
  refine next_dir_iff hd hne ?_ fun r hr => ?_
  · rw [List.mem_cons, not_or]
    refine ⟨fun h => by simpa using congrArg List.length h, fun h => ?_⟩
    have := hbelow d h
    omega
  · simp only [List.mem_cons, List.not_mem_nil, or_false, exists_eq_left]
    refine or_iff_left fun hmem => ?_
    have := hbelow r hmem
    rw [← hr, List.length_dropLast] at this
    omega

theorem next_cgroup_iff (hd : cgroupPath rootDirectory ∈ f.dirs) :
    Next f (pidsPath rootDirectory :: removedFiles rootDirectory) (cgroupPath rootDirectory) ↔
      cgroupPath rootDirectory ∉ f.mounts ∧ f.Sole (cgroupPath rootDirectory) [pids] := by
  refine next_outer_iff hd (by simp [cgroupPath]) fun r hr => ?_
  obtain ⟨name, -, rfl⟩ := mem_removedFiles.mp hr
  simp [pidsPath]

theorem next_fs_iff (hd : fsPath rootDirectory ∈ f.dirs) :
    Next f (cgroupPath rootDirectory :: pidsPath rootDirectory :: removedFiles rootDirectory)
      (fsPath rootDirectory) ↔
      fsPath rootDirectory ∉ f.mounts ∧ f.Sole (fsPath rootDirectory) [cgroup] := by
  refine next_outer_iff hd (by simp [fsPath]) fun r hr => ?_
  rcases List.mem_cons.mp hr with rfl | hr
  · simp [pidsPath, cgroupPath]
  · obtain ⟨name, -, rfl⟩ := mem_removedFiles.mp hr
    simp [pidsPath, cgroupPath]

/-- Each file is removed for itself. -/
theorem next_file_iff (names : List (List Char)) (hname : name ∉ names) :
    Next f (names.map fun name => pidsPath rootDirectory ++ [name])
      (pidsPath rootDirectory ++ [name]) ↔ f.Removable (pidsPath rootDirectory ++ [name]) := by
  refine next_iff_removable (fun h => hname ?_) fun r hr => ?_
  · obtain ⟨name', hname', h⟩ := List.mem_map.mp h
    have := List.append_cancel_left h
    rwa [← List.cons.inj this |>.1]
  · obtain ⟨name', -, rfl⟩ := List.mem_map.mp hr
    rw [List.dropLast_concat]
    intro h
    simpa using congrArg List.length h

/-- **When the calls after the copy go through.** -/
theorem released_iff : Released env rootDirectory f ↔ Releasable env rootDirectory f := by
  have hmax : Next f [] (pidsPath rootDirectory ++ [maxFile]) ↔ _ :=
    next_file_iff [] nofun
  have hrelease : Next f [pidsPath rootDirectory ++ [maxFile]]
      (pidsPath rootDirectory ++ [releaseFile]) ↔ _ :=
    next_file_iff [maxFile] (by decide)
  have hprocs : Next f
      [pidsPath rootDirectory ++ [releaseFile], pidsPath rootDirectory ++ [maxFile]]
      (pidsPath rootDirectory ++ [procsFile]) ↔ _ :=
    next_file_iff [releaseFile, maxFile] (by decide)
  constructor
  · rintro ⟨⟨g₁, hwalk⟩, ⟨g₂, hn₂⟩, ⟨g₃, hn₃⟩, ⟨g₄, hn₄⟩, g₅, ⟨g₆, hn₆⟩, g₇, ⟨g₈, hn₈⟩, g₉,
      ⟨g₁₀, hn₁₀⟩, -⟩
    obtain ⟨hp, hc, hf⟩ := dirs_of_removable (hmax.mp hn₂)
    rw [next_pids_iff hp] at hn₆
    rw [next_cgroup_iff hc] at hn₈
    rw [next_fs_iff hf] at hn₁₀
    refine ⟨?_, hwalk, ?_, hn₆.2, hn₈.2, hn₁₀.2, ?_⟩
    · simpa [releaseSites] using ⟨g₁, g₂, g₃, g₄, g₅, g₆, g₇, g₈, g₉, g₁₀⟩
    · simpa [pidsFiles] using ⟨hmax.mp hn₂, hrelease.mp hn₃, hprocs.mp hn₄⟩
    · simpa using ⟨hn₁₀.1, hn₈.1, hn₆.1⟩
  · intro h
    have hfile : ∀ name ∈ pidsFiles, f.Removable (pidsPath rootDirectory ++ [name]) := h.files
    simp only [pidsFiles, List.forall_mem_cons] at hfile
    obtain ⟨r₂, r₃, r₄, -⟩ := hfile
    obtain ⟨hp, hc, hf⟩ := dirs_of_removable r₂
    have hgranted := h.granted
    simp only [releaseSites, List.forall_mem_cons] at hgranted
    obtain ⟨g₁, g₂, g₃, g₄, g₅, g₆, g₇, g₈, g₉, g₁₀, -⟩ := hgranted
    have hmounts := h.unmounted
    simp only [List.forall_mem_cons] at hmounts
    obtain ⟨hmf, hmc, hmp, -⟩ := hmounts
    exact ⟨⟨g₁, h.reached⟩, ⟨g₂, hmax.mpr r₂⟩, ⟨g₃, hrelease.mpr r₃⟩, ⟨g₄, hprocs.mpr r₄⟩, g₅,
      ⟨g₆, (next_pids_iff hp).mpr ⟨hmp, h.pids⟩⟩, g₇,
      ⟨g₈, (next_cgroup_iff hc).mpr ⟨hmc, h.cgroup⟩⟩, g₉,
      ⟨g₁₀, (next_fs_iff hf).mpr ⟨hmf, h.fs⟩⟩, trivial⟩

end release

/-! ## What is left -/

section left

variable {site : Site} {message : String} {p p' : Process} {name path : List Char}
  {q : List (List Char)}

theorem exists_of_chdir (h : checked env site message (chdir path) p = .ok p') :
    p'.fs.Exists q ↔ p.fs.Exists q := by
  rw [(fs_of_chdir (checked_eq_ok.mp h).2).1]

theorem exists_of_remove (h : checked env site message (remove name) p = .ok p') :
    p'.fs.Exists q ↔ p.fs.Exists q ∧ q ≠ p.cwd ++ [name] := by
  obtain ⟨fs', hfs, rfl⟩ := remove_eq_some.mp (checked_eq_ok.mp h).2
  exact Filesystem.exists_remove hfs

/-- The calls after the copy and before the last: `chdir`, and `remove` of another name. -/
theorem release_calls (env : Environment) (rootDirectory : List Char) :
    ∃ calls : List (Call Process Stop), (releasingAllResources env rootDirectory).tail =
        calls ++ [checked env .removeFs errorDelete (remove fs)] ∧
      ∀ call ∈ calls, (∃ site path, call = checked env site errorFileDirectory (chdir path)) ∨
        ∃ site name, name ≠ fs ∧ call = checked env site errorDelete (remove name) := by
  refine ⟨[_, _, _, _, _, _, _, _, _], rfl, ?_⟩
  simp only [List.forall_mem_cons]
  exact ⟨.inl ⟨_, _, rfl⟩, .inr ⟨_, _, by decide, rfl⟩, .inr ⟨_, _, by decide, rfl⟩,
    .inr ⟨_, _, by decide, rfl⟩, .inl ⟨_, _, rfl⟩, .inr ⟨_, _, by decide, rfl⟩, .inl ⟨_, _, rfl⟩,
    .inr ⟨_, _, by decide, rfl⟩, .inl ⟨_, _, rfl⟩, nofun⟩

theorem stop_ne_undefined :
    (runCalls (releasingAllResources env rootDirectory).tail p).2 ≠ some .undefined := by
  intro hstop
  obtain ⟨call, hmem, t, ht⟩ := exists_of_runCalls hstop
  obtain ⟨calls, heq, hcalls⟩ := release_calls env rootDirectory
  rw [heq, List.mem_append, List.mem_singleton] at hmem
  rcases hmem with hmem | rfl
  · rcases hcalls call hmem with ⟨site, path, rfl⟩ | ⟨site, name, -, rfl⟩
    · exact checked_ne_undefined ht
    · exact checked_ne_undefined ht
  · exact checked_ne_undefined ht

/-- Only the last call removes something that is called `fs`. -/
theorem exists_fsPath_of_calls {calls : List (Call Process Stop)}
    (hcalls : ∀ call ∈ calls,
      (∃ site path, call = checked env site errorFileDirectory (chdir path)) ∨
        ∃ site name, name ≠ fs ∧ call = checked env site errorDelete (remove name)) :
    (runCalls calls p).1.fs.Exists (fsPath rootDirectory) ↔
      p.fs.Exists (fsPath rootDirectory) := by
  refine runCalls_invariant (P := fun p' : Process => p'.fs.Exists (fsPath rootDirectory) ↔
    p.fs.Exists (fsPath rootDirectory)) (fun call hmem s s' hP hs => ?_) Iff.rfl
  rcases hcalls call hmem with ⟨site, path, rfl⟩ | ⟨site, name, hname, rfl⟩
  · rw [exists_of_chdir hs, hP]
  · rw [exists_of_remove hs, ← hP]
    refine and_iff_left fun heq => hname ?_
    have := (List.append_inj_right' heq rfl).symm
    exact List.cons.inj this |>.1

/-- After the copy the directory `fs` is removed if everything is as it should be, or not at all. -/
theorem exists_of_released (habs : rootDirectory.head? = some '/') (hroot : p.root = []) :
    (runCalls (releasingAllResources env rootDirectory).tail p).1.fs.Exists
        (fsPath rootDirectory) ↔
      p.fs.Exists (fsPath rootDirectory) ∧ ¬ Releasable env rootDirectory p.fs := by
  have hgoes : GoesThrough (releasingAllResources env rootDirectory).tail p _ _ :=
    goesThrough_release habs hroot
  rw [← released_iff, ← hgoes.iff]
  by_cases hdone : (runCalls (releasingAllResources env rootDirectory).tail p).2 = none
  · simp only [hdone, not_true_eq_false, and_false, iff_false]
    rw [(hgoes.ends hdone).exists_iff]
    exact fun h => h.2 List.mem_cons_self
  · rw [and_iff_left hdone]
    obtain ⟨calls, heq, hcalls⟩ := release_calls env rootDirectory
    rw [heq] at hdone ⊢
    rw [← exists_fsPath_of_calls hcalls (p := p)]
    rcases hrun : runCalls calls p with ⟨t, _ | e⟩
    · rw [runCalls_append_of_none hrun] at hdone ⊢
      cases hlast : checked env .removeFs errorDelete (remove fs) t with
      | ok t' =>
          rw [runCalls_cons_of_ok hlast] at hdone
          exact absurd rfl hdone
      | error e => rw [runCalls_cons_of_error hlast]
    · rw [runCalls_append_of_some hrun]

/-- Everything that is created lies in `<root>/sys/fs`. -/
theorem nothing_created_iff {f : Filesystem (List Char)} :
    (∀ q ∈ created rootDirectory, ¬ f.Exists q) ↔ ¬ f.Exists (fsPath rootDirectory) := by
  have hbelow : ∀ q ∈ created rootDirectory, ∃ r, q = fsPath rootDirectory ++ r := by
    intro q hq
    simp only [created, List.mem_append, List.mem_cons, List.not_mem_nil, or_false,
      List.mem_map] at hq
    rcases hq with (rfl | rfl | rfl) | ⟨name, -, rfl⟩
    · exact ⟨[], (List.append_nil _).symm⟩
    · exact ⟨_, rfl⟩
    · exact ⟨_, List.append_assoc _ _ _⟩
    · exact ⟨[cgroup, pids, name], by simp [pidsPath, cgroupPath]⟩
  constructor
  · intro h
    exact h _ (by simp [created])
  · intro h q hq hex
    obtain ⟨r, rfl⟩ := hbelow q hq
    exact h hex.of_append

/-- `<root>/proc`. -/
theorem normal_proc (rootDirectory : List Char) :
    normal [] [] (components (rootDirectory ++ dir proc)) = rootPath rootDirectory ++ [proc] := by
  have hproc : components proc = [proc].map .down := by decide
  rw [dir, components_append, hproc, normal_append, normal_down, rootPath]

/-- When `umount` goes through, and what it leaves. -/
theorem umount_eq_ok (env : Environment) (habs : rootDirectory.head? = some '/') {p : Process}
    (hroot : p.root = []) :
    ((∃ p', checked env .umount errorUmount (umount (rootDirectory ++ dir proc)) p = .ok p') ↔
      Unmounts env rootDirectory p.fs) ∧
    ∀ p', checked env .umount errorUmount (umount (rootDirectory ++ dir proc)) p = .ok p' →
      p.fs.umount (rootPath rootDirectory ++ [proc]) = some p'.fs ∧ p'.root = [] := by
  have hresolve : p.resolve (rootDirectory ++ dir proc) =
      walk p.fs.dirs [] [] (components (rootDirectory ++ dir proc)) := by
    rw [Process.resolve, if_pos (by simp [habs]), hroot]
  have hop : ∀ p', umount (rootDirectory ++ dir proc) p = some p' ↔
      ∃ q, walk p.fs.dirs [] [] (components (rootDirectory ++ dir proc)) = some q ∧
        ∃ fs', p.fs.umount q = some fs' ∧ { p with fs := fs' } = p' := by
    intro p'
    simp only [umount, hresolve, Option.bind_eq_some_iff, Option.map_eq_some_iff]
  constructor
  · simp only [checked_eq_ok, hop, Unmounts]
    constructor
    · rintro ⟨p', hgrants, q, hq, fs', hfs, -⟩
      refine ⟨hgrants, q, ?_, hq⟩
      rw [Filesystem.umount] at hfs
      split_ifs at hfs with hmem
      exact hmem
    · rintro ⟨hgrants, q, hmem, hq⟩
      exact ⟨_, hgrants, q, hq, _, dif_pos hmem, rfl⟩
  · intro p' hp'
    obtain ⟨q, hq, fs', hfs, rfl⟩ := (hop p').mp (checked_eq_ok.mp hp').2
    rw [eq_normal_of_walk hq, normal_proc] at hfs
    exact ⟨hfs, hroot⟩

theorem releasable_umount {f f' : Filesystem (List Char)}
    (h : f.umount (rootPath rootDirectory ++ [proc]) = some f') :
    Releasable env rootDirectory f' ↔ Releasable env rootDirectory f := by
  have hfiles : ∀ name, f'.Removable (pidsPath rootDirectory ++ [name]) ↔
      f.Removable (pidsPath rootDirectory ++ [name]) := fun name =>
    Filesystem.removable_umount h (by simp [pidsPath, cgroupPath, fsPath, sysPath])
  have hmounts : ∀ q ∈ [fsPath rootDirectory, cgroupPath rootDirectory, pidsPath rootDirectory],
      (q ∈ f'.mounts ↔ q ∈ f.mounts) := by
    intro q hq
    refine Filesystem.mem_mounts_umount h ?_
    simp only [List.mem_cons, List.not_mem_nil, or_false] at hq
    rcases hq with rfl | rfl | rfl <;> simp [pidsPath, cgroupPath, fsPath, sysPath]
  have hdirs := (Filesystem.dirs_umount h).1
  constructor
  · intro hr
    exact ⟨hr.granted, hdirs ▸ hr.reached,
      fun name hname => (hfiles name).mp (hr.files name hname),
      (Filesystem.sole_umount h).mp hr.pids, (Filesystem.sole_umount h).mp hr.cgroup,
      (Filesystem.sole_umount h).mp hr.fs,
      fun q hq hm => hr.unmounted q hq ((hmounts q hq).mpr hm)⟩
  · intro hr
    exact ⟨hr.granted, hdirs ▸ hr.reached,
      fun name hname => (hfiles name).mpr (hr.files name hname),
      (Filesystem.sole_umount h).mpr hr.pids, (Filesystem.sole_umount h).mpr hr.cgroup,
      (Filesystem.sole_umount h).mpr hr.fs,
      fun q hq hm => hr.unmounted q hq ((hmounts q hq).mp hm)⟩

/-- The calls of the parent after `wait`, with the first two apart. -/
theorem parent_calls :
    umountContainer env rootDirectory ++ releasingAllResources env rootDirectory =
      checked env .umount errorUmount (umount (rootDirectory ++ dir proc)) ::
        strcpy (pidsDirectory rootDirectory) ::
          (releasingAllResources env rootDirectory).tail := rfl

/-- **When the parent leaves nothing behind**: when there is nothing, or what is mounted can be
taken off and the directory `fs` holds exactly what is created and the kernel lets the parent remove
it; in any case the parent must not get to copy a path that does not fit. -/
theorem cleanup_iff (habs : rootDirectory.head? = some '/') (w : Filesystem (List Char)) :
    NothingLeft rootDirectory (runCalls
        (umountContainer env rootDirectory ++ releasingAllResources env rootDirectory)
        ⟨w, cwd, []⟩) ↔
      (Unmounts env rootDirectory w → Fits rootDirectory) ∧
      (¬ w.Exists (fsPath rootDirectory) ∨
        (Unmounts env rootDirectory w ∧ Releasable env rootDirectory w)) := by
  rw [NothingLeft, nothing_created_iff, parent_calls]
  obtain ⟨hunmounts, hleaves⟩ := umount_eq_ok env habs (p := ⟨w, cwd, []⟩) rfl
  cases hcall : checked env .umount errorUmount (umount (rootDirectory ++ dir proc))
      ⟨w, cwd, []⟩ with
  | error e =>
      have hnot : ¬ Unmounts env rootDirectory w := by
        rw [← hunmounts, hcall]
        rintro ⟨p', hp'⟩
        cases hp'
      have he : e ≠ .undefined := by
        rintro rfl
        exact checked_ne_undefined hcall
      rw [runCalls_cons_of_error hcall]
      simp [hnot, he]
  | ok p' =>
      have hyes : Unmounts env rootDirectory w := hunmounts.mp ⟨p', hcall⟩
      obtain ⟨hfs, hroot⟩ := hleaves p' hcall
      rw [runCalls_cons_of_ok hcall]
      by_cases hfits : Fits rootDirectory
      · have hcopy : strcpy (pidsDirectory rootDirectory) p' = .ok p' := if_pos hfits
        rw [runCalls_cons_of_ok hcopy, and_iff_right stop_ne_undefined,
          exists_of_released habs hroot, Filesystem.exists_umount hfs, releasable_umount hfs]
        simp only [hyes, hfits]
        tauto
      · have hcopy : strcpy (pidsDirectory rootDirectory) p' = .error .undefined := if_neg hfits
        rw [runCalls_cons_of_error hcopy]
        simp [hyes, hfits]

/-- A parent that exits with a message has not come as far as the copy, or what it should remove is
not as it should be. -/
theorem not_releasable_of_exit (habs : rootDirectory.head? = some '/')
    {w : Filesystem (List Char)} {message : String} (hexit : (runCalls
      (umountContainer env rootDirectory ++ releasingAllResources env rootDirectory)
      ⟨w, cwd, []⟩).2 = some (.exit message)) (hunmounts : Unmounts env rootDirectory w) :
    Fits rootDirectory ∧ ¬ Releasable env rootDirectory w := by
  obtain ⟨hiff, hleaves⟩ := umount_eq_ok env habs (p := ⟨w, cwd, []⟩) rfl
  obtain ⟨p', hcall⟩ := hiff.mpr hunmounts
  obtain ⟨hfs, hroot⟩ := hleaves p' hcall
  rw [parent_calls, runCalls_cons_of_ok hcall] at hexit
  by_cases hfits : Fits rootDirectory
  · have hcopy : strcpy (pidsDirectory rootDirectory) p' = .ok p' := if_pos hfits
    rw [runCalls_cons_of_ok hcopy] at hexit
    refine ⟨hfits, fun hr => ?_⟩
    rw [← releasable_umount hfs, ← released_iff, ← (goesThrough_release habs hroot).iff,
      hexit] at hr
    cases hr
  · have hcopy : strcpy (pidsDirectory rootDirectory) p' = .error .undefined := if_neg hfits
    rw [runCalls_cons_of_error hcopy] at hexit
    cases hexit

end left

end CoreOS.Container
