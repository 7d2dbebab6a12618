import CoreOS.Container.Cleanup

/-!
# What the child leaves behind

`create_container` up to the call at which it stops.

* `Begun`: what the calls up to `mkdir(FS)` lead to; `begun_of_creates`.
* `Created`: what is there later on, the directories and files made so far.
* `creation_cases`: the calls from there up to `chdir` to `pids`; each can only fail because the
  kernel refuses it.
* `opened` are the files that have been opened.
-/

namespace CoreOS.Container

open CoreOS.Lib

variable {env : Environment} {rootDirectory : List Char} {cwd : List (List Char)}
  {fs₀ : Filesystem (List Char)}

/-! ## Up to the first directory -/

/-- The calls of `create_container` up to `mkdir(FS)`. -/
def beginning (env : Environment) (rootDirectory : List Char) : List (Call Process Stop) :=
  (createContainer env rootDirectory).take 5

/-- The child has made the directory `fs` and nothing else. -/
structure Begun (rootDirectory : List Char) (fs₀ : Filesystem (List Char)) (p : Process) :
    Prop where
  walk : walk fs₀.dirs [] [] (components rootDirectory) = some (rootPath rootDirectory)
  fs_new : ¬ fs₀.Exists (fsPath rootDirectory)
  fs : fs₀.With [fsPath rootDirectory] [] p.fs
  cwd : p.cwd = sysPath rootDirectory
  root : p.root = rootPath rootDirectory

theorem begun_of_beginning (habs : rootDirectory.head? = some '/') {p : Process}
    (h : runCalls (beginning env rootDirectory) ⟨fs₀, cwd, []⟩ = (p, none)) :
    Begun rootDirectory fs₀ p := by
  have hcalls : beginning env rootDirectory =
      [checked env .sethostname errorName some,
        checked env .chdirRoot errorFileDirectory (chdir rootDirectory),
        checked env .chroot errorRootDirectory (chroot rootDirectory),
        checked env .chdirSys errorFileDirectory (chdir (dir sys)),
        checked env .mkdirFs errorCreatingNewDirectory (mkdir fs)] := rfl
  rw [hcalls] at h
  obtain ⟨p₁, h₁, h⟩ := runCalls_cons_eq_none.mp h
  obtain ⟨p₂, h₂, h⟩ := runCalls_cons_eq_none.mp h
  obtain ⟨p₃, h₃, h⟩ := runCalls_cons_eq_none.mp h
  obtain ⟨p₄, h₄, h⟩ := runCalls_cons_eq_none.mp h
  obtain ⟨p₅, h₅, h⟩ := runCalls_cons_eq_none.mp h
  cases h
  cases (checked_eq_ok.mp h₁).2
  obtain ⟨q, hq, rfl⟩ := Option.map_eq_some_iff.mp (checked_eq_ok.mp h₂).2
  obtain ⟨q', hq', rfl⟩ := Option.map_eq_some_iff.mp (checked_eq_ok.mp h₃).2
  obtain ⟨q'', hq'', rfl⟩ := Option.map_eq_some_iff.mp (checked_eq_ok.mp h₄).2
  obtain ⟨fs', hfs', rfl⟩ := Option.map_eq_some_iff.mp (checked_eq_ok.mp h₅).2
  rw [Process.resolve, if_pos habs] at hq hq'
  have hroot : q = rootPath rootDirectory := eq_normal_of_walk hq
  have hroot' : q' = rootPath rootDirectory := eq_normal_of_walk hq'
  have hsys : q'' = q' ++ [sys] := by
    have hcomponents : components (dir sys) = [sys].map .down := by decide
    rw [Process.resolve, if_pos (by decide), hcomponents] at hq''
    rw [eq_normal_of_walk hq'', normal_down]
  have hcwd : q'' = sysPath rootDirectory := by
    rw [hsys, hroot']
    rfl
  have hmade : fs₀.mkdir (fsPath rootDirectory) = some fs' := by
    rw [fsPath, ← hcwd]
    exact hfs'
  have hnew : ¬ fs₀.Exists (fsPath rootDirectory) :=
    (Filesystem.mkdir_isSome.mp (Option.isSome_of_eq_some hmade)).1
  exact ⟨hroot ▸ hq, hnew, Filesystem.With.refl.mkdir hmade, hcwd, hroot'⟩

/-! ## Up to the innermost directory -/

/-- The child has made the directories `ds` and the files `fl`, and is in the directory `c`. -/
structure Making (rootDirectory : List Char) (fs₀ : Filesystem (List Char))
    (ds fl : List (List (List Char))) (c : List (List Char)) (p : Process) : Prop where
  fs : fs₀.With ds fl p.fs
  cwd : p.cwd = c
  root : p.root = rootPath rootDirectory

section making

variable {site : Site} {message : String} {op : Process → Option Process} {p : Process}
  {ds fl : List (List (List Char))} {c : List (List Char)} {calls : List (Call Process Stop)}

theorem checked_refused (h : env.grants site = false) :
    checked env site message op p = .error (errorHandler message) := by
  simp [checked, h]

theorem checked_granted (h : env.grants site = true) {p' : Process} (hop : op p = some p') :
    checked env site message op p = .ok p' :=
  checked_eq_ok.mpr ⟨h, hop⟩

/-- Into a directory that is there. -/
theorem Making.chdir (h : Making rootDirectory fs₀ ds fl c p) (path : List Char)
    (names : List (List Char)) (hpath : path.head? = some '/')
    (hcomponents : components path = names.map .down)
    (hmem : rootPath rootDirectory ++ names ∈ p.fs.dirs) :
    ∃ p', chdir path p = some p' ∧
      Making rootDirectory fs₀ ds fl (rootPath rootDirectory ++ names) p' := by
  refine ⟨{ p with cwd := rootPath rootDirectory ++ names }, ?_, h.fs, rfl, h.root⟩
  rw [Container.chdir, Process.resolve, if_pos hpath, hcomponents, h.root, walk_names hmem]
  rfl

/-- A directory that is new. -/
theorem Making.mkdir (h : Making rootDirectory fs₀ ds fl c p) (name : List Char)
    (hc : c ∈ p.fs.dirs) (hnew : ¬ fs₀.Exists (c ++ [name])) (hds : c ++ [name] ∉ ds)
    (hfl : c ++ [name] ∉ fl) :
    ∃ p', mkdir name p = some p' ∧ Making rootDirectory fs₀ ((c ++ [name]) :: ds) fl c p' := by
  have hsome : (p.fs.mkdir (c ++ [name])).isSome := by
    rw [Filesystem.mkdir_isSome, h.fs.exists_iff, List.dropLast_concat]
    exact ⟨by simp [hnew, hds, hfl], hc⟩
  obtain ⟨fs', hfs'⟩ := Option.isSome_iff_exists.mp hsome
  refine ⟨{ p with fs := fs' }, ?_, h.fs.mkdir hfs', h.cwd, h.root⟩
  rw [Container.mkdir, h.cwd, hfs']
  rfl

end making

/-- Where the kernel is called between `mkdir(FS)` and the opening of the files. -/
def creationSites : List Site := [.chdirFs, .mkdirCgroup, .chdirCgroup, .mkdirPids, .chdirPids]

/-- The calls between `mkdir(FS)` and the opening of the files. -/
def creation (env : Environment) : List (Call Process Stop) :=
  ((limitingNumberProcesses env).drop 2).take 5

/-- **The creation of the directories** goes through, or the kernel refuses a call. -/
theorem creation_cases (env : Environment) {p : Process} (h : Begun rootDirectory fs₀ p)
    (calls : List (Call Process Stop)) :
    ((∀ site ∈ creationSites, env.grants site = true) ∧
      ∃ p', runCalls (creation env ++ calls) p = runCalls calls p' ∧
        Making rootDirectory fs₀
          [pidsPath rootDirectory, cgroupPath rootDirectory, fsPath rootDirectory] []
          (pidsPath rootDirectory) p') ∨
    ((¬ ∀ site ∈ creationSites, env.grants site = true) ∧
      ∃ p' ds message, runCalls (creation env ++ calls) p = (p', some (errorHandler message)) ∧
        fsPath rootDirectory ∈ ds ∧
        ds ⊆ [pidsPath rootDirectory, cgroupPath rootDirectory, fsPath rootDirectory] ∧
        fs₀.With ds [] p'.fs) := by
  have hcalls : creation env ++ calls =
      checked env .chdirFs errorFileDirectory (chdir (dir sys ++ dir fs)) ::
      checked env .mkdirCgroup errorCreatingNewDirectory (mkdir cgroup) ::
      checked env .chdirCgroup errorFileDirectory (chdir (dir sys ++ dir fs ++ dir cgroup)) ::
      checked env .mkdirPids errorCreatingNewDirectory (mkdir pids) ::
      checked env .chdirPids errorFileDirectory
        (chdir (dir sys ++ dir fs ++ dir cgroup ++ dir pids)) :: calls := rfl
  rw [hcalls]
  have hnewC : ¬ fs₀.Exists (cgroupPath rootDirectory) := fun hex => h.fs_new hex.of_append
  have hnewP : ¬ fs₀.Exists (pidsPath rootDirectory) := fun hex => hnewC hex.of_append
  have hF : rootPath rootDirectory ++ [sys, fs] = fsPath rootDirectory := by
    simp [fsPath, sysPath]
  have hC : rootPath rootDirectory ++ [sys, fs, cgroup] = cgroupPath rootDirectory := by
    simp [cgroupPath, fsPath, sysPath]
  have hP : rootPath rootDirectory ++ [sys, fs, cgroup, pids] = pidsPath rootDirectory := by
    simp [pidsPath, cgroupPath, fsPath, sysPath]
  -- a call that the kernel refuses ends the child with what it has made
  have refused : ∀ {site message op p ds c rest}, site ∈ creationSites →
      env.grants site = false → Making rootDirectory fs₀ ds [] c p →
      fsPath rootDirectory ∈ ds →
      ds ⊆ [pidsPath rootDirectory, cgroupPath rootDirectory, fsPath rootDirectory] →
      (¬ ∀ site ∈ creationSites, env.grants site = true) ∧
      ∃ p' ds' message', runCalls (checked env site message op :: rest) p =
          (p', some (errorHandler message')) ∧ fsPath rootDirectory ∈ ds' ∧
        ds' ⊆ [pidsPath rootDirectory, cgroupPath rootDirectory, fsPath rootDirectory] ∧
        fs₀.With ds' [] p'.fs := by
    intro site message op p ds c rest hsite hrefused hmaking hmem hsub
    refine ⟨fun hall => ?_, p, ds, message, ?_, hmem, hsub, hmaking.fs⟩
    · rw [hall site hsite] at hrefused
      cases hrefused
    · exact runCalls_cons_of_error (checked_refused hrefused)
  have hmaking : Making rootDirectory fs₀ [fsPath rootDirectory] [] (sysPath rootDirectory) p :=
    ⟨h.fs, h.cwd, h.root⟩
  cases g₁ : env.grants .chdirFs with
  | false => exact .inr (refused (by decide) g₁ hmaking (by simp) (by simp))
  | true =>
  obtain ⟨p₁, h₁, m₁⟩ := hmaking.chdir (dir sys ++ dir fs) [sys, fs] (by decide) (by decide)
    (by rw [hF, h.fs.dirs]; simp)
  rw [hF] at m₁
  rw [runCalls_cons_of_ok (checked_granted g₁ h₁)]
  cases g₂ : env.grants .mkdirCgroup with
  | false => exact .inr (refused (by decide) g₂ m₁ (by simp) (by simp))
  | true =>
  obtain ⟨p₂, h₂, m₂⟩ := m₁.mkdir cgroup (by rw [m₁.fs.dirs]; simp) hnewC
    (by simp) List.not_mem_nil
  rw [runCalls_cons_of_ok (checked_granted g₂ h₂)]
  cases g₃ : env.grants .chdirCgroup with
  | false => exact .inr (refused (by decide) g₃ m₂ (by simp) (by simp [cgroupPath]))
  | true =>
  obtain ⟨p₃, h₃, m₃⟩ := m₂.chdir (dir sys ++ dir fs ++ dir cgroup) [sys, fs, cgroup] (by decide)
    (by decide) (by rw [hC, m₂.fs.dirs]; simp [cgroupPath])
  rw [hC] at m₃
  rw [runCalls_cons_of_ok (checked_granted g₃ h₃)]
  cases g₄ : env.grants .mkdirPids with
  | false => exact .inr (refused (by decide) g₄ m₃ (by simp) (by simp [cgroupPath]))
  | true =>
  obtain ⟨p₄, h₄, m₄⟩ := m₃.mkdir pids (by rw [m₃.fs.dirs]; simp [cgroupPath]) hnewP
    (by simp [cgroupPath]) List.not_mem_nil
  rw [runCalls_cons_of_ok (checked_granted g₄ h₄)]
  cases g₅ : env.grants .chdirPids with
  | false => exact .inr (refused (by decide) g₅ m₄ (by simp) (by simp [pidsPath, cgroupPath]))
  | true =>
  obtain ⟨p₅, h₅, m₅⟩ := m₄.chdir (dir sys ++ dir fs ++ dir cgroup ++ dir pids)
    [sys, fs, cgroup, pids] (by decide) (by decide) (by rw [hP, m₄.fs.dirs]; simp [pidsPath])
  rw [hP] at m₅
  rw [runCalls_cons_of_ok (checked_granted g₅ h₅)]
  refine .inl ⟨?_, p₅, rfl, m₅⟩
  simpa [creationSites] using ⟨g₁, g₂, g₃, g₄, g₅⟩

/-! ## Up to the end -/

section ending

variable {p : Process} {ds fl : List (List (List Char))} {c : List (List Char)}

/-- The files that the child has made. -/
def opened (env : Environment) (rootDirectory : List Char) : List (List (List Char)) :=
  (if env.grants .openMax then [pidsPath rootDirectory ++ [maxFile]] else []) ++
    ((if env.grants .openRelease then [pidsPath rootDirectory ++ [releaseFile]] else []) ++
      ((if env.grants .openProcs then [pidsPath rootDirectory ++ [procsFile]] else []) ++ []))

/-- A file that is no directory is made, if the kernel does not refuse it. -/
theorem Making.openFile (h : Making rootDirectory fs₀ ds fl c p) (env : Environment) (site : Site)
    (name : List Char) (hc : c ∈ p.fs.dirs) (hnot : c ++ [name] ∉ p.fs.dirs) :
    ∃ p', unchecked env site (openFile name) p = .ok p' ∧
      Making rootDirectory fs₀ ds ((if env.grants site then [c ++ [name]] else []) ++ fl) c p' := by
  cases hgrants : env.grants site with
  | false => exact ⟨p, by simp [unchecked, hgrants], h⟩
  | true =>
      have hsome : (p.fs.create (c ++ [name])).isSome := by
        rw [Filesystem.create_isSome, List.dropLast_concat]
        exact ⟨hnot, hc⟩
      obtain ⟨fs', hfs'⟩ := Option.isSome_iff_exists.mp hsome
      refine ⟨{ p with fs := fs' }, ?_, h.fs.create hfs', h.cwd, h.root⟩
      rw [unchecked, if_pos hgrants, Container.openFile, h.cwd, hfs']
      rfl

/-- The opening of the files. -/
theorem opening (env : Environment) (hnew : ¬ fs₀.Exists (fsPath rootDirectory))
    (h : Making rootDirectory fs₀
      [pidsPath rootDirectory, cgroupPath rootDirectory, fsPath rootDirectory] []
      (pidsPath rootDirectory) p) (calls : List (Call Process Stop)) :
    ∃ p', runCalls (unchecked env .openProcs (openFile procsFile) ::
        unchecked env .openRelease (openFile releaseFile) ::
        unchecked env .openMax (openFile maxFile) :: calls) p = runCalls calls p' ∧
      Making rootDirectory fs₀
        [pidsPath rootDirectory, cgroupPath rootDirectory, fsPath rootDirectory]
        (opened env rootDirectory) (pidsPath rootDirectory) p' := by
  have hin : ∀ {fl p}, Making rootDirectory fs₀
      [pidsPath rootDirectory, cgroupPath rootDirectory, fsPath rootDirectory] fl
      (pidsPath rootDirectory) p → pidsPath rootDirectory ∈ p.fs.dirs :=
    fun hp => (hp.fs.dirs _).mpr (.inr List.mem_cons_self)
  have hfree : ∀ {fl p}, Making rootDirectory fs₀
      [pidsPath rootDirectory, cgroupPath rootDirectory, fsPath rootDirectory] fl
      (pidsPath rootDirectory) p → ∀ name, pidsPath rootDirectory ++ [name] ∉ p.fs.dirs := by
    intro fl p hp name
    rw [hp.fs.dirs]
    rintro (hmem | hmem)
    · exact hnew (Filesystem.Exists.of_append (q := [cgroup, pids, name]) (.inl (by
        simpa [pidsPath, cgroupPath] using hmem)))
    · simp [pidsPath, cgroupPath] at hmem
  obtain ⟨p₁, h₁, m₁⟩ := h.openFile env .openProcs procsFile (hin h) (hfree h _)
  obtain ⟨p₂, h₂, m₂⟩ := m₁.openFile env .openRelease releaseFile (hin m₁) (hfree m₁ _)
  obtain ⟨p₃, h₃, m₃⟩ := m₂.openFile env .openMax maxFile (hin m₂) (hfree m₂ _)
  refine ⟨p₃, ?_, m₃⟩
  rw [runCalls_cons_of_ok h₁, runCalls_cons_of_ok h₂, runCalls_cons_of_ok h₃]

end ending

end CoreOS.Container
