import CoreOS.Container.Creation

/-!
# Failed container runs

A whole run of the container in which something fails after the child has made `<root>/sys/fs`: what
it leaves behind, from what it finds and from what the kernel refuses. It is assumed that there are
no symbolic links, and a `Char` of a path is one `char` of the source.

* `FailedRun`: such a run, on a filesystem with `<root>/sys` and without `<root>/sys/fs`.
* `Complete`: what is there when the child has made everything. `child_left_of_begins` says what a
  child leaves, wherever it stops, and `child_left` what that of a failed run does.
* `CleansUp`: what it takes for the parent to remove what a child has left that has not come to run
  the program.
* `nothingLeft_iff`: **when a failed run leaves nothing behind**. `mount_failure_leaves` is a run
  that does not.
-/

namespace CoreOS.Container

open CoreOS.Lib

variable {env : Environment} {rootDirectory : List Char} {cwd : List (List Char)}
  {fs₀ w v : Filesystem (List Char)}

/-- A run on a filesystem with `<root>/sys` and without `<root>/sys/fs`, which the child has made
before a call fails. -/
structure FailedRun (env : Environment) (rootDirectory : List Char) (cwd : List (List Char))
    (fs₀ : Filesystem (List Char)) : Prop where
  absolute : rootDirectory.head? = some '/'
  cloned : env.grants .clone = true
  sys_mem : sysPath rootDirectory ∈ fs₀.dirs
  fs_new : ¬ fs₀.Exists (fsPath rootDirectory)
  begins : (runCalls (beginning env rootDirectory) ⟨fs₀, cwd, []⟩).2 = none
  fails : (main env rootDirectory cwd fs₀).child.2 ≠ none ∨
    ∃ message, (main env rootDirectory cwd fs₀).parent.2 = some (.exit message)

/-! ## What the child leaves -/

/-- The child's `mount` succeeds. -/
def Mounts (env : Environment) (rootDirectory : List Char) (fs₀ : Filesystem (List Char)) : Prop :=
  env.grants .mount = true ∧ rootPath rootDirectory ++ [proc] ∈ fs₀.dirs

instance : Decidable (Mounts env rootDirectory fs₀) := inferInstanceAs (Decidable (_ ∧ _))

/-- What is there when the child has made everything. -/
structure Complete (env : Environment) (rootDirectory : List Char)
    (fs₀ w : Filesystem (List Char)) : Prop where
  dirs : ∀ q, q ∈ w.dirs ↔ q ∈ fs₀.dirs ∨
    q ∈ [pidsPath rootDirectory, cgroupPath rootDirectory, fsPath rootDirectory]
  files : ∀ q, q ∈ w.files ↔ q ∈ fs₀.files ∨ q ∈ opened env rootDirectory
  mounts : w.mounts = if env.shared = true ∧ Mounts env rootDirectory fs₀ then
    (rootPath rootDirectory ++ [proc]) :: fs₀.mounts else fs₀.mounts

/-- There is only one such filesystem. -/
theorem Complete.unique (h : Complete env rootDirectory fs₀ w)
    (h' : Complete env rootDirectory fs₀ v) : w = v := by
  ext q
  · rw [h.dirs, h'.dirs]
  · rw [h.files, h'.files]
  · rw [h.mounts, h'.mounts]

theorem Complete.mem_mounts (h : Complete env rootDirectory fs₀ w) {q : List (List Char)} :
    q ∈ w.mounts ↔ q ∈ fs₀.mounts ∨
      (q = rootPath rootDirectory ++ [proc] ∧ env.shared = true ∧
        Mounts env rootDirectory fs₀) := by
  rw [h.mounts]
  split_ifs with hmounted
  · rw [List.mem_cons, and_iff_left hmounted]
    exact or_comm
  · simp [hmounted]

/-- The child makes everything and comes to run the program. -/
structure RunsProgram (env : Environment) (rootDirectory : List Char)
    (fs₀ : Filesystem (List Char)) : Prop where
  created : ∀ site ∈ creationSites, env.grants site = true
  mounts : Mounts env rootDirectory fs₀
  goesUp : ∀ round, env.grants (.chdirUp round) = true
  executes : env.grants .execvp = true

/-- The calls of `create_container` after `mount`. -/
def ending (env : Environment) : List (Call Process Stop) :=
  ((List.finRange 4).map fun round =>
    checked env (.chdirUp round) errorFileDirectory (chdir parentDir)) ++ runProgram env

/-- The calls of `create_container`, in their parts. -/
theorem createContainer_eq : createContainer env rootDirectory = beginning env rootDirectory ++
    (creation env ++ (unchecked env .openProcs (openFile procsFile) ::
      unchecked env .openRelease (openFile releaseFile) ::
      unchecked env .openMax (openFile maxFile) ::
      checked env .mount errorMount (mount env.shared (dir proc)) :: ending env)) := rfl

/-- Unless they go through they leave the filesystem alone. -/
theorem fs_of_ending {p : Process} (h : (runCalls (ending env) p).2 ≠ none) :
    (runCalls (ending env) p).1.fs = p.fs := by
  rw [ending] at h ⊢
  set ups := (List.finRange 4).map fun round =>
    checked env (.chdirUp round) errorFileDirectory (chdir parentDir) with hups
  have hkeep : (runCalls ups p).1.fs = p.fs := by
    refine runCalls_invariant (P := fun p' : Process => p'.fs = p.fs)
      (fun call hmem s s' hP hs => ?_) rfl
    obtain ⟨round, -, rfl⟩ := List.mem_map.mp hmem
    rw [(fs_of_chdir (checked_eq_ok.mp hs).2).1, hP]
  rcases hrun : runCalls ups p with ⟨t, _ | e⟩
  · rw [hrun] at hkeep
    rw [runCalls_append_of_none hrun, runProgram] at h ⊢
    cases hcall : checked env .execvp errorRunningNewProgram
        (fun p => some { p with fs := env.program p.fs }) t with
    | ok t' =>
        rw [runCalls_cons_of_ok hcall] at h
        exact absurd rfl h
    | error e =>
        rw [runCalls_cons_of_error hcall]
        exact hkeep
  · rw [runCalls_append_of_some hrun]
    rw [hrun] at hkeep
    exact hkeep

/-- When they go through, and what that does to the filesystem. -/
theorem goesThrough_ending (env : Environment) (p : Process) : GoesThrough (ending env) p
    ((∀ round, env.grants (.chdirUp round) = true) ∧ env.grants .execvp = true)
    fun p' => p'.fs = env.program p.fs := by
  have hrounds : ∀ (rounds : List (Fin 4)) (p : Process), GoesThrough
      ((rounds.map fun round =>
        checked env (.chdirUp round) errorFileDirectory (chdir parentDir)) ++ runProgram env) p
      ((∀ round ∈ rounds, env.grants (.chdirUp round) = true) ∧ env.grants .execvp = true)
      fun p' => p'.fs = env.program p.fs := by
    intro rounds
    induction rounds with
    | nil =>
        intro p
        have hexec : ∀ p', checked env .execvp errorRunningNewProgram
            (fun p => some { p with fs := env.program p.fs }) p = .ok p' ↔
            env.grants .execvp = true ∧ { p with fs := env.program p.fs } = p' := by
          intro p'
          rw [checked_eq_ok, Option.some_inj]
        have hgoes : GoesThrough (runProgram env) p (env.grants .execvp = true ∧ True)
            fun p' => p'.fs = env.program p.fs := by
          refine .cons ?_ fun p' hp' => .nil ?_
          · exact ⟨fun ⟨p', hp'⟩ => ((hexec p').mp hp').1, fun hg => ⟨_, (hexec _).mpr ⟨hg, rfl⟩⟩⟩
          · obtain ⟨-, rfl⟩ := (hexec p').mp hp'
            rfl
        exact ⟨hgoes.iff.trans (by simp), hgoes.ends⟩
    | cons round rounds ih =>
        intro p
        have hup : ∀ p', checked env (.chdirUp round) errorFileDirectory (chdir parentDir) p =
            .ok p' ↔ env.grants (.chdirUp round) = true ∧
              { p with cwd := if p.cwd = p.root then p.cwd else p.cwd.dropLast } = p' := by
          intro p'
          rw [checked_eq_ok, chdir_parentDir, Option.some_inj]
        have hfirst : (∃ p', checked env (.chdirUp round) errorFileDirectory (chdir parentDir) p =
            .ok p') ↔ env.grants (.chdirUp round) = true := by
          simp only [hup, exists_and_left, exists_eq', and_true]
        have hgoes := GoesThrough.cons hfirst fun p' hp' => by
          obtain ⟨-, rfl⟩ := (hup p').mp hp'
          exact ih _
        refine ⟨hgoes.iff.trans ?_, hgoes.ends⟩
        rw [List.forall_mem_cons, and_assoc]
  have hall := hrounds (List.finRange 4) p
  refine ⟨hall.iff.trans ?_, hall.ends⟩
  simp

/-- The child's `mount`, after everything is made. -/
theorem mount_cases {p : Process} (h : Making rootDirectory fs₀
      [pidsPath rootDirectory, cgroupPath rootDirectory, fsPath rootDirectory]
      (opened env rootDirectory) (pidsPath rootDirectory) p) :
    (Mounts env rootDirectory fs₀ ∧
      ∃ p', checked env .mount errorMount (mount env.shared (dir proc)) p = .ok p' ∧
        Complete env rootDirectory fs₀ p'.fs) ∨
    (¬ Mounts env rootDirectory fs₀ ∧
      ∃ e, checked env .mount errorMount (mount env.shared (dir proc)) p = .error e ∧
        Complete env rootDirectory fs₀ p.fs) := by
  have hcomponents : components (dir proc) = [proc].map .down := by decide
  have hmem : rootPath rootDirectory ++ [proc] ∈ p.fs.dirs ↔
      rootPath rootDirectory ++ [proc] ∈ fs₀.dirs := by
    rw [h.fs.dirs]
    simp [pidsPath, cgroupPath, fsPath, sysPath]
  have hresolve : p.resolve (dir proc) = if rootPath rootDirectory ++ [proc] ∈ fs₀.dirs then
      some (rootPath rootDirectory ++ [proc]) else none := by
    rw [Process.resolve, if_pos (by decide), hcomponents, h.root, List.map_singleton, walk,
      List.foldlM_cons, enter]
    simp only [hmem]
    split_ifs <;> rfl
  by_cases hmounts : Mounts env rootDirectory fs₀
  · obtain ⟨hgrants, hproc⟩ := hmounts
    refine .inl ⟨⟨hgrants, hproc⟩, ?_⟩
    cases hshared : env.shared with
    | false =>
        refine ⟨p, checked_granted hgrants ?_, h.fs.dirs, h.fs.files, ?_⟩
        · rw [mount, hresolve, if_pos hproc]
          rfl
        · rw [h.fs.mounts, hshared, if_neg fun hm => Bool.false_ne_true hm.1]
    | true =>
        obtain ⟨fs', hfs'⟩ : ∃ fs', p.fs.mount (rootPath rootDirectory ++ [proc]) = some fs' :=
          ⟨_, dif_pos (hmem.mpr hproc)⟩
        refine ⟨{ p with fs := fs' }, checked_granted hgrants ?_, ?_⟩
        · rw [mount, hresolve, if_pos hproc, Option.bind_some, if_pos rfl, hfs']
          rfl
        · rw [Filesystem.mount, dif_pos (hmem.mpr hproc)] at hfs'
          cases hfs'
          refine ⟨h.fs.dirs, h.fs.files, ?_⟩
          rw [if_pos ⟨hshared, hgrants, hproc⟩]
          exact congrArg (List.cons _) h.fs.mounts
  · refine .inr ⟨hmounts, errorHandler errorMount, ?_, h.fs.dirs, h.fs.files, ?_⟩
    · rw [checked, mount, hresolve]
      by_cases hgrants : env.grants .mount = true
      · rw [if_pos hgrants, if_neg fun hproc => hmounts ⟨hgrants, hproc⟩]
        rfl
      · rw [if_neg hgrants]
    · rw [h.fs.mounts, if_neg fun hm => hmounts hm.2]

/-- **What the child leaves** that has begun: what the program makes of everything, or, where it
stops, everything or some of the directories and no file. -/
theorem child_left_of_begins (habs : rootDirectory.head? = some '/')
    (hclone : env.grants .clone = true)
    (hbegins : (runCalls (beginning env rootDirectory) ⟨fs₀, cwd, []⟩).2 = none) :
    (RunsProgram env rootDirectory fs₀ ∧ (main env rootDirectory cwd fs₀).child.2 = none ∧
      ∃ v, Complete env rootDirectory fs₀ v ∧
        (main env rootDirectory cwd fs₀).child.1.fs = env.program v) ∨
    (¬ RunsProgram env rootDirectory fs₀ ∧ (main env rootDirectory cwd fs₀).child.2 ≠ none ∧
      (∀ site ∈ creationSites, env.grants site = true) ∧
      Complete env rootDirectory fs₀ (main env rootDirectory cwd fs₀).child.1.fs) ∨
    ((¬ ∀ site ∈ creationSites, env.grants site = true) ∧
      (main env rootDirectory cwd fs₀).child.2 ≠ none ∧ ∃ ds, fsPath rootDirectory ∈ ds ∧
        ds ⊆ [pidsPath rootDirectory, cgroupPath rootDirectory, fsPath rootDirectory] ∧
        fs₀.With ds [] (main env rootDirectory cwd fs₀).child.1.fs) := by
  obtain ⟨p, hbegin⟩ : ∃ p, runCalls (beginning env rootDirectory) ⟨fs₀, cwd, []⟩ = (p, none) :=
    ⟨_, Prod.ext rfl hbegins⟩
  have hbegun := begun_of_beginning habs hbegin
  rw [child_of_cloned hclone, createContainer_eq, runCalls_append_of_none hbegin]
  rcases creation_cases env hbegun _ with
    ⟨hcreated, p₁, hrun, hmaking⟩ | ⟨hrefused, p', ds, message, hrun, hmem, hsub, hfs⟩
  · rw [hrun]
    obtain ⟨p₂, hopen, hopened⟩ := opening env hbegun.fs_new hmaking
      (checked env .mount errorMount (mount env.shared (dir proc)) :: ending env)
    rw [hopen]
    rcases mount_cases hopened with ⟨hmounts, p₃, hcall, hcomplete⟩ | ⟨hnot, e, hcall, hcomplete⟩
    · rw [runCalls_cons_of_ok hcall]
      have hgoes := goesThrough_ending env p₃
      by_cases hruns : (runCalls (ending env) p₃).2 = none
      · obtain ⟨hup, hexec⟩ := hgoes.iff.mp hruns
        exact .inl ⟨⟨hcreated, hmounts, hup, hexec⟩, hruns, _, hcomplete, hgoes.ends hruns⟩
      · refine .inr (.inl ⟨fun hr => hruns (hgoes.iff.mpr ⟨hr.goesUp, hr.executes⟩), hruns,
          hcreated, ?_⟩)
        rwa [fs_of_ending hruns]
    · rw [runCalls_cons_of_error hcall]
      exact .inr (.inl ⟨fun hr => hnot hr.mounts, nofun, hcreated, hcomplete⟩)
  · rw [hrun]
    exact .inr (.inr ⟨hrefused, nofun, ds, hmem, hsub, hfs⟩)

/-- What the child of a failed run leaves. -/
theorem child_left (h : FailedRun env rootDirectory cwd fs₀) :
    (RunsProgram env rootDirectory fs₀ ∧ (main env rootDirectory cwd fs₀).child.2 = none ∧
      ∃ v, Complete env rootDirectory fs₀ v ∧
        (main env rootDirectory cwd fs₀).child.1.fs = env.program v) ∨
    (¬ RunsProgram env rootDirectory fs₀ ∧ (∀ site ∈ creationSites, env.grants site = true) ∧
      Complete env rootDirectory fs₀ (main env rootDirectory cwd fs₀).child.1.fs) ∨
    ((¬ ∀ site ∈ creationSites, env.grants site = true) ∧
      ∃ ds, fsPath rootDirectory ∈ ds ∧
        ds ⊆ [pidsPath rootDirectory, cgroupPath rootDirectory, fsPath rootDirectory] ∧
        fs₀.With ds [] (main env rootDirectory cwd fs₀).child.1.fs) := by
  rcases child_left_of_begins h.absolute h.cloned h.begins with hruns | ⟨hnot, -, hleft⟩ |
    ⟨hrefused, -, hleft⟩
  · exact .inl hruns
  · exact .inr (.inl ⟨hnot, hleft⟩)
  · exact .inr (.inr ⟨hrefused, hleft⟩)

/-! ## What the parent makes of it -/

/-- Where the child opens the files. -/
def openSites : List Site := [.openMax, .openRelease, .openProcs]

theorem mem_opened {q : List (List Char)} : q ∈ opened env rootDirectory ↔
    (env.grants .openMax = true ∧ q = pidsPath rootDirectory ++ [maxFile]) ∨
    (env.grants .openRelease = true ∧ q = pidsPath rootDirectory ++ [releaseFile]) ∨
    (env.grants .openProcs = true ∧ q = pidsPath rootDirectory ++ [procsFile]) := by
  rw [opened]
  split_ifs <;> simp [*]

namespace Complete

variable {name : List Char}

theorem exists_iff (h : Complete env rootDirectory fs₀ w) {q : List (List Char)} :
    w.Exists q ↔ fs₀.Exists q ∨
      q ∈ [pidsPath rootDirectory, cgroupPath rootDirectory, fsPath rootDirectory] ∨
      q ∈ opened env rootDirectory := by
  simp only [Filesystem.Exists, h.dirs, h.files]
  tauto

/-- A file in `pids` can be removed if it has been made. -/
theorem removable_iff (h : Complete env rootDirectory fs₀ w)
    (hnew : ¬ fs₀.Exists (fsPath rootDirectory)) :
    w.Removable (pidsPath rootDirectory ++ [name]) ↔
      pidsPath rootDirectory ++ [name] ∈ opened env rootDirectory := by
  have hfree : ¬ fs₀.Exists (pidsPath rootDirectory ++ [name]) := fun hex =>
    hnew (Filesystem.Exists.of_append (q := [cgroup, pids, name]) (by
      simpa [pidsPath, cgroupPath] using hex))
  rw [Filesystem.Exists, not_or] at hfree
  have hnot : pidsPath rootDirectory ++ [name] ∉ w.dirs := by
    rw [h.dirs, not_or]
    exact ⟨hfree.1, by simp [pidsPath, cgroupPath]⟩
  rw [Filesystem.Removable, h.files]
  simp [hfree.2, hnot]

/-- Nothing but what the child has made is in the directories. -/
theorem sole (h : Complete env rootDirectory fs₀ w)
    (hnew : ¬ fs₀.Exists (fsPath rootDirectory)) :
    w.Sole (pidsPath rootDirectory) pidsFiles ∧ w.Sole (cgroupPath rootDirectory) [pids] ∧
      w.Sole (fsPath rootDirectory) [cgroup] := by
  have hfree : ∀ t, ¬ fs₀.Exists (fsPath rootDirectory ++ t) := fun t hex => hnew hex.of_append
  refine ⟨?_, ?_, ?_⟩ <;> rw [Filesystem.sole_iff] <;> intro name hname <;>
    rw [h.exists_iff, mem_opened] at hname
  · rcases hname with hold | hdir | hfile
    · exact absurd hold (by simpa [pidsPath, cgroupPath] using hfree [cgroup, pids, name])
    · simp [pidsPath, cgroupPath] at hdir
    · simp only [List.append_cancel_left_eq, List.cons.injEq, and_true] at hfile
      rw [pidsFiles]
      rcases hfile with ⟨-, rfl⟩ | ⟨-, rfl⟩ | ⟨-, rfl⟩ <;> simp
  · rcases hname with hold | hdir | hfile
    · exact absurd hold (by simpa [cgroupPath] using hfree [cgroup, name])
    · simpa [pidsPath, cgroupPath] using hdir
    · simp [pidsPath] at hfile
  · rcases hname with hold | hdir | hfile
    · exact absurd hold (hfree [name])
    · simpa [pidsPath, cgroupPath] using hdir
    · simp [pidsPath, cgroupPath] at hfile

/-- Nothing is mounted on the directories. -/
theorem not_mounted (h : Complete env rootDirectory fs₀ w)
    (hnew : ¬ fs₀.Exists (fsPath rootDirectory)) : ∀ q ∈ [fsPath rootDirectory,
      cgroupPath rootDirectory, pidsPath rootDirectory], q ∉ w.mounts := by
  have hbelow : ∀ q ∈ [fsPath rootDirectory, cgroupPath rootDirectory, pidsPath rootDirectory],
      ∃ t, q = fsPath rootDirectory ++ t := by
    simp only [List.forall_mem_cons, List.not_mem_nil, IsEmpty.forall_iff, implies_true, and_true]
    exact ⟨⟨[], by simp⟩, ⟨[cgroup], rfl⟩, ⟨[cgroup, pids], by simp [pidsPath, cgroupPath]⟩⟩
  intro q hq
  obtain ⟨t, rfl⟩ := hbelow q hq
  rw [h.mem_mounts, not_or]
  refine ⟨fun hm => hnew (Filesystem.Exists.of_append (.inl (fs₀.mounts_mem _ hm))), fun hm => ?_⟩
  simpa [fsPath, sysPath] using congrArg List.length hm.1

end Complete

/-- The child finds the root directory. -/
theorem FailedRun.walk_root (h : FailedRun env rootDirectory cwd fs₀) :
    walk fs₀.dirs [] [] (components rootDirectory) = some (rootPath rootDirectory) :=
  (begun_of_beginning h.absolute (Prod.ext rfl h.begins)).walk

/-- **The parent removes everything** if the files are there and the kernel does not refuse. -/
theorem Complete.releasable_iff_of_walk (h : Complete env rootDirectory fs₀ w)
    (hwalk : walk fs₀.dirs [] [] (components rootDirectory) = some (rootPath rootDirectory))
    (hnew : ¬ fs₀.Exists (fsPath rootDirectory)) :
    Releasable env rootDirectory w ↔ (∀ site ∈ openSites, env.grants site = true) ∧
      ∀ site ∈ releaseSites, env.grants site = true := by
  have hfiles : (∀ name ∈ pidsFiles, w.Removable (pidsPath rootDirectory ++ [name])) ↔
      ∀ site ∈ openSites, env.grants site = true := by
    have hnames : maxFile ≠ releaseFile ∧ maxFile ≠ procsFile ∧ releaseFile ≠ procsFile := by decide
    obtain ⟨hmr, hmp, hrp⟩ := hnames
    simp only [h.removable_iff hnew, mem_opened, pidsFiles, openSites, List.forall_mem_cons,
      List.append_cancel_left_eq, List.cons.injEq, and_true, hmr, hmp, hrp, hmr.symm, hmp.symm,
      hrp.symm, and_false, or_false, false_or, List.not_mem_nil, IsEmpty.forall_iff, implies_true]
  obtain ⟨hpids, hcgroup, hfs⟩ := h.sole hnew
  constructor
  · intro hr
    exact ⟨hfiles.mp hr.files, hr.granted⟩
  · rintro ⟨hopen, hgranted⟩
    refine ⟨hgranted, ?_, hfiles.mpr hopen, hpids, hcgroup, hfs, h.not_mounted hnew⟩
    have hsub : fs₀.dirs ⊆ w.dirs := fun q hq => (h.dirs q).mpr (.inl hq)
    have hpath : rootPath rootDirectory ++ [sys, fs, cgroup, pids] = pidsPath rootDirectory := by
      simp [pidsPath, cgroupPath, fsPath, sysPath]
    rw [components_pidsDirectory, walk_append, walk_mono hsub hwalk, Option.bind_some,
      walk_names, hpath]
    rw [hpath, h.dirs]
    exact .inr List.mem_cons_self

theorem Complete.releasable_iff (h : Complete env rootDirectory fs₀ w)
    (hrun : FailedRun env rootDirectory cwd fs₀) :
    Releasable env rootDirectory w ↔ (∀ site ∈ openSites, env.grants site = true) ∧
      ∀ site ∈ releaseSites, env.grants site = true :=
  h.releasable_iff_of_walk hrun.walk_root hrun.fs_new

/-- The parent's `umount` succeeds if something is mounted for it and the kernel does not refuse. -/
theorem Complete.unmounts_iff_of_walk (h : Complete env rootDirectory fs₀ w)
    (hwalk : walk fs₀.dirs [] [] (components rootDirectory) = some (rootPath rootDirectory)) :
    Unmounts env rootDirectory w ↔ env.grants .umount = true ∧
      rootPath rootDirectory ++ [proc] ∈ w.mounts := by
  refine and_congr_right fun _ => ?_
  constructor
  · rintro ⟨q, hq, hproc⟩
    have := eq_normal_of_walk hproc
    rw [normal_proc] at this
    rwa [this] at hq
  · intro hmem
    refine ⟨_, hmem, ?_⟩
    have hsub : fs₀.dirs ⊆ w.dirs := fun q hq => (h.dirs q).mpr (.inl hq)
    have hproc : components proc = [proc].map .down := by decide
    rw [dir, components_append, hproc, walk_append, walk_mono hsub hwalk,
      Option.bind_some, walk_names (w.mounts_mem _ hmem)]

theorem Complete.unmounts_iff (h : Complete env rootDirectory fs₀ w)
    (hrun : FailedRun env rootDirectory cwd fs₀) :
    Unmounts env rootDirectory w ↔ env.grants .umount = true ∧
      rootPath rootDirectory ++ [proc] ∈ w.mounts :=
  h.unmounts_iff_of_walk hrun.walk_root

/-- A directory without files is not as it should be. -/
theorem not_releasable_of_with {ds : List (List (List Char))}
    (hnew : ¬ fs₀.Exists (fsPath rootDirectory))
    (hds : ds ⊆ [pidsPath rootDirectory, cgroupPath rootDirectory, fsPath rootDirectory])
    (h : fs₀.With ds [] w) : ¬ Releasable env rootDirectory w := by
  intro hr
  have hex := (hr.files maxFile (by simp [pidsFiles])).exists_
  rw [h.exists_iff] at hex
  rcases hex with hold | hdir | hfile
  · refine hnew (Filesystem.Exists.of_append (q := [cgroup, pids, maxFile]) ?_)
    simpa [pidsPath, cgroupPath] using hold
  · simpa [pidsPath, cgroupPath] using hds hdir
  · cases hfile

/-! ## Failed runs -/

/-- What it takes for the parent to remove what a child has left that has not come to run the
program. -/
structure CleansUp (env : Environment) (rootDirectory : List Char)
    (fs₀ : Filesystem (List Char)) : Prop where
  fits : Fits rootDirectory
  waited : env.grants .wait = true
  created : ∀ site ∈ creationSites, env.grants site = true
  opened : ∀ site ∈ openSites, env.grants site = true
  mounted : rootPath rootDirectory ++ [proc] ∈ fs₀.mounts ∨
    (env.shared = true ∧ Mounts env rootDirectory fs₀)
  unmounted : env.grants .umount = true
  released : ∀ site ∈ releaseSites, env.grants site = true

/-- Where the child of a failed run has not come to run the program, there is something. -/
theorem exists_of_not_runsProgram (h : FailedRun env rootDirectory cwd fs₀)
    (hnot : ¬ RunsProgram env rootDirectory fs₀) :
    (main env rootDirectory cwd fs₀).child.1.fs.Exists (fsPath rootDirectory) := by
  rcases child_left h with ⟨hruns, -⟩ | ⟨-, -, hcomplete⟩ | ⟨-, ds, hmem, -, hwith⟩
  · exact absurd hruns hnot
  · exact hcomplete.exists_iff.mpr (.inr (.inl (by simp)))
  · exact hwith.exists_iff.mpr (.inr (.inl hmem))

/-- The program of a failed run has removed the directory if it is not there afterwards. -/
theorem removes_iff (h : FailedRun env rootDirectory cwd fs₀)
    (hruns : RunsProgram env rootDirectory fs₀) :
    (∀ w, Complete env rootDirectory fs₀ w → ¬ (env.program w).Exists (fsPath rootDirectory)) ↔
      ¬ (main env rootDirectory cwd fs₀).child.1.fs.Exists (fsPath rootDirectory) := by
  rcases child_left h with ⟨-, -, w, hcomplete, hprogram⟩ | ⟨hnot, -⟩ | ⟨hrefused, -⟩
  · rw [hprogram]
    exact ⟨fun hall => hall w hcomplete, fun hw v hv => hcomplete.unique hv ▸ hw⟩
  · exact absurd hruns hnot
  · exact absurd hruns.created hrefused

/-- A parent that does not wait leaves what the child has left. -/
theorem nothingLeft_iff_of_not_waited (h : FailedRun env rootDirectory cwd fs₀)
    (hwait : ¬ env.grants .wait = true) :
    NothingLeft rootDirectory (main env rootDirectory cwd fs₀).parent ↔
      (¬ RunsProgram env rootDirectory fs₀ ∧ CleansUp env rootDirectory fs₀) ∨
      (RunsProgram env rootDirectory fs₀ ∧ ∀ w, Complete env rootDirectory fs₀ w →
        ¬ (env.program w).Exists (fsPath rootDirectory)) := by
  have hclean : ¬ CleansUp env rootDirectory fs₀ := fun hc => hwait hc.waited
  have hstop : some (errorHandler errorWait) ≠ some Stop.undefined := nofun
  rw [parent_of_not_waits fun hw => hwait hw.2, NothingLeft, nothing_created_iff]
  by_cases hruns : RunsProgram env rootDirectory fs₀
  · rw [removes_iff h hruns]
    simp only [hruns, hstop, hclean, ne_eq, not_false_eq_true, and_false, true_and, false_or]
  · have hex := exists_of_not_runsProgram h hruns
    simp only [hruns, hclean, hex, not_true_eq_false, and_false, false_and, or_self]

/-- **When a failed run leaves nothing behind.** If the child does not come to run the program, it
must have made all the directories and files, something must be mounted for the parent, and the
parent must have been able to wait and to remove everything; if it does, the program must have
removed the directory itself. -/
theorem nothingLeft_iff (h : FailedRun env rootDirectory cwd fs₀) :
    NothingLeft rootDirectory (main env rootDirectory cwd fs₀).parent ↔
      (¬ RunsProgram env rootDirectory fs₀ ∧ CleansUp env rootDirectory fs₀) ∨
      (RunsProgram env rootDirectory fs₀ ∧ ∀ w, Complete env rootDirectory fs₀ w →
        ¬ (env.program w).Exists (fsPath rootDirectory)) := by
  by_cases hwait : env.grants .wait = true
  case neg => exact nothingLeft_iff_of_not_waited h hwait
  have hparent : (main env rootDirectory cwd fs₀).parent = _ := parent_of_waits ⟨h.cloned, hwait⟩
  rw [hparent, cleanup_iff h.absolute]
  rcases child_left h with ⟨hruns, hnone, w, hcomplete, hprogram⟩ | ⟨hnot, hcreated, hcomplete⟩ |
    ⟨hrefused, ds, hmem, hsub, hwith⟩
  · have hexit : ∃ message, (main env rootDirectory cwd fs₀).parent.2 = some (.exit message) :=
      h.fails.resolve_left fun hstop => hstop hnone
    obtain ⟨message, hexit⟩ := hexit
    rw [hparent] at hexit
    have hunmounts := not_releasable_of_exit h.absolute hexit
    rw [removes_iff h hruns]
    simp only [hruns, not_true_eq_false, false_and, true_and, false_or]
    tauto
  · have hex := exists_of_not_runsProgram h hnot
    have hunmounts := hcomplete.unmounts_iff h
    have hreleasable := hcomplete.releasable_iff h
    rw [hcomplete.mem_mounts] at hunmounts
    simp only [hnot, hex, not_true_eq_false, not_false_eq_true, false_and, true_and, false_or,
      or_false, hunmounts, hreleasable]
    constructor
    · rintro ⟨hfits, hum, hopened, hreleased⟩
      exact ⟨hfits hum, hwait, hcreated, hopened, by tauto, hum.1, hreleased⟩
    · intro hc
      have hmounted := hc.mounted
      exact ⟨fun _ => hc.fits, ⟨hc.unmounted, by tauto⟩, hc.opened, hc.released⟩
  · have hnot : ¬ Releasable env rootDirectory _ := not_releasable_of_with h.fs_new hsub hwith
    have hruns : ¬ RunsProgram env rootDirectory fs₀ := fun hr => hrefused hr.created
    have hex := exists_of_not_runsProgram h hruns
    have hclean' : ¬ CleansUp env rootDirectory fs₀ := fun hc => hrefused hc.created
    simp [hex, hnot, hruns, hclean']

/-- What is left stops every later run. -/
theorem later_run_stops (habs : rootDirectory.head? = some '/')
    (hleft : (main env rootDirectory cwd fs₀).parent.1.fs.Exists (fsPath rootDirectory))
    (env' : Environment) (cwd' : List (List Char)) :
    (main env' rootDirectory cwd' (main env rootDirectory cwd fs₀).parent.1.fs).child.2 ≠ none := by
  intro hnone
  by_cases hclone : env'.grants .clone = true
  case neg =>
    rw [child_of_not_cloned hclone] at hnone
    cases hnone
  rw [child_of_cloned hclone, createContainer_eq] at hnone
  rcases hbegin : runCalls (beginning env' rootDirectory)
      ⟨(main env rootDirectory cwd fs₀).parent.1.fs, cwd', []⟩ with ⟨p, _ | stop⟩
  · exact (begun_of_beginning habs hbegin).fs_new hleft
  · rw [runCalls_append_of_some hbegin] at hnone
    cases hnone

/-! ### Two runs -/

/-- A root directory with `sys` and `proc`. -/
def rootWithProc : Filesystem (List Char) where
  dirs := {[], [['r']], [['r'], sys], [['r'], proc]}
  files := ∅
  mounts := []
  nil_mem := by decide
  dropLast_mem := by decide
  disjoint := by decide
  mounts_mem := by decide

/-- A root directory with `sys` alone. -/
def rootWithoutProc : Filesystem (List Char) where
  dirs := {[], [['r']], [['r'], sys]}
  files := ∅
  mounts := []
  nil_mem := by decide
  dropLast_mem := by decide
  disjoint := by decide
  mounts_mem := by decide

/-- A kernel that refuses a call at one place at most, and mounts that reach the parent. -/
def refusing (refused : Option Site) : Environment where
  grants := fun site => decide (some site ≠ refused)
  shared := true
  program := id

/-- A container whose program cannot be run is cleaned up. -/
theorem nothingLeft_iff_execvp : NothingLeft ['/', 'r']
    (main (refusing (some .execvp)) ['/', 'r'] [] rootWithProc).parent := by
  have hrun : FailedRun (refusing (some .execvp)) ['/', 'r'] [] rootWithProc := {
    absolute := by decide
    cloned := by decide
    sys_mem := by decide
    fs_new := by decide
    begins := by decide
    fails := .inl (by decide) }
  refine (nothingLeft_iff hrun).mpr (.inl ⟨fun hruns => ?_, ?_⟩)
  · exact absurd hruns.executes (by decide)
  · exact {
      fits := by decide
      waited := by decide
      created := by decide
      opened := by decide
      mounted := .inr ⟨rfl, rfl, by decide⟩
      unmounted := by decide
      released := by decide }

/-- A container whose `proc` cannot be mounted is not: the parent's `umount` fails as well, and it
exits before it removes anything. -/
theorem mount_failure_leaves : ¬ ∀ (env : Environment) (rootDirectory : List Char)
    (cwd : List (List Char)) (fs₀ : Filesystem (List Char)),
    FailedRun env rootDirectory cwd fs₀ →
      NothingLeft rootDirectory (main env rootDirectory cwd fs₀).parent := by
  intro hall
  have hrun : FailedRun (refusing none) ['/', 'r'] [] rootWithoutProc := {
    absolute := by decide
    cloned := by decide
    sys_mem := by decide
    fs_new := by decide
    begins := by decide
    fails := .inl (by decide) }
  have hnothing := (hall _ _ _ _ hrun).2 (fsPath ['/', 'r']) (by simp [created])
  exact hnothing (by decide)

end CoreOS.Container
