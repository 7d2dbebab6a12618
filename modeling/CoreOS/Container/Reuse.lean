import CoreOS.Container.FailedRun

/-!
# Whole container runs

When `main` reports success, and what several runs make of the filesystem. It is assumed that there
are no symbolic links, and a `Char` of a path is one `char` of the source.

* `Ready`: a container can be made. `begins_iff`, `child_iff` and `parent_iff` say when each part of
  a run goes through, and what it leaves.
* `main_succeeds_iff`: **when `main` returns `SUCCESS`**. The program need not have been run.
* `Leads`: what a program makes of the filesystem if it leaves alone what the container has set up.
  `Complete.undone`: without that, the filesystem is what the program has made of it.
* `runs_transparent`: **any number of runs** of such programs succeed, and together do to the
  filesystem what the programs do.
-/

namespace CoreOS.Container

open CoreOS.Lib

variable {env : Environment} {rootDirectory : List Char} {cwd : List (List Char)}
  {fs₀ fs₁ w : Filesystem (List Char)}

/-! ## The child -/

section child

variable {site : Site} {message : String} {op : Process → Option Process} {p q : Process}
  {calls : List (Call Process Stop)} {C X : Prop} {Y : Process → Prop}

/-- A call with a known outcome, before the others. -/
theorem goesThrough_checked (hop : ∀ p', op p = some p' ↔ C ∧ p' = q)
    (hrest : C → GoesThrough calls q X Y) :
    GoesThrough (checked env site message op :: calls) p
      ((env.grants site = true ∧ C) ∧ X) Y := by
  refine .cons ?_ fun p' hp' => ?_
  · simp only [checked_eq_ok, hop]
    constructor
    · rintro ⟨-, hg, hC, -⟩
      exact ⟨hg, hC⟩
    · rintro ⟨hg, hC⟩
      exact ⟨q, hg, hC, rfl⟩
  · obtain ⟨hC, rfl⟩ := (hop p').mp (checked_eq_ok.mp hp').2
    exact hrest hC

end child

/-- Where the child calls the kernel up to `mkdir(FS)`. -/
def beginningSites : List Site := [.sethostname, .chdirRoot, .chroot, .chdirSys, .mkdirFs]

/-- A container can be made: the path leads to a directory with `sys` and without `sys/fs`. -/
structure Ready (rootDirectory : List Char) (fs₀ : Filesystem (List Char)) : Prop where
  walk : walk fs₀.dirs [] [] (components rootDirectory) = some (rootPath rootDirectory)
  sys_mem : sysPath rootDirectory ∈ fs₀.dirs
  fs_new : ¬ fs₀.Exists (fsPath rootDirectory)

/-- The child makes the first directory. -/
def Starts (env : Environment) (rootDirectory : List Char) (fs₀ : Filesystem (List Char)) :
    Prop :=
  (∀ site ∈ beginningSites, env.grants site = true) ∧ Ready rootDirectory fs₀

/-- An absolute path leads to its normal form or nowhere. -/
theorem resolve_root (habs : rootDirectory.head? = some '/') {p : Process} (hroot : p.root = [])
    {q : List (List Char)} : p.resolve rootDirectory = some q ↔
      walk p.fs.dirs [] [] (components rootDirectory) = some (rootPath rootDirectory) ∧
        q = rootPath rootDirectory := by
  rw [Process.resolve, if_pos habs, hroot]
  constructor
  · intro hq
    have hnormal : q = rootPath rootDirectory := eq_normal_of_walk hq
    exact ⟨hnormal ▸ hq, hnormal⟩
  · rintro ⟨hwalk, rfl⟩
    exact hwalk

/-- **When a container is begun.** -/
theorem begins_iff (habs : rootDirectory.head? = some '/') :
    (runCalls (beginning env rootDirectory) ⟨fs₀, cwd, []⟩).2 = none ↔
      Starts env rootDirectory fs₀ := by
  have hcalls : beginning env rootDirectory =
      [checked env .sethostname errorName some,
        checked env .chdirRoot errorFileDirectory (chdir rootDirectory),
        checked env .chroot errorRootDirectory (chroot rootDirectory),
        checked env .chdirSys errorFileDirectory (chdir (dir sys)),
        checked env .mkdirFs errorCreatingNewDirectory (mkdir fs)] := rfl
  let root := rootPath rootDirectory
  have hname : ∀ p', some (⟨fs₀, cwd, []⟩ : Process) = some p' ↔ True ∧ p' = ⟨fs₀, cwd, []⟩ := by
    simp [eq_comm]
  have hchdir : ∀ p', chdir rootDirectory ⟨fs₀, cwd, []⟩ = some p' ↔
      walk fs₀.dirs [] [] (components rootDirectory) = some root ∧ p' = ⟨fs₀, root, []⟩ := by
    intro p'
    simp only [chdir, Option.map_eq_some_iff, resolve_root habs, and_assoc, exists_and_left,
      exists_eq_left]
    exact and_congr_right fun _ => eq_comm
  have hchroot : ∀ p', chroot rootDirectory ⟨fs₀, root, []⟩ = some p' ↔
      walk fs₀.dirs [] [] (components rootDirectory) = some root ∧ p' = ⟨fs₀, root, root⟩ := by
    intro p'
    simp only [chroot, Option.map_eq_some_iff, resolve_root habs, and_assoc, exists_and_left,
      exists_eq_left]
    exact and_congr_right fun _ => eq_comm
  have hsys : ∀ p', chdir (dir sys) ⟨fs₀, root, root⟩ = some p' ↔
      sysPath rootDirectory ∈ fs₀.dirs ∧ p' = ⟨fs₀, sysPath rootDirectory, root⟩ := by
    intro p'
    have hcomponents : components (dir sys) = [.down sys] := by decide
    rw [chdir, Process.resolve, if_pos (by decide), hcomponents, walk, List.foldlM_cons, enter]
    by_cases hmem : root ++ [sys] ∈ fs₀.dirs
    · rw [if_pos hmem]
      exact ⟨fun h => ⟨hmem, (Option.some.inj h).symm⟩, fun h => h.2 ▸ rfl⟩
    · rw [if_neg hmem]
      exact iff_of_false (by rintro ⟨⟩) fun h => hmem h.1
  have hmkdir : (∃ p', checked env .mkdirFs errorCreatingNewDirectory (mkdir fs)
      ⟨fs₀, sysPath rootDirectory, root⟩ = .ok p') ↔
      env.grants .mkdirFs = true ∧ ¬ fs₀.Exists (fsPath rootDirectory) ∧
        sysPath rootDirectory ∈ fs₀.dirs := by
    have hmade := fs₀.mkdir_isSome (p := fsPath rootDirectory)
    rw [fsPath, List.dropLast_concat, Option.isSome_iff_exists] at hmade
    simp only [checked_eq_ok, exists_and_left, mkdir, Option.map_eq_some_iff]
    rw [fsPath, ← hmade]
    refine and_congr_right fun _ => ?_
    constructor
    · rintro ⟨-, f, hf, -⟩
      exact ⟨f, hf⟩
    · rintro ⟨f, hf⟩
      exact ⟨_, f, hf, rfl⟩
  have hgoes : GoesThrough (beginning env rootDirectory) ⟨fs₀, cwd, []⟩
      ((env.grants .sethostname = true ∧ True) ∧
        (env.grants .chdirRoot = true ∧
          walk fs₀.dirs [] [] (components rootDirectory) = some root) ∧
        (env.grants .chroot = true ∧
          walk fs₀.dirs [] [] (components rootDirectory) = some root) ∧
        (env.grants .chdirSys = true ∧ sysPath rootDirectory ∈ fs₀.dirs) ∧
        (env.grants .mkdirFs = true ∧ ¬ fs₀.Exists (fsPath rootDirectory) ∧
          sysPath rootDirectory ∈ fs₀.dirs) ∧ True) fun _ => True := by
    rw [hcalls]
    refine goesThrough_checked hname fun _ => goesThrough_checked hchdir fun _ => ?_
    refine goesThrough_checked hchroot fun _ => goesThrough_checked hsys fun _ => ?_
    exact .cons hmkdir fun _ _ => .nil trivial
  rw [hgoes.iff]
  constructor
  · rintro ⟨⟨g₁, -⟩, ⟨g₂, hwalk⟩, ⟨g₃, -⟩, ⟨g₄, hmem⟩, ⟨g₅, hnew, -⟩, -⟩
    exact ⟨by simp [beginningSites, g₁, g₂, g₃, g₄, g₅], hwalk, hmem, hnew⟩
  · rintro ⟨hgranted, h⟩
    simp only [beginningSites, List.forall_mem_cons] at hgranted
    obtain ⟨g₁, g₂, g₃, g₄, g₅, -⟩ := hgranted
    exact ⟨⟨g₁, trivial⟩, ⟨g₂, h.walk⟩, ⟨g₃, h.walk⟩, ⟨g₄, h.sys_mem⟩,
      ⟨g₅, h.fs_new, h.sys_mem⟩, trivial⟩

/-- A child that does not begin a container changes nothing. -/
theorem fs_of_not_begun (hclone : env.grants .clone = true)
    (h : (runCalls (beginning env rootDirectory) ⟨fs₀, cwd, []⟩).2 ≠ none) :
    (main env rootDirectory cwd fs₀).child.1.fs = fs₀ ∧
      (main env rootDirectory cwd fs₀).child.2 ≠ none := by
  have hparts : beginning env rootDirectory = (beginning env rootDirectory).take 4 ++
      [checked env .mkdirFs errorCreatingNewDirectory (mkdir fs)] := rfl
  have hkeep : (runCalls ((beginning env rootDirectory).take 4) ⟨fs₀, cwd, []⟩).1.fs = fs₀ := by
    refine runCalls_invariant (P := fun p : Process => p.fs = fs₀)
      (fun call hmem s s' hP hs => ?_) rfl
    simp only [beginning, createContainer, List.cons_append, List.nil_append, List.take_succ_cons,
      List.take_zero, limitingNumberProcesses, List.mem_cons, List.not_mem_nil, or_false] at hmem
    rcases hmem with rfl | rfl | rfl | rfl
    · rw [← Option.some.inj (checked_eq_ok.mp hs).2, hP]
    · rw [(fs_of_chdir (checked_eq_ok.mp hs).2).1, hP]
    · obtain ⟨q, -, rfl⟩ := Option.map_eq_some_iff.mp (checked_eq_ok.mp hs).2
      exact hP
    · rw [(fs_of_chdir (checked_eq_ok.mp hs).2).1, hP]
  rcases hrun : runCalls (beginning env rootDirectory) ⟨fs₀, cwd, []⟩ with ⟨p, _ | stop⟩
  · rw [hrun] at h
    exact absurd rfl h
  have hfs : p.fs = fs₀ := by
    rw [hparts] at hrun
    rcases hfour : runCalls ((beginning env rootDirectory).take 4) ⟨fs₀, cwd, []⟩ with
      ⟨t, _ | e⟩
    · rw [runCalls_append_of_none hfour] at hrun
      rw [hfour] at hkeep
      cases hcall : checked env .mkdirFs errorCreatingNewDirectory (mkdir fs) t with
      | ok t' =>
          rw [runCalls_cons_of_ok hcall] at hrun
          cases hrun
      | error e =>
          rw [runCalls_cons_of_error hcall] at hrun
          cases hrun
          exact hkeep
    · rw [runCalls_append_of_some hfour] at hrun
      rw [hfour] at hkeep
      cases hrun
      exact hkeep
  rw [child_of_cloned hclone, createContainer_eq, runCalls_append_of_some hrun]
  exact ⟨hfs, nofun⟩

/-- **When the child ends without stopping**, and what it leaves then. -/
theorem child_iff (habs : rootDirectory.head? = some '/') (hclone : env.grants .clone = true) :
    ((main env rootDirectory cwd fs₀).child.2 = none ↔
      Starts env rootDirectory fs₀ ∧ RunsProgram env rootDirectory fs₀) ∧
    ((main env rootDirectory cwd fs₀).child.2 = none → ∃ w, Complete env rootDirectory fs₀ w ∧
      (main env rootDirectory cwd fs₀).child.1.fs = env.program w) := by
  have hiff : (runCalls (beginning env rootDirectory) ⟨fs₀, cwd, []⟩).2 = none ↔
      Starts env rootDirectory fs₀ := begins_iff habs
  rw [← hiff]
  by_cases hbegins : (runCalls (beginning env rootDirectory) ⟨fs₀, cwd, []⟩).2 = none
  · rcases child_left_of_begins habs hclone hbegins with ⟨hruns, hends, hleft⟩ | ⟨hnot, hstops, -⟩ |
      ⟨hrefused, hstops, -⟩
    · exact ⟨iff_of_true hends ⟨hbegins, hruns⟩, fun _ => hleft⟩
    · exact ⟨iff_of_false hstops fun h => hnot h.2, fun h => absurd h hstops⟩
    · exact ⟨iff_of_false hstops fun h => hrefused h.2.created, fun h => absurd h hstops⟩
  · have hstops := (fs_of_not_begun hclone hbegins).2
    exact ⟨iff_of_false hstops fun h => hbegins h.1, fun h => absurd h hstops⟩

/-! ## The parent -/

/-- **When the parent ends without stopping**, and what it leaves then. -/
theorem parent_iff (habs : rootDirectory.head? = some '/') (hwaits : Waits env) :
    ((main env rootDirectory cwd fs₀).parent.2 = none ↔
      Unmounts env rootDirectory (main env rootDirectory cwd fs₀).child.1.fs ∧
        Fits rootDirectory ∧
        Releasable env rootDirectory (main env rootDirectory cwd fs₀).child.1.fs) ∧
    ((main env rootDirectory cwd fs₀).parent.2 = none →
      ∃ f, (main env rootDirectory cwd fs₀).child.1.fs.umount
          (rootPath rootDirectory ++ [proc]) = some f ∧
        f.Without (removed rootDirectory) (main env rootDirectory cwd fs₀).parent.1.fs) := by
  rw [parent_of_waits hwaits, parent_calls]
  set w := (main env rootDirectory cwd fs₀).child.1.fs with hw
  obtain ⟨hunmounts, hleaves⟩ := umount_eq_ok env habs (p := ⟨w, cwd, []⟩) rfl
  cases hcall : checked env .umount errorUmount (umount (rootDirectory ++ dir proc))
      ⟨w, cwd, []⟩ with
  | error e =>
      have hnot : ¬ Unmounts env rootDirectory w := by
        rw [← hunmounts, hcall]
        rintro ⟨p', hp'⟩
        cases hp'
      rw [runCalls_cons_of_error hcall]
      exact ⟨⟨nofun, fun h => absurd h.1 hnot⟩, nofun⟩
  | ok p' =>
      have hyes : Unmounts env rootDirectory w := hunmounts.mp ⟨p', hcall⟩
      obtain ⟨hfs, hroot⟩ := hleaves p' hcall
      rw [runCalls_cons_of_ok hcall, and_iff_right hyes]
      by_cases hfits : Fits rootDirectory
      · have hcopy : strcpy (pidsDirectory rootDirectory) p' = .ok p' := if_pos hfits
        have hgoes : GoesThrough (releasingAllResources env rootDirectory).tail p' _ _ :=
          goesThrough_release habs hroot
        rw [runCalls_cons_of_ok hcopy, and_iff_right hfits, hgoes.iff, released_iff,
          releasable_umount hfs]
        exact ⟨Iff.rfl, fun h => ⟨_, hfs, hgoes.ends (hgoes.iff.mpr (released_iff.mpr
          ((releasable_umount hfs).mpr h)))⟩⟩
      · have hcopy : strcpy (pidsDirectory rootDirectory) p' = .error .undefined := if_neg hfits
        rw [runCalls_cons_of_error hcopy]
        exact ⟨⟨nofun, fun h => absurd h.1 hfits⟩, nofun⟩

/-- A child that has begun and does not come to run the program: what the parent needs. -/
theorem parent_iff_cleansUp (habs : rootDirectory.head? = some '/') (hwaits : Waits env)
    (hstarts : Starts env rootDirectory fs₀) (hnot : ¬ RunsProgram env rootDirectory fs₀) :
    (main env rootDirectory cwd fs₀).parent.2 = none ↔ CleansUp env rootDirectory fs₀ := by
  have hready := hstarts.2
  have hbegins : (runCalls (beginning env rootDirectory) ⟨fs₀, cwd, []⟩).2 = none :=
    (begins_iff habs).mpr hstarts
  rw [(parent_iff habs hwaits).1]
  rcases child_left_of_begins habs hwaits.1 hbegins with ⟨hruns, -⟩ | ⟨-, -, hcreated, hcomplete⟩ |
    ⟨hrefused, -, ds, -, hsub, hwith⟩
  · exact absurd hruns hnot
  · rw [hcomplete.unmounts_iff_of_walk hready.walk,
      hcomplete.releasable_iff_of_walk hready.walk hready.fs_new, hcomplete.mem_mounts]
    constructor
    · rintro ⟨⟨hum, hmem⟩, hfits, hopen, hreleased⟩
      exact ⟨hfits, hwaits.2, hcreated, hopen, by tauto, hum, hreleased⟩
    · intro hc
      have hmounted := hc.mounted
      exact ⟨⟨hc.unmounted, by tauto⟩, hc.fits, hc.opened, hc.released⟩
  · have hfull : ¬ Releasable env rootDirectory (main env rootDirectory cwd fs₀).child.1.fs :=
      not_releasable_of_with hready.fs_new hsub hwith
    exact ⟨fun h => absurd h.2.2 hfull, fun hc => absurd hc.created hrefused⟩

/-! ## Whole runs -/

/-- **When `main` returns `SUCCESS`.** There must be a child, for which the parent waits. If the
program is run, it must have left what the parent
unmounts and removes; if it is not, the parent cleans up after the child, or after an earlier run
where a container could not even be begun. -/
theorem main_succeeds_iff (habs : rootDirectory.head? = some '/') :
    (main env rootDirectory cwd fs₀).parent.2 = none ↔ Waits env ∧ Fits rootDirectory ∧
      ((Starts env rootDirectory fs₀ ∧ RunsProgram env rootDirectory fs₀ ∧
          ∃ w, Complete env rootDirectory fs₀ w ∧ Unmounts env rootDirectory (env.program w) ∧
            Releasable env rootDirectory (env.program w)) ∨
        (Starts env rootDirectory fs₀ ∧ ¬ RunsProgram env rootDirectory fs₀ ∧
          CleansUp env rootDirectory fs₀) ∨
        (¬ Starts env rootDirectory fs₀ ∧ Unmounts env rootDirectory fs₀ ∧
          Releasable env rootDirectory fs₀)) := by
  by_cases hwaits : Waits env
  case neg =>
    rw [parent_of_not_waits hwaits]
    exact iff_of_false nofun fun h => hwaits h.1
  rw [and_iff_right hwaits]
  by_cases hstarts : Starts env rootDirectory fs₀
  · by_cases hruns : RunsProgram env rootDirectory fs₀
    · have hchild : (main env rootDirectory cwd fs₀).child.2 = none :=
        (child_iff habs hwaits.1).1.mpr ⟨hstarts, hruns⟩
      obtain ⟨w, hcomplete, hprogram⟩ := (child_iff habs hwaits.1).2 hchild
      rw [(parent_iff habs hwaits).1, hprogram]
      constructor
      · rintro ⟨hunmounts, hfits, hreleasable⟩
        exact ⟨hfits, .inl ⟨hstarts, hruns, w, hcomplete, hunmounts, hreleasable⟩⟩
      · rintro ⟨hfits, ⟨-, -, v, hv, hunmounts, hreleasable⟩ | ⟨-, hnot, -⟩ | ⟨hnot, -⟩⟩
        · rw [hcomplete.unique hv]
          exact ⟨hunmounts, hfits, hreleasable⟩
        · exact absurd hruns hnot
        · exact absurd hstarts hnot
    · rw [parent_iff_cleansUp habs hwaits hstarts hruns]
      constructor
      · intro hc
        exact ⟨hc.fits, .inr (.inl ⟨hstarts, hruns, hc⟩)⟩
      · rintro ⟨-, ⟨-, hyes, -⟩ | ⟨-, -, hc⟩ | ⟨hnot, -⟩⟩
        · exact absurd hyes hruns
        · exact hc
        · exact absurd hstarts hnot
  · have hbegin : (runCalls (beginning env rootDirectory) ⟨fs₀, cwd, []⟩).2 ≠ none :=
      fun h => hstarts ((begins_iff habs).mp h)
    rw [(parent_iff habs hwaits).1, (fs_of_not_begun hwaits.1 hbegin).1]
    constructor
    · rintro ⟨hunmounts, hfits, hreleasable⟩
      exact ⟨hfits, .inr (.inr ⟨hstarts, hunmounts, hreleasable⟩)⟩
    · rintro ⟨hfits, ⟨hyes, -⟩ | ⟨hyes, -⟩ | ⟨-, hunmounts, hreleasable⟩⟩
      · exact absurd hyes hstarts
      · exact absurd hyes hstarts
      · exact ⟨hunmounts, hfits, hreleasable⟩

/-- `main` returns `SUCCESS` although the program could not be run. -/
theorem main_succeeds_execvp :
    (main (refusing (some .execvp)) ['/', 'r'] [] rootWithProc).parent.2 = none := by
  refine (main_succeeds_iff (by decide)).mpr
    ⟨by decide, by decide, .inr (.inl ⟨⟨by decide, ?_⟩, ?_, ?_⟩)⟩
  · exact ⟨by decide, by decide, by decide⟩
  · exact fun hruns => absurd hruns.executes (by decide)
  · exact {
      fits := by decide
      waited := by decide
      created := by decide
      opened := by decide
      mounted := .inr ⟨rfl, rfl, by decide⟩
      unmounted := by decide
      released := by decide }

/-! ## Runs one after the other -/

/-- A root directory for containers, with `proc` as well. -/
structure Equipped (rootDirectory : List Char) (fs₀ : Filesystem (List Char)) : Prop extends
    Ready rootDirectory fs₀ where
  proc_mem : rootPath rootDirectory ++ [proc] ∈ fs₀.dirs

/-- The program makes `fs₁` of `fs₀`, and leaves alone what the container has set up besides. -/
def Leads (env : Environment) (rootDirectory : List Char) (fs₀ fs₁ : Filesystem (List Char)) :
    Prop :=
  ∀ w, Complete env rootDirectory fs₀ w → Complete env rootDirectory fs₁ (env.program w)

/-- What the parent removes is what is created. -/
theorem mem_removed {q : List (List Char)} :
    q ∈ removed rootDirectory ↔ q ∈ created rootDirectory := by
  simp only [removed, removedFiles, created, List.mem_cons, List.mem_reverse, List.mem_append,
    List.not_mem_nil, or_false]
  tauto

theorem opened_subset : opened env rootDirectory ⊆ created rootDirectory := by
  intro q hq
  have hfiles : ∀ name ∈ pidsFiles, pidsPath rootDirectory ++ [name] ∈ created rootDirectory :=
    fun name hname => List.mem_append_right _ (List.mem_map.mpr ⟨name, hname, rfl⟩)
  rw [mem_opened] at hq
  rcases hq with ⟨-, rfl⟩ | ⟨-, rfl⟩ | ⟨-, rfl⟩ <;> exact hfiles _ (by simp [pidsFiles])

/-- **Undone.** Without the mount and what is created, the filesystem is as it was. -/
theorem Complete.undone (h : Complete env rootDirectory fs₁ w)
    (hnew : ¬ fs₁.Exists (fsPath rootDirectory))
    (hmounted : env.shared = true ∧ Mounts env rootDirectory fs₁) {f v : Filesystem (List Char)}
    (humount : w.umount (rootPath rootDirectory ++ [proc]) = some f)
    (hwithout : f.Without (removed rootDirectory) v) : v = fs₁ := by
  have hfresh : ∀ q ∈ removed rootDirectory, ¬ fs₁.Exists q :=
    fun q hq => nothing_created_iff.mpr hnew q (mem_removed.mp hq)
  obtain ⟨hdirs, hfiles⟩ := Filesystem.dirs_umount humount
  have hmounts : f.mounts = fs₁.mounts := by
    rw [Filesystem.umount] at humount
    split_ifs at humount
    cases humount
    simp [h.mounts, if_pos hmounted]
  have hmade : ∀ q ∈ [pidsPath rootDirectory, cgroupPath rootDirectory, fsPath rootDirectory],
      q ∈ removed rootDirectory := by
    simp [removed]
  refine Filesystem.ext (Finset.ext fun q => ?_) (Finset.ext fun q => ?_)
    (hwithout.mounts.trans hmounts)
  · rw [hwithout.dirs, hdirs, h.dirs]
    constructor
    · rintro ⟨hold | hnew, hnot⟩
      · exact hold
      · exact absurd (hmade q hnew) hnot
    · exact fun hq => ⟨.inl hq, fun hmem => hfresh q hmem (.inl hq)⟩
  · rw [hwithout.files, hfiles, h.files]
    constructor
    · rintro ⟨hold | hnew, hnot⟩
      · exact hold
      · exact absurd (mem_removed.mpr (opened_subset hnew)) hnot
    · exact fun hq => ⟨.inl hq, fun hmem => hfresh q hmem (.inr hq)⟩

/-- **One run**: both processes end, and the filesystem is what the program has made of it. -/
theorem run_transparent (habs : rootDirectory.head? = some '/') (hfits : Fits rootDirectory)
    (hgrants : ∀ site, env.grants site = true) (hshared : env.shared = true)
    (h₀ : Equipped rootDirectory fs₀) (h₁ : Equipped rootDirectory fs₁)
    (hleads : Leads env rootDirectory fs₀ fs₁) :
    (main env rootDirectory cwd fs₀).child.2 = none ∧
      (main env rootDirectory cwd fs₀).parent.2 = none ∧
      (main env rootDirectory cwd fs₀).parent.1.fs = fs₁ := by
  have hruns : RunsProgram env rootDirectory fs₀ :=
    ⟨fun _ _ => hgrants _, ⟨hgrants _, h₀.proc_mem⟩, fun _ => hgrants _, hgrants _⟩
  have hwaits : Waits env := ⟨hgrants _, hgrants _⟩
  have hchild : (main env rootDirectory cwd fs₀).child.2 = none :=
    (child_iff habs hwaits.1).1.mpr ⟨⟨fun _ _ => hgrants _, h₀.toReady⟩, hruns⟩
  obtain ⟨w, hcomplete, hprogram⟩ := (child_iff habs hwaits.1).2 hchild
  have hleft : Complete env rootDirectory fs₁ (main env rootDirectory cwd fs₀).child.1.fs :=
    hprogram ▸ hleads w hcomplete
  have hmounts : Mounts env rootDirectory fs₁ := ⟨hgrants _, h₁.proc_mem⟩
  have hparent : (main env rootDirectory cwd fs₀).parent.2 = none := by
    refine (parent_iff habs hwaits).1.mpr ⟨?_, hfits, ?_⟩
    · rw [hleft.unmounts_iff_of_walk h₁.walk, hleft.mem_mounts]
      exact ⟨hgrants _, .inr ⟨rfl, hshared, hmounts⟩⟩
    · rw [hleft.releasable_iff_of_walk h₁.walk h₁.fs_new]
      exact ⟨fun _ _ => hgrants _, fun _ _ => hgrants _⟩
  obtain ⟨f, humount, hwithout⟩ := (parent_iff habs hwaits).2 hparent
  exact ⟨hchild, hparent, hleft.undone h₁.fs_new ⟨hshared, hmounts⟩ humount hwithout⟩

/-- Runs `main` once with each environment and working directory, as long as both processes end
without stopping: what the last run leaves. -/
def inTurn (rootDirectory : List Char) :
    List (Environment × List (List Char)) → Filesystem (List Char) →
      Option (Filesystem (List Char))
  | [], fs₀ => some fs₀
  | (env, cwd) :: runs, fs₀ =>
    let ended := main env rootDirectory cwd fs₀
    if ended.child.2 = none ∧ ended.parent.2 = none then inTurn rootDirectory runs ended.parent.1.fs
    else none

/-- What the programs of several runs make of the filesystem, one after the other. -/
inductive Course (rootDirectory : List Char) :
    Filesystem (List Char) → List (Environment × List (List Char)) → Filesystem (List Char) → Prop
  | nil {f : Filesystem (List Char)} : Course rootDirectory f [] f
  | cons {env : Environment} {cwd : List (List Char)} {f f' f'' : Filesystem (List Char)}
      {runs : List (Environment × List (List Char))} (equipped : Equipped rootDirectory f')
      (leads : Leads env rootDirectory f f') (rest : Course rootDirectory f' runs f'') :
      Course rootDirectory f ((env, cwd) :: runs) f''

/-- **Containers can be run again and again.** If the kernel refuses nothing and mounts reach the
parent, any number of runs do to the filesystem what the programs do that are run in them, and no
run fails. -/
theorem runs_transparent (habs : rootDirectory.head? = some '/') (hfits : Fits rootDirectory)
    {runs : List (Environment × List (List Char))}
    (hruns : ∀ run ∈ runs, (∀ site, run.1.grants site = true) ∧ run.1.shared = true)
    (h₀ : Equipped rootDirectory fs₀) (hcourse : Course rootDirectory fs₀ runs fs₁) :
    inTurn rootDirectory runs fs₀ = some fs₁ := by
  induction hcourse with
  | nil => rfl
  | @cons env cwd _ _ _ runs hequipped hleads _ ih =>
      obtain ⟨⟨hgrants, hshared⟩, hrest⟩ := List.forall_mem_cons.mp hruns
      obtain ⟨hchild, hparent, hfs⟩ : (main env rootDirectory cwd _).child.2 = none ∧ _ :=
        run_transparent habs hfits hgrants hshared h₀ hequipped hleads
      rw [inTurn, if_pos ⟨hchild, hparent⟩, hfs]
      exact ih hrest hequipped

/-- A kernel that refuses nothing, and a program that writes a file. -/
def writing : Environment where
  grants := fun _ => true
  shared := true
  program := fun f => (f.create [['r'], ['a']]).getD f

/-- The root directory with that file. -/
def rootWithFile : Filesystem (List Char) := writing.program rootWithProc

/-- The file is written in the first of two runs, and the second finds it. -/
theorem runs_transparent_writing :
    inTurn ['/', 'r'] [(writing, []), (writing, [])] rootWithProc = some rootWithFile := by
  have hequipped₀ : Equipped ['/', 'r'] rootWithProc :=
    ⟨⟨by decide, by decide, by decide⟩, by decide⟩
  have hequipped : Equipped ['/', 'r'] rootWithFile :=
    ⟨⟨by decide, by decide, by decide⟩, by decide⟩
  have hwrites : ∀ f : Filesystem (List Char), f.dirs = rootWithFile.dirs → f.mounts = [] →
      insert [['r'], ['a']] f.files = rootWithFile.files →
      Leads writing ['/', 'r'] f rootWithFile := by
    intro f hdirs hmounts hfiles w hw
    have hsome : (w.create [['r'], ['a']]).isSome := by
      rw [Filesystem.create_isSome, hw.dirs, hw.dirs, hdirs]
      decide
    rw [Filesystem.create_isSome] at hsome
    have hprogram : (writing.program w).dirs = w.dirs ∧
        (writing.program w).files = insert [['r'], ['a']] w.files ∧
        (writing.program w).mounts = w.mounts := by
      simp only [writing, Filesystem.create, dif_pos hsome, Option.getD_some, and_self]
    refine ⟨fun q => ?_, fun q => ?_, ?_⟩
    · rw [hprogram.1, hw.dirs, hdirs]
    · rw [hprogram.2.1, Finset.mem_insert, hw.files, ← hfiles, Finset.mem_insert, or_assoc]
    · have hiff : Mounts writing ['/', 'r'] f ↔ Mounts writing ['/', 'r'] rootWithFile :=
        and_congr_right fun _ => by rw [hdirs]
      rw [hprogram.2.2, hw.mounts, hmounts]
      simp only [hiff]
      rfl
  refine runs_transparent (by decide) (by decide) (fun run hrun => ?_) hequipped₀
    (.cons hequipped (hwrites _ rfl rfl rfl) (.cons hequipped (hwrites _ rfl rfl (by decide)) .nil))
  simp only [List.mem_cons, List.not_mem_nil, or_false, or_self] at hrun
  rw [hrun]
  exact ⟨fun _ => rfl, rfl⟩

end CoreOS.Container
