import Mathlib

/-!
# Trees of directories and files

A filesystem as the set of its directories and the set of its files, each given by its path from the
top, without symbolic links; and the mount points in it.

* `Filesystem` carries its own well-formedness: what lies in a directory that is there is there, a
  directory is no file, and mount points are directories.
* `mkdir`, `create`, `remove`, `mount` and `umount` are the operations, `none` where they are
  impossible whoever asks. `Without` and `With` say what is there after several of them.
* `walk` follows the components of a path from a directory; `normal` is where it leads if it leads
  anywhere (`eq_normal_of_walk`). `components` are those of a path as it is written.
* `Sole`: what a directory holds at most; `Removable` uses it for the removal of a directory.
-/

namespace CoreOS.Lib

variable {ν : Type*}

/-- A component of a path: `.`, `..` or a name. -/
inductive Component (ν : Type*)
  | here
  | up
  | down (name : ν)
  deriving DecidableEq

/-- A tree of directories and files, with its mount points; paths start at the top. -/
@[ext] structure Filesystem (ν : Type*) [DecidableEq ν] where
  /-- The directories. -/
  dirs : Finset (List ν)
  /-- The files. -/
  files : Finset (List ν)
  /-- The mount points, as often as something is mounted there. -/
  mounts : List (List ν)
  nil_mem : [] ∈ dirs
  dropLast_mem : ∀ p ∈ dirs ∪ files, p.dropLast ∈ dirs
  disjoint : Disjoint dirs files
  mounts_mem : ∀ p ∈ mounts, p ∈ dirs

namespace Filesystem

variable [DecidableEq ν] {fs fs' : Filesystem ν} {p q : List ν}

/-- There is something at the path. -/
def Exists (fs : Filesystem ν) (p : List ν) : Prop := p ∈ fs.dirs ∨ p ∈ fs.files

instance : Decidable (fs.Exists p) := inferInstanceAs (Decidable (_ ∨ _))

/-- The directory `p` holds nothing but what has a name in `names`. -/
def Sole (fs : Filesystem ν) (p : List ν) (names : List ν) : Prop :=
  ∀ q ∈ fs.dirs ∪ fs.files, q ≠ [] → q.dropLast = p → ∃ name ∈ names, q = p ++ [name]

/-- Something can be removed: a file, or an empty directory on which nothing is mounted. -/
def Removable (fs : Filesystem ν) (p : List ν) : Prop :=
  p ∈ fs.files ∨ (p ∈ fs.dirs ∧ p ≠ [] ∧ p ∉ fs.mounts ∧ fs.Sole p [])

instance {names : List ν} : Decidable (fs.Sole p names) :=
  inferInstanceAs (Decidable (∀ q ∈ _, q ≠ [] → q.dropLast = p → ∃ name ∈ names, q = p ++ [name]))

instance : Decidable (fs.Removable p) := inferInstanceAs (Decidable (_ ∨ _))

theorem Exists.mem (h : fs.Exists p) : p ∈ fs.dirs ∪ fs.files := Finset.mem_union.mpr h

/-- What something lies in is a directory. -/
theorem Exists.dropLast (h : fs.Exists p) : p.dropLast ∈ fs.dirs := fs.dropLast_mem p h.mem

theorem Exists.parent {name : ν} (h : fs.Exists (p ++ [name])) : p ∈ fs.dirs := by
  simpa using h.dropLast

/-- What something lies in, however deep, is there. -/
theorem Exists.of_append {q : List ν} (h : fs.Exists (p ++ q)) : fs.Exists p := by
  induction q using List.reverseRecOn with
  | nil => simpa using h
  | append_singleton q name ih =>
      rw [← List.append_assoc] at h
      exact ih (.inl h.parent)

theorem sole_iff {names : List ν} :
    fs.Sole p names ↔ ∀ name, fs.Exists (p ++ [name]) → name ∈ names := by
  constructor
  · intro h name hname
    obtain ⟨name', hmem, heq⟩ := h _ hname.mem (by simp) List.dropLast_concat
    rwa [(List.cons.inj (List.append_cancel_left heq)).1]
  · rintro h q hq hq0 rfl
    have heq : q.dropLast ++ [q.getLast hq0] = q := List.dropLast_append_getLast hq0
    refine ⟨q.getLast hq0, h _ ?_, heq.symm⟩
    rw [heq]
    exact Finset.mem_union.mp hq

namespace Removable

theorem exists_ (h : fs.Removable p) : fs.Exists p := h.elim .inr fun h => .inl h.1

/-- Nothing lies in what can be removed. -/
theorem dropLast_ne (h : fs.Removable p) (hq : q ∈ fs.dirs ∪ fs.files) : q.dropLast ≠ p := by
  rintro rfl
  rcases h with hfile | ⟨-, hne, -, hsole⟩
  · exact Finset.disjoint_left.mp fs.disjoint (fs.dropLast_mem q hq) hfile
  · have hq0 : q ≠ [] := by
      rintro rfl
      exact hne rfl
    obtain ⟨name, hname, -⟩ := hsole q hq hq0 rfl
    cases hname

theorem nil_ne (h : fs.Removable p) : [] ≠ p :=
  h.dropLast_ne (Finset.mem_union_left _ fs.nil_mem)

theorem not_mem_mounts (h : fs.Removable p) : p ∉ fs.mounts := by
  intro hp
  rcases h with hfile | ⟨-, -, hmount, -⟩
  · exact Finset.disjoint_left.mp fs.disjoint (fs.mounts_mem p hp) hfile
  · exact hmount hp

end Removable

/-- What a directory lies in, however deep, is a directory. -/
theorem mem_dirs_of_append {q : List ν} (h : p ++ q ∈ fs.dirs) : p ∈ fs.dirs := by
  induction q using List.reverseRecOn with
  | nil => simpa using h
  | append_singleton q name ih =>
      rw [← List.append_assoc] at h
      exact ih (Exists.parent (.inl h))

/-! ## Operations -/

/-- Makes a directory. -/
def mkdir (fs : Filesystem ν) (p : List ν) : Option (Filesystem ν) :=
  if h : ¬ fs.Exists p ∧ p.dropLast ∈ fs.dirs then
    some {
      dirs := insert p fs.dirs
      files := fs.files
      mounts := fs.mounts
      nil_mem := Finset.mem_insert_of_mem fs.nil_mem
      dropLast_mem := by
        intro q hq
        rw [Finset.insert_union, Finset.mem_insert] at hq
        rcases hq with rfl | hq
        · exact Finset.mem_insert_of_mem h.2
        · exact Finset.mem_insert_of_mem (fs.dropLast_mem q hq)
      disjoint := Finset.disjoint_insert_left.mpr ⟨fun hp => h.1 (.inr hp), fs.disjoint⟩
      mounts_mem := fun q hq => Finset.mem_insert_of_mem (fs.mounts_mem q hq) }
  else none

/-- Opens a file for writing; it is made if it is not there. -/
def create (fs : Filesystem ν) (p : List ν) : Option (Filesystem ν) :=
  if h : p ∉ fs.dirs ∧ p.dropLast ∈ fs.dirs then
    some {
      dirs := fs.dirs
      files := insert p fs.files
      mounts := fs.mounts
      nil_mem := fs.nil_mem
      dropLast_mem := by
        intro q hq
        rw [Finset.union_insert, Finset.mem_insert] at hq
        rcases hq with rfl | hq
        · exact h.2
        · exact fs.dropLast_mem q hq
      disjoint := Finset.disjoint_insert_right.mpr ⟨h.1, fs.disjoint⟩
      mounts_mem := fs.mounts_mem }
  else none

/-- Removes a file or an empty directory. -/
def remove (fs : Filesystem ν) (p : List ν) : Option (Filesystem ν) :=
  if h : fs.Removable p then
    some {
      dirs := fs.dirs.erase p
      files := fs.files.erase p
      mounts := fs.mounts
      nil_mem := Finset.mem_erase.mpr ⟨h.nil_ne, fs.nil_mem⟩
      dropLast_mem := by
        intro q hq
        rw [← Finset.erase_union_distrib, Finset.mem_erase] at hq
        exact Finset.mem_erase.mpr ⟨h.dropLast_ne hq.2, fs.dropLast_mem q hq.2⟩
      disjoint := fs.disjoint.mono (Finset.erase_subset _ _) (Finset.erase_subset _ _)
      mounts_mem := fun q hq => Finset.mem_erase.mpr
        ⟨fun heq => h.not_mem_mounts (heq ▸ hq), fs.mounts_mem q hq⟩ }
  else none

/-- Mounts something on a directory. -/
def mount (fs : Filesystem ν) (p : List ν) : Option (Filesystem ν) :=
  if h : p ∈ fs.dirs then
    some { fs with
      mounts := p :: fs.mounts
      mounts_mem := List.forall_mem_cons.mpr ⟨h, fs.mounts_mem⟩ }
  else none

/-- Takes off what was mounted last on a directory. -/
def umount (fs : Filesystem ν) (p : List ν) : Option (Filesystem ν) :=
  if p ∈ fs.mounts then
    some { fs with
      mounts := fs.mounts.erase p
      mounts_mem := fun q hq => fs.mounts_mem q (List.mem_of_mem_erase hq) }
  else none

/-! ### What is there afterwards -/

theorem exists_remove (h : fs.remove p = some fs') : fs'.Exists q ↔ fs.Exists q ∧ q ≠ p := by
  rw [remove] at h
  split_ifs at h
  cases h
  simp only [Exists, Finset.mem_erase]
  tauto

theorem exists_umount (h : fs.umount p = some fs') : fs'.Exists q ↔ fs.Exists q := by
  rw [umount] at h
  split_ifs at h
  cases h
  exact Iff.rfl

/-- Taking off what is mounted on `p` changes nothing for another path. -/
theorem mem_mounts_umount (h : fs.umount p = some fs') (hne : q ≠ p) :
    q ∈ fs'.mounts ↔ q ∈ fs.mounts := by
  rw [umount] at h
  split_ifs at h
  cases h
  exact List.mem_erase_of_ne hne

theorem dirs_umount (h : fs.umount p = some fs') : fs'.dirs = fs.dirs ∧ fs'.files = fs.files := by
  rw [umount] at h
  split_ifs at h
  cases h
  exact ⟨rfl, rfl⟩

theorem sole_umount (h : fs.umount p = some fs') {names : List ν} :
    fs'.Sole q names ↔ fs.Sole q names := by
  rw [Sole, Sole, (dirs_umount h).1, (dirs_umount h).2]

theorem removable_umount (h : fs.umount p = some fs') (hne : q ≠ p) :
    fs'.Removable q ↔ fs.Removable q := by
  rw [Removable, Removable, (dirs_umount h).1, (dirs_umount h).2, mem_mounts_umount h hne,
    sole_umount h]

/-- When a directory can be made. -/
theorem mkdir_isSome : (fs.mkdir p).isSome ↔ ¬ fs.Exists p ∧ p.dropLast ∈ fs.dirs := by
  rw [mkdir]
  split_ifs with h
  · simpa using h
  · simpa using h

/-- When a file can be opened for writing. -/
theorem create_isSome : (fs.create p).isSome ↔ p ∉ fs.dirs ∧ p.dropLast ∈ fs.dirs := by
  rw [create]
  split_ifs with h
  · simpa using h
  · simpa using h

theorem remove_isSome : (fs.remove p).isSome ↔ fs.Removable p := by
  rw [remove]
  split_ifs with h
  · simpa using h
  · simpa using h

/-! ### Removing several things -/

/-- `fs'` is `fs` without what was at the paths in `gone`. -/
structure Without (fs : Filesystem ν) (gone : List (List ν)) (fs' : Filesystem ν) : Prop where
  dirs : ∀ q, q ∈ fs'.dirs ↔ q ∈ fs.dirs ∧ q ∉ gone
  files : ∀ q, q ∈ fs'.files ↔ q ∈ fs.files ∧ q ∉ gone
  mounts : fs'.mounts = fs.mounts

namespace Without

variable {gone : List (List ν)} {fs'' : Filesystem ν}

theorem refl : Without fs [] fs := ⟨fun q => by simp, fun q => by simp, rfl⟩

theorem remove (h : Without fs gone fs') (hremove : fs'.remove p = some fs'') :
    Without fs (p :: gone) fs'' := by
  rw [Filesystem.remove] at hremove
  split_ifs at hremove
  cases hremove
  refine ⟨fun q => ?_, fun q => ?_, h.mounts⟩
  · rw [Finset.mem_erase, h.dirs, List.mem_cons]
    tauto
  · rw [Finset.mem_erase, h.files, List.mem_cons]
    tauto

theorem exists_iff (h : Without fs gone fs') : fs'.Exists q ↔ fs.Exists q ∧ q ∉ gone := by
  simp only [Exists, h.dirs, h.files]
  tauto

/-- There is only one such filesystem. -/
theorem unique (h : Without fs gone fs') (h' : Without fs gone fs'') : fs' = fs'' := by
  ext q
  · rw [h.dirs, h'.dirs]
  · rw [h.files, h'.files]
  · rw [h.mounts, h'.mounts]

/-- What can be removed when some things are gone: what lies in a directory must be among them. -/
theorem removable_iff (h : Without fs gone fs') : fs'.Removable q ↔ q ∉ gone ∧
    (q ∈ fs.files ∨ (q ∈ fs.dirs ∧ q ≠ [] ∧ q ∉ fs.mounts ∧
      ∀ r, fs.Exists r → r ≠ [] → r.dropLast = q → r ∈ gone)) := by
  have hsole : fs'.Sole q [] ↔ ∀ r, fs.Exists r → r ≠ [] → r.dropLast = q → r ∈ gone := by
    constructor
    · intro hs r hr hr0 hrq
      by_contra hgone
      obtain ⟨name, hname, -⟩ := hs r (h.exists_iff.mpr ⟨hr, hgone⟩).mem hr0 hrq
      cases hname
    · intro hs r hr hr0 hrq
      have hr' : fs'.Exists r := Finset.mem_union.mp hr
      rw [h.exists_iff] at hr'
      exact absurd (hs r hr'.1 hr0 hrq) hr'.2
  rw [Removable, h.files, h.dirs, h.mounts, hsole]
  tauto

end Without

/-! ### Adding several things -/

/-- `fs'` is `fs` with the directories `ds` and the files `fl` besides. -/
structure With (fs : Filesystem ν) (ds fl : List (List ν)) (fs' : Filesystem ν) : Prop where
  dirs : ∀ q, q ∈ fs'.dirs ↔ q ∈ fs.dirs ∨ q ∈ ds
  files : ∀ q, q ∈ fs'.files ↔ q ∈ fs.files ∨ q ∈ fl
  mounts : fs'.mounts = fs.mounts

namespace With

variable {ds fl : List (List ν)} {fs'' : Filesystem ν}

theorem refl : With fs [] [] fs := ⟨fun q => by simp, fun q => by simp, rfl⟩

theorem mkdir (h : With fs ds fl fs') (hmkdir : fs'.mkdir p = some fs'') :
    With fs (p :: ds) fl fs'' := by
  rw [Filesystem.mkdir] at hmkdir
  split_ifs at hmkdir
  cases hmkdir
  refine ⟨fun q => ?_, h.files, h.mounts⟩
  rw [Finset.mem_insert, h.dirs, List.mem_cons]
  tauto

theorem create (h : With fs ds fl fs') (hcreate : fs'.create p = some fs'') :
    With fs ds (p :: fl) fs'' := by
  rw [Filesystem.create] at hcreate
  split_ifs at hcreate
  cases hcreate
  refine ⟨h.dirs, fun q => ?_, h.mounts⟩
  rw [Finset.mem_insert, h.files, List.mem_cons]
  tauto

theorem exists_iff (h : With fs ds fl fs') : fs'.Exists q ↔ fs.Exists q ∨ q ∈ ds ∨ q ∈ fl := by
  simp only [Exists, h.dirs, h.files]
  tauto

end With

end Filesystem

/-! ## Paths -/

section paths

variable [DecidableEq ν] {dirs : Finset (List ν)} {root p q : List ν}

/-- Follows one component from the directory `p`. The way up ends at `root`. -/
def enter (dirs : Finset (List ν)) (root p : List ν) : Component ν → Option (List ν)
  | .here => some p
  | .up => some (if p = root then p else p.dropLast)
  | .down name => if p ++ [name] ∈ dirs then some (p ++ [name]) else none

/-- Follows the components of a path from the directory `p`. -/
def walk (dirs : Finset (List ν)) (root p : List ν) (path : List (Component ν)) :
    Option (List ν) :=
  path.foldlM (enter dirs root) p

/-- Where the components of a path lead, if all the directories are there. -/
def normal (root p : List ν) (path : List (Component ν)) : List ν :=
  path.foldl (fun p component =>
    match component with
    | .here => p
    | .up => if p = root then p else p.dropLast
    | .down name => p ++ [name]) p

/-- A path that leads somewhere leads to its normal form. -/
theorem eq_normal_of_walk {path : List (Component ν)} (h : walk dirs root p path = some q) :
    q = normal root p path := by
  induction path generalizing p with
  | nil =>
      cases h
      rfl
  | cons component path ih =>
      obtain ⟨t, ht, h⟩ := Option.bind_eq_some_iff.mp h
      rw [ih h]
      cases component with
      | here | up =>
          cases ht
          rfl
      | down name =>
          simp only [enter] at ht
          split_ifs at ht
          cases ht
          rfl

theorem walk_append {path path' : List (Component ν)} :
    walk dirs root p (path ++ path') =
      (walk dirs root p path).bind fun q => walk dirs root q path' :=
  List.foldlM_append

/-- More directories do not stop a walk. -/
theorem walk_mono {dirs' : Finset (List ν)} (hsub : dirs ⊆ dirs') {path : List (Component ν)}
    (h : walk dirs root p path = some q) : walk dirs' root p path = some q := by
  induction path generalizing p with
  | nil => exact h
  | cons component path ih =>
      obtain ⟨t, ht, h⟩ := Option.bind_eq_some_iff.mp h
      refine Option.bind_eq_some_iff.mpr ⟨t, ?_, ih h⟩
      cases component with
      | here | up => exact ht
      | down name =>
          simp only [enter] at ht ⊢
          split_ifs at ht with hmem
          cases ht
          exact if_pos (hsub hmem)

/-- A walk down a name. -/
theorem walk_down {name : ν} {path : List (Component ν)} (h : p ++ [name] ∈ dirs) :
    walk dirs root p (.down name :: path) = walk dirs root (p ++ [name]) path := by
  rw [walk, List.foldlM_cons, enter, if_pos h]
  rfl

/-- A walk down to a directory of a filesystem. -/
theorem walk_names {fs : Filesystem ν} {names : List ν} (h : p ++ names ∈ fs.dirs) :
    walk fs.dirs root p (names.map .down) = some (p ++ names) := by
  induction names generalizing p with
  | nil => simp [walk]
  | cons name names ih =>
      rw [List.append_cons] at h
      rw [List.map_cons, walk_down (Filesystem.mem_dirs_of_append h), ih h, ← List.append_cons]

theorem normal_append {path path' : List (Component ν)} :
    normal root p (path ++ path') = normal root (normal root p path) path' :=
  List.foldl_append

/-- Names only lead down. -/
theorem normal_down {names : List ν} : normal root p (names.map .down) = p ++ names := by
  induction names generalizing p with
  | nil => simp [normal]
  | cons name names ih =>
      rw [List.map_cons, normal, List.foldl_cons]
      exact (ih (p := p ++ [name])).trans (by simp)

end paths

section text

/-- The component that a piece of a path stands for; an empty piece stands for none. -/
def component : List Char → Option (Component (List Char))
  | [] => none
  | ['.'] => some .here
  | ['.', '.'] => some .up
  | name => some (.down name)

/-- The components of a path as it is written. -/
def components (text : List Char) : List (Component (List Char)) :=
  (text.splitOn '/').filterMap component

theorem components_append (text text' : List Char) :
    components (text ++ '/' :: text') = components text ++ components text' := by
  rw [components, List.splitOn_append_cons_self, List.filterMap_append, components, components]

end text

end CoreOS.Lib
