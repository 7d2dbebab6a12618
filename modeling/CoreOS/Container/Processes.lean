import CoreOS.Lib.Calls
import CoreOS.Lib.Filesystem

/-!
# The container's two processes

`ex5/container.cpp`: `main` clones a child that runs `create_container`, waits until it has ended,
and cleans up after it. A child that could not be cloned is noticed by `wait` alone.

* `Process`: what a process sees of the filesystem, with its working directory and its root.
* `Environment`: what decides the outcome of a call besides the filesystem. The kernel may refuse
  any of the calls, each being a `Site` of the code; mounts may or may not reach the parent; and the
  program that is run in the container may do anything to the filesystem.
* `limitingNumberProcesses`, `createContainer`, `umountContainer` and `releasingAllResources` are
  the functions of the source as sequences of calls, each with the message with which a process
  exits if it fails. `main` runs the two processes one after the other.

A `Char` of a path or a name stands for one `char`, that is for one byte, so that the length of a
path is that of its C string. It is assumed that the filesystem has no symbolic links. Left out are
what is in the files, their modes, what the child sets besides (its host name, its namespaces), and
the allocation of its stack, after a failure of which `main` exits before anything is done. The
kernel ends all processes of the container with the child, which is the first of its process IDs
space.
-/

namespace CoreOS.Container

open CoreOS.Lib

/-! ## Names and messages -/

/-- `PARENT_DIR`. -/
def parentDir : List Char := "..".toList

/-- `SYS`. -/
def sys : List Char := "sys".toList

/-- `FS`. -/
def fs : List Char := "fs".toList

/-- `CGROUP`. -/
def cgroup : List Char := "cgroup".toList

/-- `PIDS`. -/
def pids : List Char := "pids".toList

/-- `MAX_FILE`. -/
def maxFile : List Char := "pids.max".toList

/-- `PROCS_FILE`. -/
def procsFile : List Char := "cgroup.procs".toList

/-- `PROC`. -/
def proc : List Char := "proc".toList

/-- `RELEASE_CONTAINER_RESOURCES_FILE`. -/
def releaseFile : List Char := "notify_on_release".toList

/-- `DIR`. -/
def dir (name : List Char) : List Char := '/' :: name

/-- `BUFFER_SIZE`. -/
def bufferSize : ℕ := 256

/-- `SYSTEM_ERROR`. -/
def systemError : String := "system error: "

/-- `ERROR_NAME`. -/
def errorName : String := "wasn't able to change the hostname."

/-- `ERROR_RUNNING_NEW_PROGRAM`. -/
def errorRunningNewProgram : String := "wasn't able to run the new program."

/-- `ERROR_CREATING_NEW_DIRECTORY`. -/
def errorCreatingNewDirectory : String := "wasn't able to create a directory."

/-- `ERROR_FILE_DIRECTORY`. -/
def errorFileDirectory : String := "wasn't able to change working directory."

/-- `ERROR_ROOT_DIRECTORY`. -/
def errorRootDirectory : String := "wasn't able to change the root directory."

/-- `ERROR_MOUNT`. -/
def errorMount : String := "wasn't able to mount the file."

/-- `ERROR_UMOUNT`. -/
def errorUmount : String := "wasn't able to umount the file."

/-- `ERROR_DELETE`. -/
def errorDelete : String := "wasn't able to delete the file."

/-- `ERROR_WAIT`. -/
def errorWait : String := "wasn't able to wait for chilled process."

/-! ## Processes and their environment -/

/-- Where in the code the kernel is called. -/
inductive Site
  | clone
  | wait
  | sethostname
  | chdirRoot
  | chroot
  | chdirSys
  | mkdirFs
  | chdirFs
  | mkdirCgroup
  | chdirCgroup
  | mkdirPids
  | chdirPids
  | openProcs
  | openRelease
  | openMax
  | mount
  | chdirUp (round : Fin 4)
  | execvp
  | umount
  | chdirRelease
  | removeMax
  | removeRelease
  | removeProcs
  | leavePids
  | removePids
  | leaveCgroup
  | removeCgroup
  | leaveFs
  | removeFs
  deriving DecidableEq

/-- What decides the outcome of a call besides the filesystem. -/
structure Environment where
  /-- The kernel does not refuse the call for a reason of its own. -/
  grants : Site → Bool
  /-- What the child mounts is mounted for the parent, too. -/
  shared : Bool
  /-- What the program in the container and all it starts do to the filesystem. -/
  program : Filesystem (List Char) → Filesystem (List Char)

/-- What a process works on. -/
structure Process where
  /-- The filesystem, with the mount points of the parent. -/
  fs : Filesystem (List Char)
  /-- The working directory. -/
  cwd : List (List Char)
  /-- The root directory. -/
  root : List (List Char)

/-- Why a process stops before its code has ended. -/
inductive Stop
  /-- `error_handler` prints the message and exits with `EXIT_FAILURE`. -/
  | exit (message : String)
  /-- Something undefined has happened. -/
  | undefined
  /-- `clone` has failed, and there is no such process. -/
  | unborn
  deriving DecidableEq

/-! ### Calls of the kernel -/

/-- The directory that a path names. -/
def Process.resolve (path : List Char) (p : Process) : Option (List (List Char)) :=
  walk p.fs.dirs p.root (if path.head? = some '/' then p.root else p.cwd) (components path)

/-- `chdir`. -/
def chdir (path : List Char) (p : Process) : Option Process :=
  (p.resolve path).map fun cwd => { p with cwd := cwd }

/-- `chroot`. -/
def chroot (path : List Char) (p : Process) : Option Process :=
  (p.resolve path).map fun root => { p with root := root }

/-- `mkdir` of a name in the working directory. -/
def mkdir (name : List Char) (p : Process) : Option Process :=
  (p.fs.mkdir (p.cwd ++ [name])).map fun fs => { p with fs := fs }

/-- `ofstream::open` of a name in the working directory. -/
def openFile (name : List Char) (p : Process) : Option Process :=
  (p.fs.create (p.cwd ++ [name])).map fun fs => { p with fs := fs }

/-- `remove` of a name in the working directory. -/
def remove (name : List Char) (p : Process) : Option Process :=
  (p.fs.remove (p.cwd ++ [name])).map fun fs => { p with fs := fs }

/-- `mount`. -/
def mount (shared : Bool) (path : List Char) (p : Process) : Option Process :=
  (p.resolve path).bind fun target =>
    if shared then (p.fs.mount target).map fun fs => { p with fs := fs } else some p

/-- `umount`. -/
def umount (path : List Char) (p : Process) : Option Process :=
  (p.resolve path).bind fun target => (p.fs.umount target).map fun fs => { p with fs := fs }

/-- `error_handler`. -/
def errorHandler (message : String) : Stop := .exit (systemError ++ message)

/-- A call whose failure makes the process exit. -/
def checked (env : Environment) (site : Site) (message : String)
    (op : Process → Option Process) : Call Process Stop :=
  fun p =>
    match if env.grants site then op p else none with
    | some p' => .ok p'
    | none => .error (errorHandler message)

/-- A call whose failure goes unnoticed. -/
def unchecked (env : Environment) (site : Site) (op : Process → Option Process) :
    Call Process Stop :=
  fun p => .ok ((if env.grants site then op p else none).getD p)

/-- `strcpy` to the buffer, which is undefined if the text and its terminator do not fit. -/
def strcpy (text : List Char) : Call Process Stop :=
  fun p => if text.length < bufferSize then .ok p else .error .undefined

/-! ## The functions -/

section functions

variable (env : Environment)

/-- Source: `container.cpp`, `releasing_all_resources` -/
def releasingAllResources (containerRootDirectory : List Char) : List (Call Process Stop) :=
  let pidsDirectory := containerRootDirectory ++ dir sys ++ dir fs ++ dir cgroup ++ dir pids
  [strcpy pidsDirectory,
    checked env .chdirRelease errorFileDirectory (chdir pidsDirectory),
    checked env .removeMax errorDelete (remove maxFile),
    checked env .removeRelease errorDelete (remove releaseFile),
    checked env .removeProcs errorDelete (remove procsFile),
    checked env .leavePids errorFileDirectory (chdir parentDir),
    checked env .removePids errorDelete (remove pids),
    checked env .leaveCgroup errorFileDirectory (chdir parentDir),
    checked env .removeCgroup errorDelete (remove cgroup),
    checked env .leaveFs errorFileDirectory (chdir parentDir),
    checked env .removeFs errorDelete (remove fs)]

/-- Source: `container.cpp`, `limiting_number_processes` -/
def limitingNumberProcesses : List (Call Process Stop) :=
  let sysDirectory := dir sys
  let fsDirectory := sysDirectory ++ dir fs
  let cgroupDirectory := fsDirectory ++ dir cgroup
  let pidsDirectory := cgroupDirectory ++ dir pids
  [checked env .chdirSys errorFileDirectory (chdir sysDirectory),
    checked env .mkdirFs errorCreatingNewDirectory (mkdir fs),
    checked env .chdirFs errorFileDirectory (chdir fsDirectory),
    checked env .mkdirCgroup errorCreatingNewDirectory (mkdir cgroup),
    checked env .chdirCgroup errorFileDirectory (chdir cgroupDirectory),
    checked env .mkdirPids errorCreatingNewDirectory (mkdir pids),
    checked env .chdirPids errorFileDirectory (chdir pidsDirectory),
    unchecked env .openProcs (openFile procsFile),
    unchecked env .openRelease (openFile releaseFile),
    unchecked env .openMax (openFile maxFile)]

/-- What becomes of the process is up to the program. Source: `container.cpp`, `run_program` -/
def runProgram : List (Call Process Stop) :=
  [checked env .execvp errorRunningNewProgram fun p => some { p with fs := env.program p.fs }]

/-- Source: `container.cpp`, `create_container` -/
def createContainer (rootDirectory : List Char) : List (Call Process Stop) :=
  [checked env .sethostname errorName some,
    checked env .chdirRoot errorFileDirectory (chdir rootDirectory),
    checked env .chroot errorRootDirectory (chroot rootDirectory)] ++
  limitingNumberProcesses env ++
  [checked env .mount errorMount (mount env.shared (dir proc))] ++
  (List.finRange 4).map (fun round =>
    checked env (.chdirUp round) errorFileDirectory (chdir parentDir)) ++
  runProgram env

/-- Source: `container.cpp`, `umount_container` -/
def umountContainer (rootDirectory : List Char) : List (Call Process Stop) :=
  [checked env .umount errorUmount (umount (rootDirectory ++ dir proc))]

/-- `wait`, which fails if there is no child. Source: `container.cpp`, `main` -/
def waitChild : Call Process Stop :=
  checked env .wait errorWait fun p => if env.grants .clone then some p else none

/-- How the two processes have ended: what they have left, and why if their code had not ended. -/
structure Ended where
  /-- The child. -/
  child : Process × Option Stop
  /-- The parent. -/
  parent : Process × Option Stop

/-- A run of the program with enough arguments. Source: `container.cpp`, `main` -/
def main (rootDirectory : List Char) (cwd : List (List Char)) (fs : Filesystem (List Char)) :
    Ended :=
  let start : Process := { fs := fs, cwd := cwd, root := [] }
  let child :=
    if env.grants .clone then runCalls (createContainer env rootDirectory) start
    else (start, some .unborn)
  { child := child
    -- a parent that does not wait exits with that call, so that what the child leaves is left
    parent := runCalls
      (waitChild env :: (umountContainer env rootDirectory ++
        releasingAllResources env rootDirectory))
      { start with fs := child.1.fs } }

end functions

end CoreOS.Container
