import SchemaGen.Disk.Access
import SchemaGen.NameMap

/-!
# Managed directories

A managed directory holds exactly the files of one target. Files of other names directly inside it are
stale and are removed; directories inside it are left alone. A file that already holds what it should
is not written again.
-/

namespace SchemaGen

/-- An action on a disk: it may end with a fault, and leaves a disk in either case. -/
abbrev Action (α : Type) := ExceptT Fault (StateM Disk) α

namespace Action

/-- Reads from the disk. -/
def reads {α : Type} (f : Disk → Except Fault α) : Action α := fun d => (f d, d)

/-- Changes the disk at a path, or leaves it as it is. -/
def change (p : Path) (f : Disk → Except IoKind Disk) : Action Unit := fun d =>
  match f d with
  | .ok d' => (.ok (), d')
  | .error kind => (.error (.io p kind), d)

end Action

/-- The files of a target that were written, and how many already held what they should. -/
structure WriteReport where
  written : List Path
  unchanged : Nat
  deriving DecidableEq, Repr

namespace Disk

/-- The stale files of a managed directory, in name order. -/
def stale (d : Disk) (dir : Path) (expected : List String) : List Path :=
  if d.isDirectory dir then
    match d.list dir with
    | .ok entries =>
      (entries.pairs.filter fun e => e.2.isFile && !expected.contains e.1).map fun e => dir.child e.1
    | .error _ => []
  else []

/-- Whether a file holds a text; a file that is not there does not. -/
def isCurrent (d : Disk) (p : Path) (text : String) : Except Fault Bool :=
  match d.read p with
  | .ok (contents, _) => .ok (contents == text.toUTF8)
  | .error .notFound => .ok false
  | .error kind => .error (.io p kind)

/-- The files among `files` that do not hold their text. -/
def changed (d : Disk) (dir : Path) : List (String × String) → Except Fault (List Path)
  | [] => .ok []
  | (name, text) :: rest => do
    let current ← d.isCurrent (dir.child name) text
    let more ← changed d dir rest
    return if current then more else dir.child name :: more

/-- The files of a target that do not hold their text. -/
def changedFiles (d : Disk) (dir : Path) (files : NameMap String) : Except Fault (List Path) :=
  d.changed dir files.pairs

end Disk

namespace Action

/-- Removes files. -/
def removeAll : List Path → Action Unit
  | [] => return ()
  | p :: rest => do
    change p fun d => d.removeFile p
    removeAll rest

/-- Removes the stale files of a managed directory and says which they were. -/
def reconcile (dir : Path) (expected : List String) : Action (List Path) := do
  let stale ← reads fun d => .ok (d.stale dir expected)
  removeAll stale
  return stale

/-- Makes a directory and those around it. -/
def makeDirectories (p : Path) : Action Unit := fun d =>
  match d.makeDirectories p with
  | (.ok (), d') => (.ok (), d')
  | (.error kind, d') => (.error (.io p kind), d')

/-- Writes files that do not hold their text. -/
def writeAll (dir : Path) : List (String × String) → Action WriteReport
  | [] => return ⟨[], 0⟩
  | (name, text) :: rest => do
    let path := dir.child name
    if ← reads fun d => d.isCurrent path text then
      let report ← writeAll dir rest
      return { report with unchanged := report.unchanged + 1 }
    else
      change path fun d => d.write path text.toUTF8
      let report ← writeAll dir rest
      return { report with written := path :: report.written }

/-- Writes the files of a target to its directory, which is made if it is not there. -/
def writeFiles (dir : Path) (files : NameMap String) : Action WriteReport := do
  makeDirectories dir
  writeAll dir files.pairs

end Action

end SchemaGen
