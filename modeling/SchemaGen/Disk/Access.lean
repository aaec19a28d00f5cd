import SchemaGen.Disk.Basic
import SchemaGen.Fault
import SchemaGen.NameMap

/-!
# Access to a disk

A path is walked step by step. Every step but the last has to lead to a directory, `..` leads to the
directory around, and a slash at the end asks for a directory.
-/

namespace SchemaGen.Disk

/-- Where steps lead from a directory, and what stands there. -/
def walk (d : Disk) (loc : Location) : List String → Except IoKind (Location × Option Entry)
  | [] => .ok (loc, some .directory)
  | step :: rest =>
    if step = "." then walk d loc rest
    else if step = ".." then walk d loc.dropLast rest
    else if rest = [] then .ok (loc ++ [step], d.get? (loc ++ [step]))
    else match d.get? (loc ++ [step]) with
      | some .directory => walk d (loc ++ [step]) rest
      | some (.file _ _) => .error .notADirectory
      | none => .error .notFound

/-- Where a path leads, and what stands there. -/
def find (d : Disk) (p : Path) : Except IoKind (Location × Option Entry) :=
  if p.isEmpty then .error .notFound
  else d.walk (if p.isAbsolute then [] else d.cwd) p.steps

/-- What stands where a path leads. -/
def entry (d : Disk) (p : Path) : Except IoKind (Location × Entry) :=
  match d.find p with
  | .ok (loc, some e) => if e.isFile && p.endsInSlash then .error .notADirectory else .ok (loc, e)
  | .ok (_, none) => .error .notFound
  | .error kind => .error kind

/-- Whether a path leads to a directory. -/
def isDirectory (d : Disk) (p : Path) : Bool :=
  match d.entry p with
  | .ok (_, e) => e.isDirectory
  | .error _ => false

/-- Whether a path leads to a file. -/
def isFile (d : Disk) (p : Path) : Bool :=
  match d.entry p with
  | .ok (_, e) => e.isFile
  | .error _ => false

/-- The contents of a file, and the time of its last change. -/
def read (d : Disk) (p : Path) : Except IoKind (ByteArray × Int) :=
  match d.entry p with
  | .ok (_, .file contents modified) => .ok (contents, modified)
  | .ok (_, .directory) => .error .isADirectory
  | .error kind => .error kind

/-- The names in a directory, in order, each with what stands there. -/
def list (d : Disk) (p : Path) : Except IoKind (NameMap Entry) :=
  match d.entry p with
  | .ok (loc, .directory) => .ok (NameMap.ofList (d.children loc))
  | .ok (_, .file _ _) => .error .notADirectory
  | .error kind => .error kind

/-- Writes a file, in place of what it held before. -/
def write (d : Disk) (p : Path) (contents : ByteArray) : Except IoKind Disk :=
  match d.find p with
  | .ok (_, some .directory) => .error .isADirectory
  | .ok (loc, some (.file _ _)) =>
    if p.endsInSlash then .error .notADirectory else .ok (d.put loc (.file contents d.clock))
  | .ok (loc, none) =>
    if p.endsInSlash then .error .isADirectory else .ok (d.put loc (.file contents d.clock))
  | .error kind => .error kind

/-- Removes a file. -/
def removeFile (d : Disk) (p : Path) : Except IoKind Disk :=
  match d.entry p with
  | .ok (loc, .file _ _) => .ok (d.erase loc)
  | .ok (_, .directory) => .error .isADirectory
  | .error kind => .error kind

/-- Removes a file, or a directory with all that it holds. -/
def remove (d : Disk) (p : Path) : Except IoKind Disk :=
  match d.entry p with
  | .ok (loc, _) => .ok (d.eraseTree loc)
  | .error kind => .error kind

/-- Makes a directory in a directory that is there. -/
def makeDirectory (d : Disk) (p : Path) : Except IoKind Disk :=
  match d.find p with
  | .ok (_, some _) => .error .alreadyExists
  | .ok (loc, none) => .ok (d.put loc .directory)
  | .error kind => .error kind

/-- Makes a directory unless it is there. -/
def ensureDirectory (d : Disk) (p : Path) : Except IoKind Disk :=
  match d.makeDirectory p with
  | .ok d' => .ok d'
  | .error kind => if d.isDirectory p then .ok d else .error kind

/-- Makes a directory and those around it that are not there, for a path of at most so many
components; what has been made stays in case of a fault. -/
def makeDirectoriesFrom : Nat → Path → Disk → Except IoKind Unit × Disk
  | 0, _, d => (.ok (), d)
  | depth + 1, p, d =>
    if p.isEmpty then (.ok (), d)
    else match d.makeDirectory p with
      | .ok d' => (.ok (), d')
      | .error .notFound =>
        match makeDirectoriesFrom depth (p.parent?.getD ⟨""⟩) d with
        | (.ok (), d₁) =>
          match d₁.ensureDirectory p with
          | .ok d₂ => (.ok (), d₂)
          | .error kind => (.error kind, d₁)
        | (.error kind, d₁) => (.error kind, d₁)
      | .error kind => if d.isDirectory p then (.ok (), d) else (.error kind, d)

/-- Makes a directory and those around it that are not there. -/
def makeDirectories (d : Disk) (p : Path) : Except IoKind Unit × Disk :=
  makeDirectoriesFrom (p.components.length + 1) p d

end SchemaGen.Disk
