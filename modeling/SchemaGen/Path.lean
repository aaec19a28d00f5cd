import SchemaGen.Text.Lines

/-!
# Paths

A path is kept as it was written and compared by its components: repeated slashes, inner `.`
segments and a slash at the end do not count, a leading `.` does, and `..` is never folded.

A location is where a path leads: the names below the root, with `.` and `..` folded by their
spelling. `Location.relative` is the shortest way from one location to another.

Results:
1. `Location.ofSteps_append`: a path is followed step by step.
2. `Location.resolve_relative`: the way between two locations leads from the first to the second.
-/

namespace SchemaGen

/-- A path as it was written, with `/` between its segments. -/
structure Path where
  text : String
  deriving DecidableEq, Repr

/-- One component of a path. -/
inductive Component where
  | root
  | current
  | parent
  | name (text : String)
  deriving DecidableEq, Repr

/-- The names from the root down to a file or directory. -/
abbrev Location := List String

namespace Path

/-- Whether the path starts at the root. -/
def isAbsolute (p : Path) : Bool := p.text.toList.head? == some '/'

/-- Whether a slash ends the path. -/
def endsInSlash (p : Path) : Bool := p.text.toList.getLast? == some '/'

/-- Whether nothing is written. -/
def isEmpty (p : Path) : Bool := p.text.isEmpty

/-- The segments that are not empty, `.` and `..` among them. -/
def steps (p : Path) : List String :=
  ((Text.splitAt '/' p.text.toList).filter fun s => !s.isEmpty).map String.ofList

/-- The component that a segment stands for, unless it is a `.` that does not count. -/
def component? (step : String) : Option Component :=
  if step = "." then none
  else if step = ".." then some .parent
  else some (.name step)

/-- The components by which paths are compared. -/
def components (p : Path) : List Component :=
  if p.isAbsolute then .root :: p.steps.filterMap component?
  else match p.steps with
    | "." :: rest => .current :: rest.filterMap component?
    | all => all.filterMap component?

/-- Whether two paths have the same components. -/
def same (p q : Path) : Bool := p.components == q.components

/-- Whether the components of `p` begin with those of `q`. -/
def startsWith (p q : Path) : Bool := q.components.isPrefixOf p.components

/-- The path `p` with `rest` below it; an absolute `rest` stands alone. -/
def join (p rest : Path) : Path :=
  if rest.isAbsolute then rest
  else if p.isEmpty || p.endsInSlash then ⟨p.text ++ rest.text⟩
  else ⟨p.text ++ "/" ++ rest.text⟩

/-- The path of a file in the directory `p`. -/
def child (p : Path) (name : String) : Path := p.join ⟨name⟩

/-- A component as it is written between slashes. -/
def segment : Component → String
  | .root => ""
  | .current => "."
  | .parent => ".."
  | .name s => s

/-- The path of some components. -/
def ofComponents : List Component → Path
  | .root :: rest => ⟨"/" ++ "/".intercalate (rest.map segment)⟩
  | all => ⟨"/".intercalate (all.map segment)⟩

/-- The path without its last component, if it has one below the root. -/
def parent? (p : Path) : Option Path :=
  match p.components with
  | [] => none
  | [.root] => none
  | all => some (ofComponents all.dropLast)

/-- The name that the path ends with; a path that ends with `..` or is the root has none. -/
def fileName? (p : Path) : Option String :=
  match p.components.getLast? with
  | some (.name s) => some s
  | _ => none

/-- The part of a name before its last dot, and the part after it. A dot that starts the name does
not count. -/
def splitName (name : List Char) : List Char × Option (List Char) :=
  match (Text.splitAt '.' name.reverse) with
  | [] => (name, none)
  | [_] => (name, none)
  | last :: _ =>
    let before := name.take (name.length - last.length - 1)
    if before.isEmpty then (name, none) else (before, some last.reverse)

/-- The file name, or nothing. -/
def fileName (p : Path) : String := p.fileName?.getD ""

/-- The file name without its extension. -/
def stem (p : Path) : String := String.ofList (splitName p.fileName.toList).1

/-- The extension of the file name, without the dot. -/
def extension? (p : Path) : Option String := (splitName p.fileName.toList).2.map String.ofList

end Path

namespace Location

/-- One step from a location; above the root there is only the root. -/
def follow (loc : Location) : Component → Location
  | .root => []
  | .current => loc
  | .parent => loc.dropLast
  | .name s => loc ++ [s]

/-- Where steps lead from a location. -/
def ofSteps (start : Location) (steps : List Component) : Location := steps.foldl follow start

/-- Where a path leads, read from the working directory `cwd`. -/
def resolve (cwd : Location) (p : Path) : Location := ofSteps cwd p.components

/-- How many names two locations share from the root on. -/
def common : Location → Location → Nat
  | a :: as, b :: bs => if a = b then common as bs + 1 else 0
  | _, _ => 0

/-- The steps from `source` to `target`: up to where they part, then down. -/
def relative (source target : Location) : List Component :=
  List.replicate (source.length - common source target) .parent ++
    (target.drop (common source target)).map .name

theorem ofSteps_append (start : Location) (xs ys : List Component) :
    ofSteps start (xs ++ ys) = ofSteps (ofSteps start xs) ys := by
  simp [ofSteps, List.foldl_append]

theorem ofSteps_names (start names : Location) :
    ofSteps start (names.map .name) = start ++ names := by
  induction names generalizing start with
  | nil => simp [ofSteps]
  | cons n rest ih =>
    have := ih (start ++ [n])
    simpa [ofSteps, follow] using this

theorem ofSteps_parents (start : Location) (n : Nat) :
    ofSteps start (List.replicate n .parent) = start.take (start.length - n) := by
  induction n generalizing start with
  | zero => simp [ofSteps]
  | succ k ih =>
    have := ih start.dropLast
    simp only [ofSteps, List.replicate_succ, List.foldl_cons, follow] at *
    rw [this, List.length_dropLast, List.dropLast_eq_take, List.take_take]
    congr 1
    omega

theorem take_common (a b : Location) : a.take (common a b) = b.take (common a b) := by
  induction a generalizing b with
  | nil => simp [common]
  | cons x xs ih =>
    cases b with
    | nil => simp [common]
    | cons y ys =>
      by_cases h : x = y
      · simp [common, h, ih]
      · simp [common, h]

theorem common_le_length (a b : Location) : common a b ≤ a.length := by
  induction a generalizing b with
  | nil => simp [common]
  | cons x xs ih =>
    cases b with
    | nil => simp [common]
    | cons y ys =>
      by_cases h : x = y
      · simpa [common, h] using ih ys
      · simp [common, h]

theorem resolve_relative (source target : Location) :
    ofSteps source (relative source target) = target := by
  have hle := common_le_length source target
  rw [relative, ofSteps_append, ofSteps_parents, ofSteps_names,
    show source.length - (source.length - common source target) = common source target by omega,
    take_common, List.take_append_drop]

end Location

/-- The way from one path to another, both read from the working directory `cwd`. -/
def Path.relative (cwd : Location) (source target : Path) : String :=
  (Path.ofComponents (Location.relative (Location.resolve cwd source) (Location.resolve cwd target))).text

end SchemaGen
