import SchemaGen.Calendar
import SchemaGen.Disk.Managed
import SchemaGen.Run.Loading
import SchemaGen.Run.Settings
import SchemaGen.Target.Generate

/-!
# A run

Everything is worked out before anything changes: the settings are checked, the documents are loaded
and become a catalog, and every target is rendered. Only then are the managed directories brought to
hold what was rendered, or compared with it.
-/

namespace SchemaGen

/-- Whether a run writes, or only says what it would write. -/
inductive Mode where
  | write | check
  deriving DecidableEq, Repr

/-- What a run did, or would do. -/
structure Summary where
  entities : Nat
  enums : Nat
  written : List Path
  unchanged : Nat
  removed : List Path
  dangling : List DanglingReference
  deriving DecidableEq, Repr

/-- Whether there was nothing to do. -/
def Summary.isUpToDate (s : Summary) : Bool := s.written.isEmpty && s.removed.isEmpty

/-- A rendered target and the directory of its files. -/
structure StagedTarget where
  dir : Path
  files : Files
  deriving DecidableEq, Repr

/-- The catalog of a run and its rendered targets. -/
structure Staged where
  catalog : Catalog
  targets : List StagedTarget
  deriving DecidableEq, Repr

namespace Run

/-- When the schema counts as generated: the set time, or the newest change of a document. -/
def generatedAt (epoch newest : Option Int) : Except ConfigFault Int :=
  match epoch with
  | some seconds =>
    if Calendar.isInRange seconds then .ok seconds else .error (.epochOutOfRange seconds)
  | none => .ok (newest.getD 0)

/-- Renders targets in order, with one registry. -/
def renderAll (s : Settings) (o : Options) (c : Catalog) : List Target → Registry → Except RenderFault (List StagedTarget)
  | [], _ => .ok []
  | t :: rest, r =>
    match t.render o c r with
    | (.ok files, r') => (renderAll s o c rest r').map fun more => ⟨s.outputDir t, files⟩ :: more
    | (.error fault, _) => .error fault

/-- The options of a run that reads from `cwd`. -/
def options (s : Settings) (cwd : Location) (generatedAt : Int) : Options :=
  ⟨s.docs, s.apiName, generatedAt,
    Path.relative cwd s.infraDir (s.graphqlDir.child ApiSchema.schemaFile)⟩

/-- Works out what a run writes. -/
def stage (s : Settings) (d : Disk) : Except Fault Staged := do
  s.validate.mapError Fault.config
  let loaded ← d.load s.schemaDir s.enumsFile
  let catalog ← loaded.corpus.catalog.mapError Fault.schema
  let generatedAt ← (generatedAt s.epoch loaded.newest).mapError Fault.config
  let targets ← (renderAll s (options s d.cwd generatedAt) catalog Target.all .empty).mapError Fault.render
  return ⟨catalog, targets⟩

/-- Removes the stale files of every target. -/
def reconcileAll : List StagedTarget → Action (List Path)
  | [] => return []
  | t :: rest => do
    let removed ← Action.reconcile t.dir t.files.names
    return removed ++ (← reconcileAll rest)

/-- Writes the files of every target. -/
def writeAll : List StagedTarget → Action WriteReport
  | [] => return ⟨[], 0⟩
  | t :: rest => do
    let report ← Action.writeFiles t.dir t.files
    let more ← writeAll rest
    return ⟨report.written ++ more.written, report.unchanged + more.unchanged⟩

/-- What would be removed and written for every target. -/
def compareAll (d : Disk) : List StagedTarget → Except Fault (List Path × WriteReport)
  | [] => .ok ([], ⟨[], 0⟩)
  | t :: rest => do
    let stale := d.stale t.dir t.files.names
    let changed ← d.changedFiles t.dir t.files
    let (removed, report) ← compareAll d rest
    return (stale ++ removed,
      ⟨changed ++ report.written, (t.files.size - changed.length) + report.unchanged⟩)

/-- What was removed and written, as a summary. -/
def summary (c : Catalog) (removed : List Path) (report : WriteReport) : Summary :=
  ⟨c.entities.size, c.enums.size, report.written, report.unchanged, removed, c.dangling⟩

/-- Brings the managed directories to hold what was rendered. -/
def commit (staged : Staged) : Action Summary := do
  let removed ← reconcileAll staged.targets
  let report ← writeAll staged.targets
  return summary staged.catalog removed report

/-- Compares the managed directories with what was rendered. -/
def compare (staged : Staged) : Action Summary := do
  let (removed, report) ← Action.reads fun d => compareAll d staged.targets
  return summary staged.catalog removed report

end Run

/-- A run with those settings. -/
def run (s : Settings) (mode : Mode) : Action Summary := do
  let staged ← Action.reads (Run.stage s)
  match mode with
  | .write => Run.commit staged
  | .check => Run.compare staged

end SchemaGen
