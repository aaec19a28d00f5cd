import SchemaGen.Program.Command

/-!
# The program on the real disk

What the program may read is observed first, the program is carried out on what was observed, and then
the changes are made to the real disk.
-/

namespace SchemaGen.Program

/-- The variables that set something, as they are usually spelled. -/
def variableNames : List String :=
  Configuration.epochVariable ::
    (["SCHEMA_DIR", "ENUMS_FILE", "RUST_DIR", "TYPESCRIPT_DIR", "GRAPHQL_DIR", "INFRA_DIR", "API_NAME",
      "GENERATE_DOCS", "SOURCE_DATE_EPOCH"].map fun name => "TESSERA__CODEGEN__" ++ name) ++
    (["LEVEL", "JSON", "FILE_ENABLED", "FILE_DIRECTORY", "FILE_NAME"].map fun name =>
      "TESSERA__LOGGING__" ++ name)

/-- The variables of the environment that set something. -/
def readEnvironment : IO Environment :=
  variableNames.filterMapM fun name => do return (← IO.getEnv name).map fun value => (name, value)

/-- A location as the system writes it. -/
def locationText (loc : Location) : String := "/" ++ "/".intercalate loc

/-- What stands at a location of the real disk. -/
def observeEntry (loc : Location) : IO (Option Entry) := do
  let place := (← IO.currentDir) / locationText loc
  if ← place.isDir then return some .directory
  if ← place.pathExists then
    return some (.file (← IO.FS.readBinFile place) (← place.metadata).modified.sec)
  return none

/-- The disk with what stands at a location of the real one. -/
def observeAt (d : Disk) (loc : Location) : IO Disk := do
  match ← observeEntry loc with
  | some e => return d.put loc e
  | none => return d

/-- The disk with what stands along a path of the real one and directly below it. -/
def observe (d : Disk) (p : Path) : IO Disk := do
  let start := if p.isAbsolute then [] else d.cwd
  let mut d := d
  let mut loc := start
  for step in p.components do
    loc := Location.follow loc step
    d ← observeAt d loc
  if (d.get? loc).any Entry.isDirectory then
    for entry in ← ((← IO.currentDir) / locationText loc).readDir do
      d ← observeAt d (loc ++ [entry.fileName])
  return d

/-- The paths where settings files may stand. -/
def settingsPaths (args : List String) : List Path :=
  match Request.read? args with
  | some (.run asked _) =>
    let p := asked.getD Configuration.defaultFile
    p :: (Configuration.withExtension? p).toList
  | _ => []

/-- The paths that a run with a configuration may read or change. -/
def runPaths (c : Configuration) : List Path :=
  [c.run.schemaDir, c.run.enumsFile, c.logging.directory, c.logging.file] ++ c.run.managedDirs

/-- What the program may read of the real disk. -/
def observeAll (args : List String) (env : Environment) : IO Disk := do
  let cwd := ((← IO.currentDir).toString.splitOn "/").filter (! ·.isEmpty)
  let d ← (settingsPaths args).foldlM observe (Disk.fresh cwd)
  match Request.read? args with
  | some (.run asked _) =>
    match configuration asked env d with
    | .ok c => (runPaths c).foldlM observe d
    | .error _ => return d
  | _ => return d

/-- Makes one change to the real disk. -/
def commitAt (before after : Disk) (loc : Location) : IO Unit := do
  let place := (← IO.currentDir) / locationText loc
  match before.get? loc, after.get? loc with
  | none, some .directory => IO.FS.createDirAll place
  | none, some (.file contents _) => IO.FS.writeBinFile place contents
  | some (.file old _), some (.file new _) => if old == new then return () else IO.FS.writeBinFile place new
  | some (.file _ _), none => IO.FS.removeFile place
  | _, _ => return ()

/-- Makes the changes from one disk to another, those further out first. -/
def commitAll (before after : Disk) : IO Unit := do
  let locations := (before.entries ++ after.entries).map Prod.fst
  for loc in locations.eraseDups.mergeSort fun a b => a.length ≤ b.length do
    commitAt before after loc

/-- The program on the real disk. -/
def program (args : List String) : IO UInt32 := do
  let env ← readEnvironment
  let disk ← observeAll args env
  let outcome := execute args env disk
  commitAll disk outcome.disk
  unless outcome.message.isEmpty do
    if outcome.status = .success then IO.println outcome.message else IO.eprintln outcome.message
  return outcome.status.code.toUInt32

end SchemaGen.Program

/-- The program. -/
def main (args : List String) : IO UInt32 := SchemaGen.Program.program args
