import SchemaGen.Disk.Access
import SchemaGen.Program.Layer
import SchemaGen.Run.Settings
import SchemaGen.Text.Blank
import SchemaGen.Text.Lines
import SchemaGen.Toml.Reading

/-!
# Configuration of the program

The settings of a run and of the log. They are laid in layers: the defaults, the settings file, and the
variables of the environment. The default settings file may be
absent or no text, one that is asked for may not.
-/

namespace SchemaGen.Program

/-- The settings of the log. -/
structure Logging where
  level : String
  /-- Whether entries are JSON documents. -/
  json : Bool
  /-- Whether a log file is written. -/
  toFile : Bool
  directory : Path
  fileName : String
  deriving DecidableEq, Repr

/-- The settings of the log where nothing is set. -/
def Logging.default : Logging := ⟨"info", false, true, ⟨"."⟩, "tessera.log"⟩

/-- The file that the log goes to. -/
def Logging.file (l : Logging) : Path := l.directory.child l.fileName

/-- The settings of the program. -/
structure Configuration where
  run : Settings
  logging : Logging
  deriving DecidableEq, Repr

/-- The variables of the environment, by name. -/
abbrev Environment := List (String × String)

/-- Why there is no configuration. -/
inductive LoadFault where
  /-- The settings file is not there, or is no settings file. -/
  | unreadable (file : Path)
  /-- A value cannot serve as what is asked for. -/
  | unfit
  /-- The variable for the time of generation is no number. -/
  | epoch (value : String)
  deriving DecidableEq, Repr

/-- The fault in words. -/
def LoadFault.message : LoadFault → String
  | unreadable file => "reading configuration from " ++ file.text
  | unfit => "deserializing configuration"
  | epoch value => s!"SOURCE_DATE_EPOCH `{value}` is not a number of seconds"

/-- Why a configuration is refused. -/
inductive Refusal where
  | run (fault : ConfigFault)
  | blankLogName
  deriving DecidableEq, Repr

/-- The refusal in words. -/
def Refusal.message : Refusal → String
  | run fault => fault.message
  | blankLogName => "logging.file_name must not be empty when file logging is enabled"

/-- The settings of a run that a value holds; what is not set is as in `given`. -/
def readRun (given : Settings) (s : Setting) : Option Settings := do
  if s.isRecord then
    return {
      schemaDir := ← s.pathField 0 "schema_dir" given.schemaDir
      enumsFile := ← s.pathField 1 "enums_file" given.enumsFile
      rustDir := ← s.pathField 2 "rust_dir" given.rustDir
      typescriptDir := ← s.pathField 3 "typescript_dir" given.typescriptDir
      graphqlDir := ← s.pathField 4 "graphql_dir" given.graphqlDir
      infraDir := ← s.pathField 5 "infra_dir" given.infraDir
      apiName := ← s.fieldAs 6 "api_name" Setting.asText? given.apiName
      docs := ← s.fieldAs 7 "generate_docs" Setting.asBool? given.docs
      epoch := ← s.fieldAs 8 "source_date_epoch" (Setting.optional Setting.asInt?) given.epoch }
  else none

/-- The settings of the log that a value holds; what is not set is as in `given`. -/
def readLogging (given : Logging) (s : Setting) : Option Logging := do
  if s.isRecord then
    return {
      level := ← s.fieldAs 0 "level" Setting.asText? given.level
      json := ← s.fieldAs 1 "json" Setting.asBool? given.json
      toFile := ← s.fieldAs 2 "file_enabled" Setting.asBool? given.toFile
      directory := ← s.pathField 3 "file_directory" given.directory
      fileName := ← s.fieldAs 4 "file_name" Setting.asText? given.fileName }
  else none

namespace Configuration

/-- The configuration where nothing is set. -/
def default : Configuration := ⟨Settings.default, Logging.default⟩

/-- The configuration that layers hold. -/
def ofLayer (l : Layer) : Option Configuration := do
  let s : Setting := .table l
  return ⟨← s.fieldAs 0 "codegen" (readRun Settings.default) Settings.default,
    ← s.fieldAs 1 "logging" (readLogging Logging.default) Logging.default⟩

/-- The default settings file. -/
def defaultFile : Path := ⟨"tessera.toml"⟩

/-- What stands between the names in a variable. -/
def separator : String := "__"

/-- What the names of variables start with, in lower case. -/
def variableStart : List Char := ("tessera" ++ separator).toList

/-- The path of the setting that a variable sets. -/
def settingPath? (name : String) : Option String :=
  let name := (lower name).toList
  if variableStart.isPrefixOf name then
    some (Text.replaceAll separator "." (String.ofList (name.drop variableStart.length)))
  else none

/-- The layer of the environment. -/
def ofEnvironment (env : Environment) : Layer :=
  env.filterMap fun v => (settingPath? v.1).map fun path => (path, Setting.ofVariable v.2)

/-- The same path with one more extension. -/
def withExtension? (p : Path) : Option Path :=
  p.fileName?.map fun name => (p.parent?.getD ⟨""⟩).child (name ++ ".toml")

/-- The settings file that a path stands for: the file itself if its name says that it is one, or else,
if there is no such file, the file whose name says so with one more extension. -/
def file? (d : Disk) (p : Path) : Option Path :=
  if d.isFile p then if p.extension? = some "toml" then some p else none
  else match withExtension? p with
    | some q => if d.isFile q then some q else none
    | none => none

/-- The text of the settings file that a path stands for. -/
def fileText? (d : Disk) (p : Path) : Option String := do
  match d.read (← file? d p) with
  | .ok (contents, _) => String.fromUTF8? contents
  | .error _ => none

/-- The layer that the text of a settings file holds. -/
def ofFileText? (text : String) : Option Layer := do
  match Setting.ofTomlTable? (← Toml.read? text) with
  | some (.table entries) => some entries
  | _ => none

/-- The layer of the settings file, which is asked for or the default one. -/
def fileLayer (d : Disk) (asked : Option Path) : Except LoadFault Layer :=
  let p := asked.getD defaultFile
  match fileText? d p with
  | some text =>
    match ofFileText? text with
    | some l => .ok l
    | none => .error (.unreadable p)
  | none => if asked.isSome then .error (.unreadable p) else .ok []

/-- The variable that holds the time of generation where nothing else sets it. -/
def epochVariable : String := "SOURCE_DATE_EPOCH"

/-- The time of generation that the environment holds. -/
def epochOf (env : Environment) : Except LoadFault (Option Int) :=
  match env.lookup epochVariable with
  | none => .ok none
  | some value =>
    match Setting.word? (Text.trim value) with
    | some seconds => .ok (some seconds)
    | none => .error (.epoch value)

/-- The configuration with the time of generation of the environment, if it has none. -/
def withEpoch (env : Environment) (c : Configuration) : Except LoadFault Configuration :=
  if c.run.epoch.isSome then .ok c
  else (epochOf env).map fun epoch => { c with run := { c.run with epoch } }

/-- Loads the configuration. -/
def load (asked : Option Path) (env : Environment) (d : Disk) : Except LoadFault Configuration := do
  let layer ← fileLayer d asked
  match ofLayer ((Layer.overlay [] layer).overlay (ofEnvironment env)) with
  | some c => withEpoch env c
  | none => .error .unfit

/-- Refuses a configuration that the program cannot work with. -/
def validate (c : Configuration) : Except Refusal Unit :=
  match c.run.validate with
  | .error fault => .error (.run fault)
  | .ok () => if c.logging.toFile && Text.isBlankText c.logging.fileName then .error .blankLogName else .ok ()

end Configuration

end SchemaGen.Program
