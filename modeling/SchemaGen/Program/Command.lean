import SchemaGen.Program.Arguments
import SchemaGen.Program.Configuration

/-!
# The program

The program reads its arguments, loads and checks its configuration, starts the log file and runs. How
it ends is told by its status. Nothing on the disk changes before the configuration has been checked.
-/

namespace SchemaGen.Program

/-- How the program ends. -/
inductive Status where
  | success
  /-- The run failed, or a check found something to do. -/
  | failure
  /-- The arguments were not understood. -/
  | misuse
  /-- The log file cannot be opened. -/
  | aborted
  deriving DecidableEq, Repr

/-- The status as a number. -/
def Status.code : Status → Nat
  | success => 0
  | failure => 1
  | misuse => 2
  | aborted => 101

/-- How the program ended, the disk it left, and what it says. -/
structure Outcome where
  status : Status
  disk : Disk
  message : String

/-- Why a run ended, in words. -/
def faultMessage : Fault → String
  | .schema fault => fault.message
  | .render fault => fault.message
  | .io path _ => "I/O error at " ++ path.text
  | .config fault => fault.message

/-- How the program is called. -/
def usage : String := "Usage: tessera [--config <CONFIG>] [--check]"

/-- The name and version of the program. -/
def versionLine : String := "tessera 0.1.0"

/-- Opens a log file: an existing one is kept, else an empty one is made. -/
def openLog (d : Disk) (p : Path) : Except IoKind Disk :=
  if d.isFile p then .ok d else d.write p .empty

/-- Opens a log file, if need be after the directories around it have been made; and whether that
succeeded. -/
def createLog (d : Disk) (p : Path) : Bool × Disk :=
  match openLog d p, p.parent? with
  | .ok d₁, _ => (true, d₁)
  | .error _, none => (false, d)
  | .error _, some parent =>
    match d.makeDirectories parent with
    | (.error _, d₁) => (false, d₁)
    | (.ok (), d₁) =>
      match openLog d₁ p with
      | .ok d₂ => (true, d₂)
      | .error _ => (false, d₁)

/-- Starts the log; the status is that of a program that cannot. -/
def startLog (l : Logging) (d : Disk) : Option Status × Disk :=
  if l.toFile then
    match d.makeDirectories l.directory with
    | (.error _, d₁) => (some .failure, d₁)
    | (.ok (), d₁) =>
      match createLog d₁ l.file with
      | (true, d₂) => (none, d₂)
      | (false, d₂) => (some .aborted, d₂)
  else (none, d)

/-- The status after a run. -/
def statusOf (mode : Mode) (s : Summary) : Status :=
  match mode with
  | .write => .success
  | .check => if s.isUpToDate then .success else .failure

/-- Runs with a checked configuration. -/
def executeRun (c : Configuration) (mode : Mode) (d : Disk) : Outcome :=
  match startLog c.logging d with
  | (some status, d₁) => ⟨status, d₁, "Error: failed to initialize logging"⟩
  | (none, d₁) =>
    match run c.run mode d₁ with
    | (.ok summary, d₂) => ⟨statusOf mode summary, d₂, ""⟩
    | (.error fault, d₂) => ⟨.failure, d₂, "Generation failed: " ++ faultMessage fault⟩

/-- What the program says when it has no configuration to run with. -/
def configurationMessage (reason : String) : String :=
  "Error: Failed to load configuration: " ++ reason

/-- The configuration that the program runs with, or why there is none. -/
def configuration (asked : Option Path) (env : Environment) (d : Disk) : Except String Configuration :=
  match Configuration.load asked env d with
  | .error fault => .error fault.message
  | .ok c =>
    match c.validate with
    | .error refusal => .error refusal.message
    | .ok () => .ok c

/-- The program. -/
def execute (args : List String) (env : Environment) (d : Disk) : Outcome :=
  match Request.read? args with
  | none => ⟨.misuse, d, usage⟩
  | some .help => ⟨.success, d, usage⟩
  | some .version => ⟨.success, d, versionLine⟩
  | some (.run asked mode) =>
    match configuration asked env d with
    | .error reason => ⟨.failure, d, configurationMessage reason⟩
    | .ok c => executeRun c mode d

end SchemaGen.Program
