import SchemaGen.Text.Visible
import SchemaGen.Violation

/-!
# Faults of a run

Besides a violated schema rule, a run ends with a fault when a target cannot be rendered, when a file
cannot be read or written, and when the configuration is refused.
-/

namespace SchemaGen

/-- The generated targets. -/
inductive Target where
  | rust | typescript | graphql | infra
  deriving DecidableEq, Repr

namespace Target

/-- Every target, in the order of a run. -/
def all : List Target := [.rust, .typescript, .graphql, .infra]

/-- The target as faults call it. -/
def label : Target → String
  | .rust => "Rust"
  | .typescript => "TypeScript"
  | .graphql => "GraphQl"
  | .infra => "Infra"

end Target

/-- Why a target cannot be rendered. -/
inductive RenderFault where
  | unknownFragment (entity fragment : String)
  /-- A key of a table names no attribute of it. -/
  | undeclaredKey (table attr : String)
  /-- The same, found while the table's storage is described. -/
  | undeclaredStorageKey (table attr : String)
  | noResolver (table operation : String)
  /-- Two files would be declared under one module name. -/
  | sharedModule (stem module first second : String)
  | noVariant (enum value : String)
  | sharedVariant (enum variant value : String)
  /-- An enum value that the API schema reserves. -/
  | reservedValue (enum value : String)
  /-- The rendered files are not those that the catalog implies. -/
  | otherFiles (target : Target) (missing unexpected : List String)
  deriving DecidableEq, Repr

namespace RenderFault

/-- A character inside a quoted name; one that does not show stands as its code point. -/
def quotedChar (c : Char) : List Char :=
  match c with
  | '"' => ['\\', '"']
  | '\\' => ['\\', '\\']
  | '\n' => ['\\', 'n']
  | '\r' => ['\\', 'r']
  | '\t' => ['\\', 't']
  | '\x00' => ['\\', '0']
  | c => if Text.shows c then [c] else ['\\', 'u', '\x7b'] ++ Nat.toDigits 16 c.toNat ++ ['\x7d']

/-- A name between quotes. -/
def quoted (s : String) : String :=
  "\"" ++ String.ofList (s.toList.flatMap quotedChar) ++ "\""

/-- Quoted names between brackets. -/
def quotedList (names : List String) : String := "[" ++ ", ".intercalate (names.map quoted) ++ "]"

/-- What the fault is reported for. -/
def entity : RenderFault → String
  | unknownFragment entity _ => entity
  | undeclaredKey table _ => table
  | undeclaredStorageKey table _ => table
  | noResolver table _ => table
  | sharedModule stem _ _ _ => stem
  | noVariant enum _ => enum
  | sharedVariant enum _ _ => enum
  | reservedValue enum _ => enum
  | otherFiles target _ _ => target.label ++ " target"

/-- The reason in words. -/
def reason : RenderFault → String
  | unknownFragment _ fragment => s!"unknown fragment `{fragment}`"
  | undeclaredKey _ attr => s!"key attribute `{attr}` is not declared on the table"
  | undeclaredStorageKey _ attr => s!"key attribute `{attr}` is not declared"
  | noResolver _ operation => s!"no resolver for operation `{operation}`"
  | sharedModule _ module first second =>
    s!"module `{module}` would be declared by both {first} and {second}"
  | noVariant _ value => s!"enum value `{value}` has no valid Rust variant name"
  | sharedVariant _ variant value => s!"enum values collide on Rust variant `{variant}` (from `{value}`)"
  | reservedValue _ value => s!"`{value}` is not a valid API schema enum value"
  | otherFiles _ missing unexpected =>
    "rendered files differ from expected: missing " ++ quotedList missing ++
      ", unexpected " ++ quotedList unexpected

/-- The fault in words. -/
def message (f : RenderFault) : String := "Rendering error for " ++ f.entity ++ ": " ++ f.reason

end RenderFault

/-- Why a file operation fails. -/
inductive IoKind where
  | notFound | notADirectory | isADirectory | alreadyExists | invalidData
  deriving DecidableEq, Repr

/-- Why a configuration is refused. -/
inductive ConfigFault where
  | blankApiName
  | emptySchemaDir
  /-- The enum catalog would be read as one more schema document. -/
  | enumsInSchemaDir (enums schemas : Path)
  | emptyOutputDir
  | outputIsSchemaDir (dir : Path)
  | sharedOutputDir (dir : Path)
  | epochOutOfRange (seconds : Int)
  deriving DecidableEq, Repr

/-- The reason in words. -/
def ConfigFault.reason : ConfigFault → String
  | blankApiName => "api_name must not be empty"
  | emptySchemaDir => "schema_dir must not be empty"
  | enumsInSchemaDir enums schemas =>
    s!"enums_file {enums.text} must live outside the schema directory {schemas.text}"
  | emptyOutputDir => "output directories must not be empty"
  | outputIsSchemaDir dir => s!"output directory {dir.text} must differ from the schema directory"
  | sharedOutputDir dir => s!"output directory {dir.text} is configured for more than one target"
  | epochOutOfRange seconds => s!"source_date_epoch {seconds} is out of range"

/-- The fault in words. -/
def ConfigFault.message (f : ConfigFault) : String := "Configuration error: " ++ f.reason

/-- Whatever ends a run before it is done. -/
inductive Fault where
  | schema (fault : SchemaFault)
  | render (fault : RenderFault)
  | io (path : Path) (kind : IoKind)
  | config (fault : ConfigFault)
  deriving DecidableEq, Repr

end SchemaGen
