import SchemaGen.Target.HostModel.Item
import SchemaGen.Text.Lines

/-!
# Text of the host models

The lines of structs, enums and imports in Rust, and the text of whole files.
-/

namespace SchemaGen.HostModel

/-- The lines before every file's items. -/
def header (title : String) : List String := ["//! " ++ title, "//!", "//! " ++ banner, ""]

/-- The import of the derived traits. -/
def deriveImport : String := "use serde::\x7bDeserialize, Serialize\x7d;"

/-- Whether the value may be left out. -/
def HostType.isOptional : HostType → Bool
  | .optional _ => true
  | _ => false

/-- The lines of a field. -/
def fieldLines (f : HostField) : List String :=
  f.doc ++
    (if f.type.isOptional then
      ["    #[serde(default, skip_serializing_if = \"Option::is_none\")]"] else []) ++
    (match f.rename with
      | some name => ["    #[serde(rename = \"" ++ name ++ "\")]"]
      | none => []) ++
    ["    pub " ++ f.name ++ ": " ++ f.type.text ++ ","]

/-- The lines of a struct. -/
def structLines (s : Struct) : List String :=
  s.doc ++
    ["#[derive(Debug, Clone, PartialEq, Serialize, Deserialize)]",
     "#[serde(rename_all = \"camelCase\")]",
     "pub struct " ++ s.name ++ " \x7b"] ++
    s.fields.flatMap fieldLines ++ ["\x7d"]

/-- The lines of an enum: its variants, the list of all of them, and the value of each. -/
def enumLines (e : Enum) : List String :=
  e.doc ++
    ["#[derive(Debug, Clone, Copy, PartialEq, Eq, Hash, Serialize, Deserialize)]",
     "pub enum " ++ e.name ++ " \x7b"] ++
    (e.variants.flatMap fun v => ["    #[serde(rename = \"" ++ v.2 ++ "\")]", "    " ++ v.1 ++ ","]) ++
    ["\x7d", "", "impl " ++ e.name ++ " \x7b",
     "    pub const ALL: [" ++ e.name ++ "; " ++ toString e.variants.length ++ "] = ["] ++
    (e.variants.map fun v => "        " ++ e.name ++ "::" ++ v.1 ++ ",") ++
    ["    ];", "", "    pub fn as_str(&self) -> &'static str \x7b", "        match self \x7b"] ++
    (e.variants.map fun v => "            " ++ e.name ++ "::" ++ v.1 ++ " => \"" ++ v.2 ++ "\",") ++
    ["        \x7d", "    \x7d", "\x7d"]

/-- The line of an import. -/
def importLine (i : Import) : String :=
  let (name, file) := match i with
    | .enum name => (name, name ++ ".enum")
    | .model name => (name, name ++ ".model")
  "use super::" ++ Naming.hostModule file ++ "::" ++ name ++ ";"

/-- The text of an entity's file. -/
def modelText (entity : String) (imports : List Import) (structs : List Struct) : String :=
  Text.unlines <|
    header (entity ++ " model") ++ [deriveImport] ++ sortedNames (imports.map importLine) ++ [""] ++
      (if structs.isEmpty then [""] else Text.spaced (structs.map structLines))

/-- The text of an enum's file. -/
def enumText (e : Enum) : String :=
  Text.unlines (header (e.name ++ " enum") ++ [deriveImport, ""] ++ enumLines e)

/-- The text of the file that declares all others as modules. -/
def indexText (modules : List (String × String)) : String :=
  Text.unlines <|
    header "Generated host models" ++
      (modules.flatMap fun m => ["#[path = \"" ++ m.1 ++ "\"]", "pub mod " ++ m.2 ++ ";"]) ++
      ["", "// Re-export all types"] ++
      modules.map fun m => "pub use " ++ m.2 ++ "::*;"

end SchemaGen.HostModel
