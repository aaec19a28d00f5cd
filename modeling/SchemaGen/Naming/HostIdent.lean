import SchemaGen.Naming.Case

/-!
# Identifiers of the host models

The host language is Rust. Field names are written in snake case, with `r#` before a name that is a
keyword, and are read back in camel case. A variant of an enum is named in Pascal case, and a module for the
stem of its file, whose dots separate words.
-/

namespace SchemaGen.Naming

/-- The keywords of the Rust language, in use and reserved. -/
def hostKeywords : List String :=
  ["as", "break", "const", "continue", "crate", "else", "enum", "extern", "false", "fn", "for", "if",
   "impl", "in", "let", "loop", "match", "mod", "move", "mut", "pub", "ref", "return", "self", "Self",
   "static", "struct", "super", "trait", "true", "type", "unsafe", "use", "where", "while", "async",
   "await", "dyn", "abstract", "become", "box", "do", "final", "macro", "override", "priv", "typeof",
   "unsized", "virtual", "yield"]

/-- Whether a name is a Rust keyword. -/
def isHostKeyword (s : String) : Bool := hostKeywords.contains s

/-- The field that carries an attribute: its snake case, marked as raw when it is a keyword. -/
def hostField (name : String) : String :=
  if isHostKeyword (toSnake name) then "r#" ++ toSnake name else toSnake name

/-- The module of a generated file, from the file's stem. -/
def hostModule (stem : String) : String :=
  toSnake (String.ofList (stem.toList.map fun c => if c = '.' then '_' else c))

example : hostKeywords.length = 50 := by decide

end SchemaGen.Naming

namespace SchemaGen.HostModel

/-! ## Fields -/

/-- A name in snake case, read as camel case: what follows a `_` is in upper case. -/
def camelFrom : Bool → List Char → List Char
  | _, [] => []
  | upper, c :: rest =>
    if c = '_' then camelFrom true rest
    else (if upper then c.toUpper else c) :: camelFrom false rest

/-- The name without the mark of a raw identifier. -/
def dropRaw (cs : List Char) : List Char :=
  match cs with
  | 'r' :: '#' :: rest => rest
  | cs => cs

/-- The name under which a field is read and written unless it is renamed. -/
def camelName (field : String) : String := String.ofList (camelFrom false (dropRaw field.toList))

/-! ## Variants -/

/-- The variant of an enum value; a keyword has a `_` at its end. -/
def variantName (value : String) : String :=
  let variant := Naming.toPascal value
  if Naming.isHostKeyword variant then variant ++ "_" else variant

/-- Whether a value has no variant: its Pascal case is empty or starts with a digit. -/
def lacksVariant (value : String) : Bool := (Naming.toPascal value).toList.head?.all Char.isDigit

/-! ## Modules -/

/-- The file name without its extension. -/
def fileStem (file : String) : String := String.ofList (file.toList.take (file.length - 3))

end SchemaGen.HostModel
