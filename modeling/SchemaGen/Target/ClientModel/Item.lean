import SchemaGen.Model.Surface
import SchemaGen.Target.ApiSchema.Selection
import SchemaGen.Target.Options
import SchemaGen.Text.Blank
import SchemaGen.Text.Lines

/-!
# Items of the client models

Interfaces of TypeScript for the declared types, and for each operation a document to send, with the
types of its variables and of its result.
-/

namespace SchemaGen.ClientModel

/-- A description, where descriptions are written. -/
def docIf (docs : Bool) (text : Option String) : Option String := if docs then text else none

/-- A member of an interface. -/
structure Member where
  doc : Option String
  name : String
  optional : Bool
  type : String
  deriving DecidableEq, Repr

/-- An interface. -/
structure Interface where
  doc : Option String
  name : String
  members : List Member
  deriving DecidableEq, Repr

/-- The type of a field. -/
def fieldType : FieldType → String
  | .integer => Surface.client.integer
  | .shape shape => Surface.client.mapShape shape

/-- The member that a field calls for. -/
def member (docs : Bool) (f : Field) : Member :=
  ⟨docIf docs f.description, f.name, !f.required, fieldType f.type⟩

/-- The interface of a declared type. -/
def interface (docs : Bool) (d : TypeDecl) : Interface :=
  ⟨docIf docs d.description, d.name, d.fields.map (member docs)⟩

/-- The text of a comment; a mark that would end the comment is escaped. -/
def commentText (text : String) : String := Text.replaceAll "*/" "*\\/" (Text.trim text)

/-- The lines of a comment. -/
def commentLines (indent text : String) : List String :=
  let text := commentText text
  if text.toList.contains '\n' then
    [indent ++ "/**"] ++ ((Text.lines text).map fun l => indent ++ " * " ++ Text.trimEnd l) ++
      [indent ++ " */"]
  else [indent ++ "/** " ++ text ++ " */"]

/-- The lines of a comment that need not be there. -/
def commentIf (indent : String) (text : Option String) : List String :=
  match text with
  | some text => commentLines indent text
  | none => []

/-- The lines of a member. -/
def memberLines (m : Member) : List String :=
  commentIf "  " m.doc ++ ["  " ++ m.name ++ (if m.optional then "?" else "") ++ ": " ++ m.type ++ ";"]

/-- The lines of an interface. -/
def interfaceLines (i : Interface) : List String :=
  commentIf "" i.doc ++ ["export interface " ++ i.name ++ " \x7b"] ++ i.members.flatMap memberLines ++
    ["\x7d"]

/-- The line of an import. -/
def importLine : Import → String
  | .enum name => "import type \x7b " ++ name ++ " \x7d from './" ++ name ++ ".enum';"
  | .model name => "import type \x7b " ++ name ++ " \x7d from './" ++ name ++ ".model';"

/-- The lines of an operation: its document, and the types of its variables and of its result. -/
def operationLines (selection : List Selection) (op : Operation) : List String :=
  let title := Naming.toPascal op.name
  let data := Selection.linesAll 8 selection
  ["export const " ++ op.name ++ " = /* GraphQL */ `",
   "  " ++ op.kind.keyword ++ " " ++ title ++ "($input: " ++ op.inputType ++ "!) \x7b",
   "    " ++ op.name ++ "(input: $input) \x7b", "      statusCode", "      message"] ++
    (if data.isEmpty then ["      data"] else ["      data \x7b"] ++ data ++ ["      \x7d"]) ++
    ["    \x7d", "  \x7d", "`;", "",
     "export type " ++ title ++ "Variables = \x7b input: " ++ op.inputType ++ " \x7d;",
     "export type " ++ title ++ "Result = \x7b " ++ op.name ++ ": " ++ op.resultType ++ " \x7d;"]

/-- The lines that import the types of operations from an entity's file. -/
def operationImports (entity : String) (ops : List Operation) : List String :=
  let types := sortedNames (ops.flatMap fun op => [op.inputType, op.resultType])
  if types.isEmpty then []
  else ["import type \x7b"] ++ (types.map fun t => "  " ++ t ++ ",") ++
    ["\x7d from './" ++ entity ++ ".model';"]

/-- The line before every file's items. -/
def header : List String := ["// " ++ banner, ""]

/-- The text of an entity's file. -/
def modelText (imports : List Import) (interfaces : List Interface) : String :=
  let lines := sortedNames (imports.map importLine)
  Text.unlines <|
    header ++ (if lines.isEmpty then [] else lines ++ [""]) ++ Text.spaced (interfaces.map interfaceLines)

/-- The text of the file of a table's operations. -/
def operationsText (entity : String) (selection : List Selection) (ops : List Operation) : String :=
  Text.unlines <|
    header ++ operationImports entity ops ++ ops.flatMap fun op => "" :: operationLines selection op

/-- The text of an enum's file. -/
def enumText (e : EnumType) : String :=
  Text.unlines <|
    header ++ ["export enum " ++ e.name ++ " \x7b"] ++
      (e.values.map fun v => "  " ++ v ++ " = '" ++ v ++ "',") ++ ["\x7d"]

/-- The text of the file that exports what all others do; `files` are their names. -/
def indexText (files : List String) : String :=
  Text.unlines <|
    header ++ files.map fun f =>
      "export * from './" ++ String.ofList (f.toList.take (f.length - 3)) ++ "';"

end SchemaGen.ClientModel
