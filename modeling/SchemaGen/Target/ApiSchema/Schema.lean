import SchemaGen.Target.ApiSchema.Definition
import SchemaGen.Text.Blank
import SchemaGen.Text.Lines

/-!
# The API schema

One file with every enum, every type that an entity of the API brings with it, and the operations of
the tables. A description stands between triple quotes, on a line of its own or, if it has several lines,
on lines of their own; a triple quote inside it is escaped.
-/

namespace SchemaGen.ApiSchema

/-! ## Text -/

/-- The mark around a description. -/
def tripleQuote : String := "\"\"\""

/-- A description without blanks around it and with its triple quotes escaped. -/
def escaped (text : String) : String :=
  Text.replaceAll tripleQuote ("\\" ++ tripleQuote) (Text.trim text)

/-- The lines of a description. -/
def descriptionLines (indent text : String) : List String :=
  let text := escaped text
  if text.toList.contains '\n' then
    [indent ++ tripleQuote] ++ ((Text.lines text).map fun l => indent ++ Text.trimEnd l) ++
      [indent ++ tripleQuote]
  else [indent ++ tripleQuote ++ text ++ tripleQuote]

/-- The lines of a description that need not be there. -/
def descriptionIf (indent : String) (text : Option String) : List String :=
  match text with
  | some text => descriptionLines indent text
  | none => []

/-- The word that starts the definition of a type. -/
def roleKeyword : TypeRole → String
  | .object => "type"
  | .input => "input"

/-- The lines of a field. -/
def fieldLines (f : SdlField) : List String :=
  descriptionIf "  " f.description ++ ["  " ++ f.name ++ ": " ++ f.type]

/-- The line of an operation in its root type. -/
def operationLine (op : Operation) : String :=
  "  " ++ op.name ++ "(input: " ++ op.inputType ++ "!): " ++ op.resultType

/-- The line that names a root type. -/
def rootLine (kind : OperationKind) : String := "  " ++ kind.keyword ++ ": " ++ kind.root

/-- The lines of a definition. -/
def definitionLines : Definition → List String
  | .enum name values => ["enum " ++ name ++ " \x7b"] ++ (values.map fun v => "  " ++ v) ++ ["\x7d"]
  | .composite role name description fields =>
    descriptionIf "" description ++ [roleKeyword role ++ " " ++ name ++ " \x7b"] ++
      fields.flatMap fieldLines ++ ["\x7d"]
  | .root kind ops => ["type " ++ kind.root ++ " \x7b"] ++ ops.map operationLine ++ ["\x7d"]
  | .schema kinds => ["schema \x7b"] ++ kinds.map rootLine ++ ["\x7d"]

/-- The text of a schema. -/
def schemaText (generatedAt : Int) (definitions : List Definition) : String :=
  Text.unlines <|
    ["# " ++ banner, "# Generated at " ++ Calendar.timestamp generatedAt] ++
      definitions.flatMap fun d => "" :: definitionLines d

/-! ## File -/

/-- The file of the schema. -/
def schemaFile : String := "schema.graphql"

/-- The files that a catalog calls for. -/
def expectedFiles : List String := [schemaFile]

/-- The declarations of the API: of every entity that belongs to it by itself, in name order. -/
def declarations (c : Catalog) : Emit (List Declaration) :=
  Emit.collect (fun e => Emit.fragment c .graphql e .apiSchemaEntity)
    (c.entityList.filter Entity.isApiVisible)

/-- The definition of an enum, unless its name is taken. -/
def enumDefinition (e : EnumType) : Emit (List Definition) := do
  if ← Emit.mark .graphql e.name then
    let definition ← Emit.ofExcept (enum e)
    return [definition]
  else return []

/-- The definitions of the schema. -/
def definitions (o : Options) (c : Catalog) : Emit (List Definition) := do
  let decls ← declarations c
  let enums ← Emit.collect enumDefinition c.enumList
  return enums ++ (Declaration.types decls).map (composite o c) ++ roots (Declaration.operations decls)

/-- The files of the target. -/
def generate (o : Options) (c : Catalog) : Emit Files := do
  let all ← definitions o c
  return NameMap.ofList [(schemaFile, schemaText o.generatedAt all)]

end SchemaGen.ApiSchema
