import SchemaGen.Path

/-!
# Violations of the schema rules

Every rule that a corpus of schema documents can violate, with the cause of the violation. The rule's
name and the message are functions of the cause.
-/

namespace SchemaGen

/-- The rules, as failures report them. -/
inductive Rule where
  | parse | missingField | unknownKind | filenameMismatch | entityName | camelCase | kebabCase
  | attributeType | duplicateAttribute | duplicateIndex | duplicateEntity | unknownKeyAttribute
  | keyType | projectionInclude | localIndex | enumValues | enumConflict
  deriving DecidableEq, Repr

/-- The rule's name. -/
def Rule.name : Rule → String
  | .parse => "parse"
  | .missingField => "missing-field"
  | .unknownKind => "unknown-kind"
  | .filenameMismatch => "filename-mismatch"
  | .entityName => "entity-name"
  | .camelCase => "camel-case"
  | .kebabCase => "kebab-case"
  | .attributeType => "attribute-type"
  | .duplicateAttribute => "duplicate-attribute"
  | .duplicateIndex => "duplicate-index"
  | .duplicateEntity => "duplicate-entity"
  | .unknownKeyAttribute => "unknown-key-attribute"
  | .keyType => "key-type"
  | .projectionInclude => "projection-include"
  | .localIndex => "local-index"
  | .enumValues => "enum-values"
  | .enumConflict => "enum-conflict"

/-- What is wrong with a document, or with documents taken together. -/
inductive Violation where
  /-- The source is no document of the expected form. -/
  | unreadable
  /-- A field is absent or blank. -/
  | missing (field : String)
  | missingVersion
  | missingModel
  /-- The file is not named for the entity. -/
  | fileName (file name extension : String)
  | entityName (name : String)
  | enumName (name : String)
  | documentKind (kind : String)
  | indexKind (kind : String)
  | indexName (name : String)
  | attributeName (name : String)
  | repeatedAttribute (name : String)
  | repeatedIndex (name : String)
  | typeExpr (expr : String)
  /-- An enum attribute has a type other than `string`. -/
  | enumType (attr found : String)
  | undeclaredKey (attr : String)
  | keyType (attr shape : String)
  | undeclaredProjection (attr : String)
  /-- An index projects a list of attributes, and the list is empty. -/
  | emptyProjection (index : String)
  | projectionType (type : String)
  | localPartition (index partition : String)
  | localSort (index : String)
  | valuesWithoutEnum
  | noValues
  | enumValue (value : String)
  | repeatedValue (value : String)
  | repeatedEntity (name : String) (first : Path)
  | entityIsEnum (name : String)
  /-- Two value lists are declared for one enum. -/
  | enumConflict (name : String) (here elsewhere : List String)
  | enumWithoutValues (name : String)
  /-- One type name is generated for two entities. -/
  | sharedName (name owner other : String)
  | reservedName (name : String)
  | entityCollision (name owner : String)
  | enumCollision (name owner : String)
  deriving DecidableEq, Repr

namespace Violation

/-- The rule that is violated. -/
def rule : Violation → Rule
  | unreadable => .parse
  | missing _ => .missingField
  | missingVersion => .missingField
  | missingModel => .missingField
  | fileName _ _ _ => .filenameMismatch
  | entityName _ => .entityName
  | enumName _ => .entityName
  | documentKind _ => .unknownKind
  | indexKind _ => .unknownKind
  | indexName _ => .kebabCase
  | attributeName _ => .camelCase
  | repeatedAttribute _ => .duplicateAttribute
  | repeatedIndex _ => .duplicateIndex
  | typeExpr _ => .attributeType
  | enumType _ _ => .attributeType
  | undeclaredKey _ => .unknownKeyAttribute
  | keyType _ _ => .keyType
  | undeclaredProjection _ => .unknownKeyAttribute
  | emptyProjection _ => .projectionInclude
  | projectionType _ => .projectionInclude
  | localPartition _ _ => .localIndex
  | localSort _ => .localIndex
  | valuesWithoutEnum => .enumValues
  | noValues => .enumValues
  | enumValue _ => .enumValues
  | repeatedValue _ => .enumValues
  | repeatedEntity _ _ => .duplicateEntity
  | entityIsEnum _ => .duplicateEntity
  | enumConflict _ _ _ => .enumConflict
  | enumWithoutValues _ => .enumValues
  | sharedName _ _ _ => .duplicateEntity
  | reservedName _ => .duplicateEntity
  | entityCollision _ _ => .duplicateEntity
  | enumCollision _ _ => .duplicateEntity

/-- The violation in words. -/
def message : Violation → String
  | unreadable => "the document cannot be read"
  | missing field => s!"`{field}` is required"
  | missingVersion => "table documents must declare `version`"
  | missingModel => "table documents must declare a `model` block"
  | fileName file name ext =>
    s!"file name `{file}` does not match declared name `{name}` (expected `{name}.{ext}`)"
  | entityName name => s!"entity name `{name}` must be PascalCase"
  | enumName name => s!"enum name `{name}` must be PascalCase"
  | documentKind kind => s!"unknown kind `{kind}` (expected table, graphql or static)"
  | indexKind kind => s!"unknown index kind `{kind}` (expected GSI or LSI)"
  | indexName name => s!"index name `{name}` must be kebab-case"
  | attributeName name => s!"attribute name `{name}` must be camelCase"
  | repeatedAttribute name => s!"attribute `{name}` is declared more than once"
  | repeatedIndex name => s!"index name `{name}` is declared more than once"
  | typeExpr expr => s!"`{expr}` is not a valid attribute type"
  | enumType attr found => s!"enum attribute `{attr}` must have type `string`, found `{found}`"
  | undeclaredKey attr => s!"key attribute `{attr}` is not declared"
  | keyType attr shape =>
    s!"key attribute `{attr}` has type `{shape}` which cannot be used as a storage key"
  | undeclaredProjection attr => s!"projected attribute `{attr}` is not declared"
  | emptyProjection index => s!"index `{index}` uses INCLUDE projection but lists no projectedAttributes"
  | projectionType type => s!"unknown projection type `{type}` (expected ALL, KEYS_ONLY or INCLUDE)"
  | localPartition index partition =>
    s!"local index `{index}` must use the table partition key `{partition}`"
  | localSort index => s!"local index `{index}` must declare a sort attribute"
  | valuesWithoutEnum => "`enumValues` requires `enumType`"
  | noValues => "enum must declare at least one value"
  | enumValue value => s!"enum value `{value}` is not a valid identifier"
  | repeatedValue value => s!"enum value `{value}` is declared more than once"
  | repeatedEntity name first => s!"entity `{name}` is already declared in {first.text}"
  | entityIsEnum name => s!"entity `{name}` has the same name as an enum"
  | enumConflict name here elsewhere =>
    let mine := ", ".intercalate here
    let other := ", ".intercalate elsewhere
    s!"enum `{name}` is declared with values [{mine}] here but [{other}] elsewhere"
  | enumWithoutValues name => s!"enum `{name}` has no values in the enum catalog or inline"
  | sharedName name owner other => s!"`{name}` is generated for both `{owner}` and `{other}`"
  | reservedName name => s!"`{name}` is reserved for the API schema root"
  | entityCollision name owner => s!"entity `{name}` collides with a type generated for `{owner}`"
  | enumCollision name owner => s!"enum `{name}` collides with a type generated for `{owner}`"

end Violation

/-- A violation at a field of a document. -/
structure SchemaFault where
  file : Path
  field : String
  violation : Violation
  deriving DecidableEq, Repr

/-- The fault in words. -/
def SchemaFault.message (f : SchemaFault) : String :=
  s!"Schema validation error in {f.file.text}: field `{f.field}` violates rule `{f.violation.rule.name}`: {f.violation.message}"

end SchemaGen
