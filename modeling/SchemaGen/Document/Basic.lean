import SchemaGen.Model.Entity
import SchemaGen.Path

/-!
# Schema documents

A document that obeys every rule of the loader. Its enum attributes name their enum; the values are
known only when all documents are taken together.
-/

namespace SchemaGen

/-- A declared attribute. -/
structure AttributeDoc where
  name : String
  shape : Shape
  required : Bool
  description : Option String
  /-- The values declared for the attribute's enum on the spot. -/
  enumValues : Option (List String)
  deriving DecidableEq, Repr

/-- What a table document declares. -/
structure TableDoc where
  version : String
  partition : String
  sort : Option String
  /-- None if the document has no list of indexes at all. -/
  indexes : Option (List Index)
  attributes : List AttributeDoc
  deriving DecidableEq, Repr

/-- A table, or an object type of either origin. -/
inductive DocBody where
  | table (table : TableDoc)
  | object (origin : Origin) (attrs : List AttributeDoc)
  deriving DecidableEq, Repr

/-- A schema document. -/
structure SchemaDoc where
  path : Path
  name : String
  description : Option String
  body : DocBody
  deriving DecidableEq, Repr

/-- An entry of the enum catalog. -/
structure EnumDoc where
  path : Path
  name : String
  values : List String
  deriving DecidableEq, Repr

namespace DocBody

/-- The attributes that the document declares. -/
def attributes : DocBody → List AttributeDoc
  | table t => t.attributes
  | object _ attrs => attrs

/-- The field of the document that holds its attributes. -/
def attributesField : DocBody → String
  | table _ => "model.attributes"
  | object _ _ => "attributes"

end DocBody

end SchemaGen
