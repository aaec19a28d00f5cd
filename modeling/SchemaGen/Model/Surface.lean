import SchemaGen.Model.Shape

/-!
# Output surfaces

A shape is written differently on each surface: the typed models of the host and the client language,
the attribute types of the key-value store, and the API schema. A name that no table knows is taken
for another generated type, except in storage, which falls back to its string type.

Results:
1. `mapShape_storage_key`: where a shape can be a key, its storage type is the key type.
-/

namespace SchemaGen

/-- Where a type is written. -/
inductive Surface where
  | host | client | storage | api
  deriving DecidableEq, Repr

namespace Surface

/-- The surface as messages call it. -/
def label : Surface → String
  | .host => "host model"
  | .client => "client model"
  | .storage => "storage"
  | .api => "API schema"

/-- The type that writes a scalar. -/
def scalar : Surface → Scalar → String
  | .host, .string => "String"
  | .host, .number => "f64"
  | .host, .boolean => "bool"
  | .host, .array => "Vec<serde_json::Value>"
  | .host, .object => "serde_json::Value"
  | .host, .timestamp => "String"
  | .host, .map => "std::collections::HashMap<String, serde_json::Value>"
  | .host, .set => "Vec<String>"
  | .host, .binary => "Vec<u8>"
  | .host, .null => "()"
  | .client, .string => "string"
  | .client, .number => "number"
  | .client, .boolean => "boolean"
  | .client, .array => "unknown[]"
  | .client, .object => "Record<string, unknown>"
  | .client, .timestamp => "string"
  | .client, .map => "Record<string, unknown>"
  | .client, .set => "string[]"
  | .client, .binary => "string"
  | .client, .null => "null"
  | .storage, .string => "S"
  | .storage, .number => "N"
  | .storage, .boolean => "BOOL"
  | .storage, .array => "L"
  | .storage, .object => "M"
  | .storage, .timestamp => "S"
  | .storage, .map => "M"
  | .storage, .set => "SS"
  | .storage, .binary => "B"
  | .storage, .null => "NULL"
  | .api, .string => "String"
  | .api, .number => "Float"
  | .api, .boolean => "Boolean"
  | .api, .array => "[AWSJSON]"
  | .api, .object => "AWSJSON"
  | .api, .timestamp => "AWSDateTime"
  | .api, .map => "AWSJSON"
  | .api, .set => "[String]"
  | .api, .binary => "String"
  | .api, .null => "String"

/-- The integer type; the store has none and takes its number type. -/
def integer : Surface → String
  | .host => "i32"
  | .client => "number"
  | .storage => scalar .storage .number
  | .api => "Int"

/-- Whether an element type needs angle brackets in a client array. -/
def isCompound (element : String) : Bool :=
  element.toList.any fun c => c == '<' || c == '|' || c == ' '

/-- The type of a list of elements. -/
def listOf : Surface → String → String
  | .host, element => "Vec<" ++ element ++ ">"
  | .client, element => if isCompound element then "Array<" ++ element ++ ">" else element ++ "[]"
  | .storage, _ => "L"
  | .api, element => "[" ++ element ++ "]"

/-- The type that writes a name which is no scalar. -/
def named : Surface → String → String
  | .storage, _ => scalar .storage .string
  | _, name => name

/-- The type that writes a shape; the element of an array is written first. -/
def mapShape (surface : Surface) : Shape → String
  | .scalar s => surface.scalar s
  | .enum name _ => surface.named name
  | .scalarArray s => surface.listOf (surface.scalar s)
  | .referenceArray name => surface.listOf (surface.named name)
  | .reference name => surface.named name

end Surface

/-- The store's key type of a shape, for shapes that may be keys. -/
def Shape.keyType? : Shape → Option String
  | .scalar .string => some "S"
  | .scalar .timestamp => some "S"
  | .scalar .number => some "N"
  | .scalar .binary => some "B"
  | .enum _ _ => some "S"
  | _ => none

theorem mapShape_storage_key {shape : Shape} {key : String} (h : shape.keyType? = some key) :
    Surface.storage.mapShape shape = key := by
  cases shape with
  | scalar s => cases s <;> simp_all [Shape.keyType?, Surface.mapShape, Surface.scalar]
  | enum name values => simp_all [Shape.keyType?, Surface.mapShape, Surface.named, Surface.scalar]
  | _ => simp [Shape.keyType?] at h

end SchemaGen
