import SchemaGen.Text.Blank

/-!
# Shapes of attributes

An attribute holds a scalar, an enum value, another type of the schema, or an array of scalars or of
other types. All shapes but enums have a type expression: `string`, `Address`, `array<X>`. Enums come
from an attribute's `enumType`, or from a reference that turns out to name an enum.

Results:
1. `Scalar.ofName?_name`: a scalar's name names that scalar.
-/

namespace SchemaGen

/-- The logical scalars. -/
inductive Scalar where
  | string | number | boolean | array | object | timestamp | map | set | binary | null
  deriving DecidableEq, Repr

namespace Scalar

/-- Every scalar. -/
def all : List Scalar :=
  [.string, .number, .boolean, .array, .object, .timestamp, .map, .set, .binary, .null]

/-- The name that stands for the scalar in a type expression. -/
def name : Scalar → String
  | .string => "string"
  | .number => "number"
  | .boolean => "boolean"
  | .array => "array"
  | .object => "object"
  | .timestamp => "timestamp"
  | .map => "map"
  | .set => "set"
  | .binary => "binary"
  | .null => "null"

/-- The scalar of that name. -/
def ofName? (token : String) : Option Scalar := all.find? fun s => s.name == token

theorem ofName?_name (s : Scalar) : ofName? s.name = some s := by cases s <;> decide

end Scalar

/-- What an attribute holds. -/
inductive Shape where
  | scalar (type : Scalar)
  | enum (name : String) (values : List String)
  | scalarArray (element : Scalar)
  | referenceArray (name : String)
  | reference (name : String)
  deriving DecidableEq, Repr

/-- Pascal-case names: an upper-case letter, then letters and digits. -/
def isTypeName (cs : List Char) : Bool :=
  match cs with
  | [] => false
  | c :: rest => c.isUpper && rest.all Char.isAlphanum

namespace Shape

/-- The inside of `array<…>`. -/
def arrayElement? (cs : List Char) : Option (List Char) :=
  match cs with
  | 'a' :: 'r' :: 'r' :: 'a' :: 'y' :: '<' :: rest =>
    if rest.getLast? = some '>' then some rest.dropLast else none
  | _ => none

/-- The shape that a trimmed type expression denotes. -/
def ofExpr? (cs : List Char) : Option Shape :=
  match arrayElement? cs with
  | some inside =>
    let element := Text.trimChars inside
    match Scalar.ofName? (String.ofList element) with
    | some s => some (.scalarArray s)
    | none => if isTypeName element then some (.referenceArray (String.ofList element)) else none
  | none =>
    match Scalar.ofName? (String.ofList cs) with
    | some s => some (.scalar s)
    | none => if isTypeName cs then some (.reference (String.ofList cs)) else none

/-- The shape that a type expression denotes; blanks around it and inside `array<…>` do not count. -/
def parse? (expr : String) : Option Shape := ofExpr? (Text.trimChars expr.toList)

/-- The type expression of a shape; an enum is described by its name. -/
def describe : Shape → String
  | .scalar s => s.name
  | .enum name _ => name
  | .scalarArray s => "array<" ++ s.name ++ ">"
  | .referenceArray name => "array<" ++ name ++ ">"
  | .reference name => name

/-- The type that a reference or an array of references names. -/
def referenced? : Shape → Option String
  | .reference name => some name
  | .referenceArray name => some name
  | _ => none

/-- The enum that the shape names. -/
def enumName? : Shape → Option String
  | .enum name _ => some name
  | _ => none

end Shape

end SchemaGen
