import SchemaGen.Model.Entity

/-!
# Declarations

What the emission of an entity yields before any target writes it down: types with their fields, and
operations with the types they take and answer.
-/

namespace SchemaGen

/-- The type of a declared field: an attribute's shape, or the integer of an envelope's status. -/
inductive FieldType where
  | shape (shape : Shape)
  | integer
  deriving DecidableEq, Repr

/-- A field of a declared type. -/
structure Field where
  name : String
  type : FieldType
  required : Bool
  description : Option String
  deriving DecidableEq, Repr

/-- Whether a declared type is answered or taken. -/
inductive TypeRole where
  | object | input
  deriving DecidableEq, Repr

/-- A declared type. -/
structure TypeDecl where
  name : String
  role : TypeRole
  description : Option String
  fields : List Field
  deriving DecidableEq, Repr

/-- Whether an operation reads or writes. -/
inductive OperationKind where
  | query | mutation
  deriving DecidableEq, Repr

/-- The root type that holds operations of the kind. -/
def OperationKind.root : OperationKind → String
  | .query => "Query"
  | .mutation => "Mutation"

/-- The word that starts a client document of the kind. -/
def OperationKind.keyword : OperationKind → String
  | .query => "query"
  | .mutation => "mutation"

/-- A declared operation. -/
structure Operation where
  name : String
  kind : OperationKind
  entity : String
  inputType : String
  resultType : String
  deriving DecidableEq, Repr

/-- A type or an operation. -/
inductive Declaration where
  | type (decl : TypeDecl)
  | operation (op : Operation)
  deriving DecidableEq, Repr

namespace Declaration

/-- The declared name. -/
def name : Declaration → String
  | type d => d.name
  | operation o => o.name

/-- The declared type, if it is one. -/
def type? : Declaration → Option TypeDecl
  | type d => some d
  | operation _ => none

/-- The declared operation, if it is one. -/
def operation? : Declaration → Option Operation
  | type _ => none
  | operation o => some o

/-- The types among declarations. -/
def types (ds : List Declaration) : List TypeDecl := ds.filterMap type?

/-- The operations among declarations. -/
def operations (ds : List Declaration) : List Operation := ds.filterMap operation?

end Declaration

/-- The field that carries an attribute. -/
def Field.ofAttribute (a : Attribute) (required : Bool) : Field :=
  ⟨a.name, .shape a.shape, required, a.description⟩

end SchemaGen
