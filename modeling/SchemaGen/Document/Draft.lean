/-!
# Drafts

A document as it is read, before any rule is applied. Every field may be absent, so that an absent
field is reported by the rule that wants it.
-/

namespace SchemaGen.Draft

/-- What a document gives as its version. -/
inductive Version where
  | text (text : String)
  /-- A number, printed anew. -/
  | number (text : String)
  /-- A truth value, a list or a mapping. -/
  | other
  deriving DecidableEq, Repr

/-- An attribute. -/
structure Attribute where
  name : Option String := none
  type : Option String := none
  required : Bool := false
  description : Option String := none
  enumType : Option String := none
  enumValues : Option (List String) := none
  deriving DecidableEq, Repr

/-- A secondary index. -/
structure Index where
  name : Option String := none
  kind : Option String := none
  partition : Option String := none
  sort : Option String := none
  projectionType : Option String := none
  projectedAttributes : Option (List String) := none
  deriving DecidableEq, Repr

/-- The primary key. -/
structure PrimaryKey where
  partition : Option String := none
  sort : Option String := none
  deriving DecidableEq, Repr

/-- The keys of a table. -/
structure Keys where
  primary : Option PrimaryKey := none
  secondary : Option (List Index) := none
  deriving DecidableEq, Repr

/-- The model block of a table. -/
structure Model where
  keys : Option Keys := none
  attributes : Option (List Attribute) := none
  deriving DecidableEq, Repr

/-- A schema document. -/
structure Document where
  name : Option String := none
  kind : Option String := none
  version : Option Version := none
  description : Option String := none
  model : Option Model := none
  attributes : Option (List Attribute) := none
  deriving DecidableEq, Repr

end SchemaGen.Draft
