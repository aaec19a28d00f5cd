import SchemaGen.Naming.Case

/-!
# Names derived from an entity

Every table brings its own inputs, envelopes, queries and mutations; their names are glued from the
entity's name and, for queries, from the Pascal case of the attributes that the query requires.
-/

namespace SchemaGen.Naming

/-- The attributes of a query as they stand in its names: `WidgetIdAndCreatedAt`. -/
def byAttributes (attributes : List String) : String :=
  "And".intercalate (attributes.map toPascal)

/-- The input type of a query. -/
def queryInput (entity : String) (attributes : List String) : String :=
  entity ++ "QueryBy" ++ byAttributes attributes ++ "Input"

/-- The operation that answers a query. -/
def queryOperation (entity : String) (attributes : List String) : String :=
  "query" ++ entity ++ "By" ++ byAttributes attributes

/-- The input type of the operation that creates an item. -/
def createInput (entity : String) : String := "Create" ++ entity ++ "Input"

/-- The input type of the operation that updates an item. -/
def updateInput (entity : String) : String := "Update" ++ entity ++ "Input"

/-- The input type of the operation that deletes an item. -/
def deleteInput (entity : String) : String := "Delete" ++ entity ++ "Input"

/-- The envelope around one item. -/
def response (entity : String) : String := entity ++ "Response"

/-- The envelope around a list of items. -/
def listResponse (entity : String) : String := entity ++ "ListResponse"

/-- The input variant of an embedded object type. -/
def inputVariant (typeName : String) : String := typeName ++ "Input"

/-- The mutation that does `verb` on an item. -/
def mutation (verb entity : String) : String := toCamel verb ++ entity

/-- The file of an entity's types. -/
def modelFile (entity ext : String) : String := entity ++ ".model." ++ ext

/-- The file of an entity's operations. -/
def operationsFile (entity ext : String) : String := entity ++ ".graphql." ++ ext

/-- The file of an enum. -/
def enumFile (name ext : String) : String := name ++ ".enum." ++ ext

/-- The logical id of a table's storage resource. -/
def tableLogicalId (entity : String) : String := entity ++ "Table"

/-- The name under which the storage stack shares a table's physical name. -/
def tableExport (entity : String) : String := toKebab entity ++ "-table-name"

/-- The logical id of a table's data source. -/
def dataSource (entity : String) : String := entity ++ "DataSource"

end SchemaGen.Naming
