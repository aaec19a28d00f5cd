import SchemaGen.Target.ClientModel.Item

/-!
# Files of the client models

One file for each entity and each enum, one for the operations of each table, and one that exports
what all others do.
-/

namespace SchemaGen.ClientModel

/-- The file that exports what all others do. -/
def indexFile : String := "index.ts"

/-- The files that a catalog calls for. -/
def expectedFiles (c : Catalog) : List String :=
  (c.entityList.map fun e => Naming.modelFile e.name "ts") ++
    (c.tables.map fun t => Naming.operationsFile t.name "ts") ++
    (c.enumList.map fun e => Naming.enumFile e.name "ts") ++ [indexFile]

/-- The file of an entity. -/
def modelFile (o : Options) (c : Catalog) (e : Entity) : Emit (List (String × String)) := do
  let decls := Declaration.types (← Emit.fragment c .typescript e .modelArtifact)
  return [(Naming.modelFile e.name "ts", modelText (imports c decls) (decls.map (interface o.docs)))]

/-- The file of a table's operations. -/
def operationsFile (c : Catalog) (t : Table) : Emit (List (String × String)) := do
  let ops := Declaration.operations (← Emit.fragment c .typescript (.table t) .operations)
  return [(Naming.operationsFile t.name "ts", operationsText t.name (Selection.ofName c t.name) ops)]

/-- The file of an enum, unless its name is taken. -/
def enumFile (e : EnumType) : Emit (List (String × String)) := do
  if ← Emit.mark .typescript e.name then return [(Naming.enumFile e.name "ts", enumText e)]
  else return []

/-- The files of the target. -/
def generate (o : Options) (c : Catalog) : Emit Files := do
  let models ← Emit.collect (modelFile o c) c.entityList
  let operations ← Emit.collect (operationsFile c) c.tables
  let enums ← Emit.collect enumFile c.enumList
  let files := NameMap.ofList (models ++ operations ++ enums)
  return files.insert indexFile (indexText files.names)

end SchemaGen.ClientModel
