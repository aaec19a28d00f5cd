import SchemaGen.Model.Entity
import SchemaGen.NameMap

/-!
# The catalog

All entities and enums of one run, in name order. The entities that another one references are its
dependencies.
-/

namespace SchemaGen

/-- The entities and enums of a run. -/
structure Catalog where
  entities : NameMap Entity
  enums : NameMap EnumType
  deriving DecidableEq, Repr

/-- The members of a list in order, each once. -/
def sortedNames (names : List String) : List String :=
  (NameMap.ofList (names.map fun n => (n, ()))).names

namespace Catalog

/-- The catalog without entities and enums. -/
def empty : Catalog := ⟨.empty, .empty⟩

/-- The entity of that name. -/
def entity? (c : Catalog) (name : String) : Option Entity := c.entities.get? name

/-- The enum of that name. -/
def enum? (c : Catalog) (name : String) : Option EnumType := c.enums.get? name

/-- The catalog with one more entity. -/
def addEntity (c : Catalog) (e : Entity) : Catalog := { c with entities := c.entities.insert e.name e }

/-- The catalog with one more enum. -/
def addEnum (c : Catalog) (e : EnumType) : Catalog := { c with enums := c.enums.insert e.name e }

/-- The entities in name order. -/
def entityList (c : Catalog) : List Entity := c.entities.values

/-- The enums in name order. -/
def enumList (c : Catalog) : List EnumType := c.enums.values

/-- The tables in name order. -/
def tables (c : Catalog) : List Table := c.entityList.filterMap Entity.table?

/-- The names that an entity references, itself left out. -/
def referencedNames (e : Entity) : List String :=
  sortedNames ((e.attributes.filterMap fun a => a.shape.referenced?).filter fun n => n != e.name)

/-- The entities of the catalog that an entity references directly, in name order. -/
def dependencies (c : Catalog) (e : Entity) : List Entity :=
  (referencedNames e).filterMap c.entity?

/-- The enums that an entity's attributes name, in name order. -/
def enumDependencies (e : Entity) : List String :=
  sortedNames (e.attributes.filterMap fun a => a.shape.enumName?)

end Catalog

end SchemaGen
