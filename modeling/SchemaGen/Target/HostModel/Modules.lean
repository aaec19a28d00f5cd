import SchemaGen.Target.HostModel.Printer

/-!
# Files of the host models

One file for each entity and each enum, and one that declares them all as modules.
-/

namespace SchemaGen.HostModel

/-- The file that declares all others as modules. -/
def indexFile : String := "mod.rs"

/-- The files that a catalog calls for. -/
def expectedFiles (c : Catalog) : List String :=
  (c.entityList.map fun e => Naming.modelFile e.name "rs") ++
    (c.enumList.map fun e => Naming.enumFile e.name "rs") ++ [indexFile]

/-- The files with their modules; `seen` holds the modules before, each with its file. -/
def moduleNames (seen : List (String × String)) : List String → Except RenderFault (List (String × String))
  | [] => .ok []
  | file :: rest =>
    let module := Naming.hostModule (fileStem file)
    match seen.lookup module with
    | some other => .error (.sharedModule (fileStem file) module other file)
    | none => (moduleNames ((module, file) :: seen) rest).map fun more => (file, module) :: more

/-- The file of an entity. -/
def modelFile (o : Options) (c : Catalog) (e : Entity) : Emit (List (String × String)) := do
  let decls := Declaration.types (← Emit.fragment c .rust e .modelArtifact)
  return [(Naming.modelFile e.name "rs", modelText e.name (imports c decls) (decls.map (struct o.docs)))]

/-- The file of an enum, unless its name is taken. -/
def enumFile (o : Options) (e : EnumType) : Emit (List (String × String)) := do
  if ← Emit.mark .rust e.name then
    let enum ← Emit.ofExcept (enum o.docs e)
    return [(Naming.enumFile e.name "rs", enumText enum)]
  else return []

/-- The files of the target. -/
def generate (o : Options) (c : Catalog) : Emit Files := do
  let models ← Emit.collect (modelFile o c) c.entityList
  let enums ← Emit.collect (enumFile o) c.enumList
  let files := NameMap.ofList (models ++ enums)
  let modules ← Emit.ofExcept (moduleNames [] files.names)
  return files.insert indexFile (indexText modules)

theorem lookup_eq_none_iff_not_mem (seen : List (String × String)) (m : String) :
    seen.lookup m = none ↔ m ∉ seen.map Prod.fst := by
  induction seen with
  | nil => simp
  | cons p rest ih =>
    by_cases h : m = p.1
    · simp [h]
    · rw [List.lookup_cons, beq_eq_false_iff_ne.mpr h]
      simp only [List.map_cons, List.mem_cons, h, false_or]
      exact ih

end SchemaGen.HostModel
