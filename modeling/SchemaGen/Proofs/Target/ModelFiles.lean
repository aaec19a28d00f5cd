import SchemaGen.Proofs.Emission.FirstKeys
import SchemaGen.Proofs.Target.Failures

/-!
# The modules of the models

The host models and the client models render the same kind of files: a module for each entity with the
types that it brings, one for each enum, in the client models also one for the operations of each table, and
a last file that names all of these. The types that entities bring, and the enums, bear different names.

Results:
1. `nodup_declaredNames`: types and enums bear different names.
2. `exists_artifacts`: the types that entities bring.
3. `exists_printed`, `printed_of_render`: the modules that a target renders.
-/

namespace SchemaGen

open Emission

/-- The names of the types that go with an operation: those of its variables and of its result. -/
def Operation.clientTypes (op : Operation) : List String :=
  [Naming.toPascal op.name ++ "Variables", Naming.toPascal op.name ++ "Result"]

/-- These are the names under which the client models write them. -/
theorem ClientModel.exists_line_of_clientTypes (selection : List Selection) (op : Operation) :
    ∀ n ∈ op.clientTypes, ∃ body, "export type " ++ n ++ " = " ++ body ∈ operationLines selection op := by
  have hlines : ∀ line, line ∈
      ["export type " ++ Naming.toPascal op.name ++ "Variables = \x7b input: " ++ op.inputType ++ " \x7d;",
        "export type " ++ Naming.toPascal op.name ++ "Result = \x7b " ++ op.name ++ ": " ++
          op.resultType ++ " \x7d;"] → line ∈ operationLines selection op := by
    intro line hline
    unfold operationLines
    refine List.mem_append_right _ ?_
    iterate 4 refine List.mem_cons_of_mem _ ?_
    exact hline
  intro n hn
  simp only [Operation.clientTypes, List.mem_cons, List.not_mem_nil, or_false] at hn
  rcases hn with rfl | rfl
  · refine ⟨"\x7b input: " ++ op.inputType ++ " \x7d;", hlines _ (List.mem_cons.mpr (.inl ?_))⟩
    rw [show "Variables = \x7b input: " = "Variables" ++ " = " ++ "\x7b input: " from rfl]
    simp only [String.append_assoc]
  · refine ⟨"\x7b " ++ op.name ++ ": " ++ op.resultType ++ " \x7d;",
      hlines _ (List.mem_cons_of_mem _ (List.mem_singleton.mpr ?_))⟩
    rw [show "Result = \x7b " = "Result" ++ " = " ++ "\x7b " from rfl]
    simp only [String.append_assoc]

/-- A module of the models. -/
inductive ModelModule where
  | types (e : Entity) (decls : List TypeDecl)
  | operations (table : Table) (ops : List Operation)
  | enum (e : EnumType)

namespace ModelModule

/-- The file of the module. -/
def file (ext : String) : ModelModule → String
  | types e _ => Naming.modelFile e.name ext
  | operations table _ => Naming.operationsFile table.name ext
  | enum e => Naming.enumFile e.name ext

/-- The names that the module exports. -/
def exports : ModelModule → List String
  | types _ decls => decls.map TypeDecl.name
  | operations _ ops => ops.flatMap fun op => op.name :: op.clientTypes
  | enum e => [e.name]

/-- The text of the module for a target, if the target has such a module. -/
def text? (o : Options) (c : Catalog) : Target → ModelModule → Option String
  | .rust, types e decls =>
    some (HostModel.modelText e.name (imports c decls) (decls.map (HostModel.struct o.docs)))
  | .rust, enum e => (HostModel.enum o.docs e).toOption.map HostModel.enumText
  | .typescript, types _ decls =>
    some (ClientModel.modelText (imports c decls) (decls.map (ClientModel.interface o.docs)))
  | .typescript, operations table ops =>
    some (ClientModel.operationsText table.name (Selection.ofName c table.name) ops)
  | .typescript, enum e => some (ClientModel.enumText e)
  | _, _ => none

end ModelModule

namespace Target

/-- The targets that render models. -/
def models : List Target := [.rust, .typescript]

/-- What the files of the models end with. -/
def extension : Target → String
  | .rust => "rs"
  | _ => "ts"

/-- The tables of whose operations the target has modules. -/
def operationTables (c : Catalog) : Target → List Table
  | .typescript => c.tables
  | _ => []

/-- The modules of the models, where entities bring those types. -/
def modelModules (c : Catalog) (decls : Entity → List TypeDecl) (t : Target) : List ModelModule :=
  (c.entityList.map fun e => .types e (decls e)) ++
    (operationTables c t).map (fun table => .operations table (kept c table)) ++ c.enumList.map .enum

end Target

/-- The modules that the last file of the host models declares, each with its file. -/
def HostModel.declaredModules (c : Catalog) : List (String × String) :=
  (moduleFiles c).map fun file => (file, moduleOf file)

/-- The modules of whose exports the last file of the client models is made. -/
def ClientModel.exportedFiles (c : Catalog) : List String :=
  sortedNames ((c.entityList.map fun e => Naming.modelFile e.name "ts") ++
    (c.tables.map fun table => Naming.operationsFile table.name "ts") ++
    c.enumList.map fun e => Naming.enumFile e.name "ts")

/-- The last file of the models, and its text. -/
def Target.modelIndex (c : Catalog) : Target → String × String
  | .rust => (HostModel.indexFile, HostModel.indexText (HostModel.declaredModules c))
  | _ => (ClientModel.indexFile, ClientModel.indexText (ClientModel.exportedFiles c))

variable {c : Catalog} {o : Options} {t : Target} {r r' : Registry} {files : Files}
  {decls : Entity → List TypeDecl}

/-- The files are the modules of the models, where entities bring those types, and the last file. -/
structure Printed (o : Options) (c : Catalog) (t : Target) (decls : Entity → List TypeDecl)
    (files : Files) : Prop where
  artifacts : ∀ e ∈ c.entityList, Artifact e (decls e)
  names : files.names = t.expectedFiles c
  modules : ∀ m ∈ t.modelModules c decls, ∃ text, m.text? o c t = some text ∧
    files.get? (m.file t.extension) = some text
  index : files.get? (t.modelIndex c).1 = some (t.modelIndex c).2

/-! ## Names -/

section

variable (hc : c.IsSound) (hd : ∀ e ∈ c.entityList, Artifact e (decls e))

include hc hd

/-- A name tells which entity brings the type. -/
theorem nodup_typeNames : (c.entityList.flatMap fun e => (decls e).map TypeDecl.name).Nodup := by
  rw [List.nodup_flatMap]
  refine ⟨fun e he => (hd e he).once, ?_⟩
  refine List.Pairwise.imp_of_mem (fun {e f} he hf hlt n hn hn' => ?_) (ordered_entityList hc)
  have hne := of_mem_modelNames (((hd e he).names n).mp hn)
  have hnf := of_mem_modelNames (((hd f hf).names n).mp hn')
  have hef := hc.eq_of_typeName (hc.entity?_of_mem he) (hc.entity?_of_mem hf) hne hnf
  exact ne_of_lt hlt (congrArg Entity.name hef)

theorem nodup_declaredNames : ((c.entityList.flatMap fun e => (decls e).map TypeDecl.name) ++
    c.enumList.map EnumType.name).Nodup := by
  rw [List.nodup_append]
  refine ⟨nodup_typeNames hc hd, nodup_names_enumList hc, ?_⟩
  rintro n hn _ hm rfl
  obtain ⟨e, he, hn⟩ := List.mem_flatMap.mp hn
  obtain ⟨enum, henum⟩ := (ApiSchema.mem_names_enumList_iff hc).mp hm
  have hnone := hc.enum?_eq_none (hc.entity?_of_mem he) (of_mem_modelNames (((hd e he).names n).mp hn))
  rw [hnone] at henum
  cases henum

end

/-- The enum that a field of an entity's type names is one of the catalog. -/
theorem exists_enum_of_belongs (hc : c.IsSound) {e : Entity} (he : e ∈ c.entityList) {d : TypeDecl}
    (hd : Belongs e d) {f : Field} (hf : f ∈ d.fields) {shape : Shape} (hs : f.type = .shape shape)
    {n : String} (hn : shape.enumName? = some n) : ∃ enum, c.enum? n = some enum := by
  rcases shape_of_belongs hd hf hs with ⟨a, ha, rfl⟩ | rfl | rfl | rfl
  · exact hc.enumerated _ e (hc.entity?_of_mem he) a ha n hn
  all_goals cases hn

/-! ## Files -/

/-- From a registry that is fresh for the target, every entity of the catalog brings its types. -/
theorem exists_artifacts (hc : c.IsSound) (hr : r.IsFresh t) :
    ∃ (decls : Entity → List TypeDecl) (r' : Registry), (∀ e ∈ c.entityList, Artifact e (decls e)) ∧
      ∀ {α : Type} (f : Entity → List TypeDecl → α),
        Emit.collect (fun e => do
          return [f e (Declaration.types (← Emit.fragment c t e .modelArtifact))]) c.entityList r =
            (.ok (c.entityList.map fun e => f e (decls e)), r') :=
  modelArtifacts_declare hc t c.entityList (nodup_names_entityList hc) (fun _ => hc.entity?_of_mem) r
    fun _ _ n _ => hr.types n

/-- Of the inputs of queries that share a name, an entity has brought the one of the first key. -/
theorem brings_of_collected (hc : c.IsSound) (hd : ∀ e ∈ c.entityList, Artifact e (decls e))
    (h : Emit.collect (fun e => do
      return [(e, Declaration.types (← Emit.fragment c t e .modelArtifact))]) c.entityList r =
        (.ok (c.entityList.map fun e => (e, decls e)), r')) :
    ∀ e ∈ c.entityList, ∀ d ∈ decls e, Brings e d := by
  have htold : ∀ e ∈ c.entityList, Only (fun p : Entity × List TypeDecl => ∀ d ∈ p.2, Told c p.1 (.type d))
      (do return [(e, Declaration.types (← Emit.fragment c t e .modelArtifact))]) := by
    intro e he r₁ pairs r₂ h
    obtain ⟨ds, r₃, hds, h⟩ := Emit.bind_eq_ok.mp h
    cases h
    refine List.forall_mem_singleton.mpr fun d hd => ?_
    exact only_fragment hc (hc.entity?_of_mem he) _ r₁ ds _ hds _ (Declaration.mem_types_iff.mp hd)
  intro e he d hmem
  obtain ⟨f, hf, hbrings⟩ := only_collect htold r _ r' h (e, decls e) (List.mem_map_of_mem he) d hmem
  -- the entity that brings a type is told by the name of the type
  rwa [← entity_eq_of_name hc (hc.entity?_of_mem he) hf ((hd e he).belongs d hmem) hbrings.belongs rfl]
    at hbrings

namespace HostModel

/-- The modules that files were given are their own. -/
theorem moduleNames_eq_ok {seen modules : List (String × String)} {files : List String}
    (h : moduleNames seen files = .ok modules) : modules = files.map fun file => (file, moduleOf file) := by
  induction files generalizing seen modules with
  | nil =>
    cases h
    rfl
  | cons file rest ih =>
    rw [moduleNames_cons] at h
    split at h
    · cases h
    · obtain ⟨more, hmore, rfl⟩ := map_eq_ok.mp h
      rw [List.map_cons, ih hmore]

theorem printed_of_made (hc : c.IsSound) (hr : r.IsFresh .rust)
    {models enums modules : List (String × String)} (h : Made o c r models enums modules files) :
    ∃ decls, Printed o c .rust decls files ∧ ∀ e ∈ c.entityList, ∀ d ∈ decls e, Brings e d := by
  obtain ⟨decls, r₁, hartifacts, hrun⟩ := exists_artifacts hc hr
  have hbrings := brings_of_collected hc hartifacts (hrun Prod.mk)
  have hmodels : models = c.entityList.map fun e => (Naming.modelFile e.name "rs",
      modelText e.name (imports c (decls e)) ((decls e).map (struct o.docs))) := by
    have hcollected := congrArg Prod.fst (hrun fun e ds => (Naming.modelFile e.name "rs",
      modelText e.name (imports c ds) (ds.map (struct o.docs))))
    exact Except.ok.inj (h.collected.symm.trans hcollected)
  refine ⟨decls, ⟨hartifacts, ?_, fun m hm => ?_, ?_⟩, hbrings⟩
  · rw [h.eq, NameMap.names_ofList, h.names]
    rfl
  · unfold Target.modelModules at hm
    simp only [Target.operationTables, List.map_nil, List.append_nil, List.mem_append, List.mem_map] at hm
    rcases hm with ⟨e, he, rfl⟩ | ⟨e, he, rfl⟩
    · refine ⟨_, rfl, (h.get?_iff hc).mpr ?_⟩
      rw [hmodels]
      exact List.mem_append_left _ (List.mem_append_left _ (List.mem_map_of_mem he))
    · obtain ⟨file, hfile, hmade⟩ := exists_mem_of_mapM h.worked he
      obtain ⟨enum, henum, rfl⟩ := map_eq_ok.mp hmade
      refine ⟨enumText enum, ?_, (h.get?_iff hc).mpr ?_⟩
      · show (HostModel.enum o.docs e).toOption.map enumText = _
        rw [henum]
        rfl
      · exact List.mem_append_left _ (List.mem_append_right _ hfile)
  · have hindex : files.get? indexFile = some (indexText modules) :=
      (h.get?_iff hc).mpr (List.mem_append_right _ (List.mem_singleton.mpr rfl))
    rw [show modules = declaredModules c from moduleNames_eq_ok h.declared] at hindex
    simpa only [Target.modelIndex] using hindex

end HostModel

namespace ClientModel

theorem printed_of_made (hc : c.IsSound) (hr : r.IsFresh .typescript) {models : List (String × String)}
    {index : String} (h : Made o c r models index files) :
    ∃ decls, Printed o c .typescript decls files ∧ ∀ e ∈ c.entityList, ∀ d ∈ decls e, Brings e d := by
  obtain ⟨decls, r₁, hartifacts, hrun⟩ := exists_artifacts hc hr
  have hbrings := brings_of_collected hc hartifacts (hrun Prod.mk)
  have hmodels : models = c.entityList.map fun e => (Naming.modelFile e.name "ts",
      modelText (imports c (decls e)) ((decls e).map (interface o.docs))) := by
    have hcollected := congrArg Prod.fst (hrun fun e ds => (Naming.modelFile e.name "ts",
      modelText (imports c ds) (ds.map (interface o.docs))))
    exact Except.ok.inj (h.collected.symm.trans hcollected)
  refine ⟨decls, ⟨hartifacts, ?_, fun m hm => ?_, ?_⟩, hbrings⟩
  · rw [h.eq, NameMap.names_ofList, h.names]
    rfl
  · have hprinted : ∃ text, m.text? o c .typescript = some text ∧
        (m.file "ts", text) ∈ models ++ keptFiles c ++ enumFiles c := by
      unfold Target.modelModules at hm
      simp only [Target.operationTables, List.mem_append, List.mem_map] at hm
      rw [hmodels]
      rcases hm with (⟨e, he, rfl⟩ | ⟨table, ht, rfl⟩) | ⟨e, he, rfl⟩
      · exact ⟨_, rfl, List.mem_append_left _ (List.mem_append_left _ (List.mem_map_of_mem he))⟩
      · exact ⟨_, rfl, List.mem_append_left _ (List.mem_append_right _ (List.mem_map_of_mem ht))⟩
      · exact ⟨_, rfl, List.mem_append_right _ (List.mem_map_of_mem he)⟩
    obtain ⟨text, htext, hmem⟩ := hprinted
    exact ⟨text, htext, (h.get?_iff hc).mpr (List.mem_append_left _ hmem)⟩
  · have hindex : files.get? indexFile = some index :=
      (h.get?_iff hc).mpr (List.mem_append_right _ (List.mem_singleton.mpr rfl))
    have hexported : (NameMap.ofList (models ++ keptFiles c ++ enumFiles c)).names = exportedFiles c := by
      rw [NameMap.names_ofList, hmodels]
      unfold keptFiles enumFiles exportedFiles
      simp only [List.map_append, List.map_map]
      rfl
    rw [h.exported, hexported] at hindex
    simpa only [Target.modelIndex] using hindex

end ClientModel

/-- What a target renders, if it renders models, are the modules of the models; of the inputs of queries
that share a name they have the one of the first key. -/
theorem exists_printed (hc : c.IsSound) (ht : t ∈ Target.models) (hr : r.IsFresh t)
    (h : t.render o c r = (.ok files, r')) :
    ∃ decls, Printed o c t decls files ∧ ∀ e ∈ c.entityList, ∀ d ∈ decls e, Brings e d := by
  have hgenerate := Target.generate_of_render h
  simp only [Target.models, List.mem_cons, List.not_mem_nil, or_false] at ht
  rcases ht with rfl | rfl
  · obtain ⟨models, enums, modules, hmade⟩ := (HostModel.generate_made hc hr).2 files r' hgenerate
    exact HostModel.printed_of_made hc hr hmade
  · obtain ⟨models, index, hmade⟩ := (ClientModel.generate_made hc hr).of_eq_ok hgenerate
    exact ClientModel.printed_of_made hc hr hmade

theorem printed_of_render (hc : c.IsSound) (ht : t ∈ Target.models) (hr : r.IsFresh t)
    (h : t.render o c r = (.ok files, r')) : ∃ decls, Printed o c t decls files := by
  obtain ⟨decls, hprinted, -⟩ := exists_printed hc ht hr h
  exact ⟨decls, hprinted⟩

end SchemaGen
