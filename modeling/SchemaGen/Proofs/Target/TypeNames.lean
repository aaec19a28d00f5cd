import SchemaGen.Proofs.Target.ApiClosure
import SchemaGen.Proofs.Target.Operations
import SchemaGen.Proofs.Target.SchemaText
import SchemaGen.Proofs.Target.Separation

/-!
# Names that the API schema defines

A type name of the schema comes from one of four places: an entity of the API with what is generated for
it, an enum, a root type, or a scalar of the API surface. A catalog keeps entities, generated names and
enums apart from one another, and entities from the root types. Nothing keeps enums from the root types,
and nothing keeps entities or enums from the scalars; generated names cannot meet either, since they end
in `Input` or `Response`.

Results:
1. `exists_composed`, `composed_of_definitions`: what a rendered schema is made of.
2. `Composed.names`: the names that it defines.
3. `Composed.readSchema?_eq`, `Composed.readNames?_eq`: what is read from its text.
4. `endsGenerated_of_mem`: how generated names end.
5. `Composed.nodup_iff`, `Composed.mem_iff_of_scalar`: which names are defined twice.
6. `definesOnce_of_render`: what a rendered schema defines.
-/

namespace SchemaGen.ApiSchema

open Emission

variable {c : Catalog} {o : Options} {r r' : Registry} {ds : List Declaration}
  {enums defs : List Definition} {n : String}

/-! ## What a schema is made of -/

/-- Marks of other targets play no part. -/
theorem Collected.of_isFresh {t : Target} {order : List Entity} (h : Collected c t order r ds r')
    (hr : r.IsFresh t) : Collected c t order .empty ds r' := by
  refine ⟨⟨h.types.declared, fun n => ?_, fun _ _ => rfl, h.types.once⟩, fun obj ho hn => ?_, h.own,
    h.references, h.operations⟩
  · rw [h.types.marks n, hr.types n, (Registry.isFresh_empty t).types n]
  · refine (h.walked obj ho hn).imp_left fun hm => ?_
    rw [hr.types] at hm
    cases hm

/-- The declarations of a schema, after which all enums are still free. -/
theorem declarations_ends (hc : c.IsSound) (hr : r.IsFresh .graphql) :
    (declarations c).Ends r fun ds r' =>
      Collected c .graphql (c.entityList.filter Entity.isApiVisible) .empty ds r' ∧
        Declaration.operations ds = c.tables.flatMap (kept c) ∧
          (Emit.collect enumDefinition c.enumList r').1 = c.enumList.mapM ApiSchema.enum := by
  have hvisible : ∀ e ∈ c.entityList.filter Entity.isApiVisible, c.entity? e.name = some e :=
    fun e he => hc.entity?_of_mem (List.mem_filter.mp he).1
  obtain ⟨ds, r', hrun, hcollected⟩ := collect_ends (t := .graphql) hc _ hvisible r
  have hfresh := hcollected.of_isFresh hr
  have hoperations := (declarations_kept hc hr.seen).of_eq_ok hrun
  refine ⟨ds, r', hrun, hfresh, hoperations, enumDefinitions_spec c.enumList ?_ fun enum he => ?_⟩
  · exact (List.nodup_append.mp (nodup_names hc (.refl _) hfresh)).2.1
  · exact hasType_enum hc (.refl _) hfresh he

/-- The definitions of a schema: all enums, the types that the entities of the API bring, and the root
types with what the tables keep. -/
structure Composed (o : Options) (c : Catalog) (ds : List Declaration) (enums defs : List Definition) :
    Prop where
  eq : defs = enums ++ (Declaration.types ds).map (composite o c) ++ roots (Declaration.operations ds)
  enums : c.enumList.mapM ApiSchema.enum = .ok enums
  collected : ∃ r', Collected c .graphql (c.entityList.filter Entity.isApiVisible) .empty ds r'
  operations : Declaration.operations ds = c.tables.flatMap (kept c)

theorem exists_composed (hc : c.IsSound) (hr : r.IsFresh .graphql) (h : definitions o c r = (.ok defs, r')) :
    ∃ ds enums, Composed o c ds enums defs ∧ (declarations c r).1 = .ok ds := by
  obtain ⟨ds, r₁, hds, h⟩ := Emit.bind_eq_ok.mp h
  obtain ⟨enums, r₂, henums, h⟩ := Emit.bind_eq_ok.mp h
  cases h
  obtain ⟨hcollected, hoperations, hspec⟩ := (declarations_ends hc hr).of_eq_ok hds
  rw [henums] at hspec
  exact ⟨ds, enums, ⟨rfl, hspec.symm, ⟨r₁, hcollected⟩, hoperations⟩, congrArg Prod.fst hds⟩

theorem composed_of_definitions (hc : c.IsSound) (hr : r.IsFresh .graphql)
    (h : definitions o c r = (.ok defs, r')) : ∃ ds enums, Composed o c ds enums defs := by
  obtain ⟨ds, enums, hcomposed, -⟩ := exists_composed hc hr h
  exact ⟨ds, enums, hcomposed⟩

/-- The schema is rendered unless an enum has a reserved value. -/
theorem exists_render (hc : c.IsSound) (hr : r.IsFresh .graphql)
    (h : c.enumList.mapM ApiSchema.enum = .ok enums) :
    ∃ files r', Target.render o c .graphql r = (.ok files, r') := by
  obtain ⟨ds, r₁, hds, -, -, hspec⟩ := declarations_ends hc hr
  rw [h] at hspec
  rcases henums : Emit.collect enumDefinition c.enumList r₁ with ⟨fault | all, r₂⟩
  · rw [henums] at hspec
    cases hspec
  · have hdefs : ∃ defs, definitions o c r = (.ok defs, r₂) := by
      unfold definitions
      rw [Emit.bind_of_eq_ok hds, Emit.bind_of_eq_ok henums]
      exact ⟨_, rfl⟩
    obtain ⟨defs, hdefs⟩ := hdefs
    exact Target.exists_render ⟨_, r₂, Emit.bind_of_eq_ok hdefs, rfl⟩

/-! ## Names -/

/-- The definition is that of a root type. -/
def Definition.isRoot : Definition → Bool
  | root _ _ => true
  | _ => false

/-- The names that definitions give to types. -/
def definedNames (defs : List Definition) : List String := defs.filterMap Definition.name?

theorem definedNames_append (as bs : List Definition) :
    definedNames (as ++ bs) = definedNames as ++ definedNames bs := List.filterMap_append

theorem enum_eq_ok {e : EnumType} {d : Definition} (h : ApiSchema.enum e = .ok d) :
    d = .enum e.name e.values := by
  unfold ApiSchema.enum at h
  split at h
  · cases h
  · cases h
    rfl

/-- A definition is that of an enum, of a type that an entity brings, or of a root type, or it is the block that
names the root types. -/
theorem Composed.mem_cases (h : Composed o c ds enums defs) {d : Definition} (hd : d ∈ defs) :
    (∃ e ∈ c.enumList, d = .enum e.name e.values) ∨ (∃ decl ∈ Declaration.types ds, d = composite o c decl) ∨
      (∃ kind ∈ kinds (c.tables.flatMap (kept c)), d = .root kind (ofKind kind (c.tables.flatMap (kept c)))) ∨
        d = .schema (kinds (c.tables.flatMap (kept c))) := by
  rw [h.eq, h.operations, List.mem_append, List.mem_append] at hd
  rcases hd with (hd | hd) | hd
  · obtain ⟨e, he, hdefined⟩ := exists_of_mem_mapM h.enums hd
    exact .inl ⟨e, he, enum_eq_ok hdefined⟩
  · obtain ⟨decl, hdecl, rfl⟩ := List.mem_map.mp hd
    exact .inr (.inl ⟨decl, hdecl, rfl⟩)
  · rcases List.mem_append.mp hd with hd | hd
    · obtain ⟨kind, hkind, rfl⟩ := List.mem_map.mp hd
      exact .inr (.inr (.inl ⟨kind, hkind, rfl⟩))
    · split at hd
      · cases hd
      · exact .inr (.inr (.inr (List.mem_singleton.mp hd)))

theorem definedNames_mapM_enum {all : List EnumType} (h : all.mapM ApiSchema.enum = .ok enums) :
    definedNames enums = all.map EnumType.name := by
  induction all generalizing enums with
  | nil =>
    cases h
    rfl
  | cons e rest ih =>
    rw [List.mapM_cons] at h
    obtain ⟨d, hd, h⟩ := bind_eq_ok.mp h
    obtain ⟨more, hm, h⟩ := bind_eq_ok.mp h
    cases h
    rw [enum_eq_ok hd, List.map_cons, ← ih hm]
    rfl

theorem definedNames_map_composite (decls : List TypeDecl) :
    definedNames (decls.map (composite o c)) = decls.map TypeDecl.name := by
  unfold definedNames
  rw [List.filterMap_map]
  exact congrFun (List.filterMap_eq_map (f := TypeDecl.name)) decls

/-- There are queries and mutations as soon as there is a table, since the first one keeps all that is
its own. -/
theorem kinds_kept (hc : c.IsSound) :
    kinds (c.tables.flatMap (kept c)) = if c.tables.isEmpty then [] else [.query, .mutation] := by
  cases ht : c.tables with
  | nil => rfl
  | cons table rest =>
    have hkept : ∀ op ∈ candidates table, op ∈ kept c table := by
      intro op hop
      refine mem_kept_iff.mpr ⟨hop, fun other ho hlt => ?_⟩
      have hfirst := ordered_tables hc
      rw [ht, List.pairwise_cons] at hfirst
      rw [ht] at ho
      -- no table stands before the first one
      rcases List.mem_cons.mp ho with rfl | ho
      · exact absurd hlt (lt_irrefl _)
      · exact absurd hlt (lt_asymm (hfirst.1 other ho))
    have hkind : ∀ op ∈ candidates table,
        (ofKind op.kind ((table :: rest).flatMap (kept c))).isEmpty = false := by
      intro op hop
      rw [List.isEmpty_eq_false_iff_exists_mem]
      have hm : op ∈ (table :: rest).flatMap (kept c) :=
        List.mem_flatMap.mpr ⟨table, List.mem_cons_self, hkept op hop⟩
      exact ⟨op, List.mem_filter.mpr ⟨hm, beq_self_eq_true _⟩⟩
    have hquery := hkind (queryOperation table ⟨[table.partition], none, none⟩)
      (mem_candidates_iff.mpr (.inr ⟨_, List.mem_cons_self, rfl⟩))
    have hmutation := hkind (itemOperation table "create" (Naming.createInput table.name))
      List.mem_cons_self
    show [OperationKind.query, .mutation].filter _ = [.query, .mutation]
    refine List.filter_eq_self.mpr fun kind _ => ?_
    cases kind with
    | query => exact congrArg Bool.not hquery
    | mutation => exact congrArg Bool.not hmutation

/-- Enums and types are no root types. -/
theorem Composed.isRoot_eq_false (h : Composed o c ds enums defs) {d : Definition}
    (hd : d ∈ enums ++ (Declaration.types ds).map (composite o c)) : d.isRoot = false := by
  rcases List.mem_append.mp hd with hd | hd
  · obtain ⟨e, -, he⟩ := exists_of_mem_mapM h.enums hd
    rw [enum_eq_ok he]
    rfl
  · obtain ⟨decl, -, rfl⟩ := List.mem_map.mp hd
    rfl

/-- The names of a schema, those of the root types apart from the others. -/
theorem Composed.names (hc : c.IsSound) (h : Composed o c ds enums defs) :
    definedNames (defs.filter fun d => !d.isRoot) = c.enumList.map EnumType.name ++ typeNames ds ∧
      definedNames (defs.filter Definition.isRoot) =
        if c.tables.isEmpty then [] else Corpus.reservedNames := by
  rw [h.eq, h.operations]
  constructor
  · have hroots : definedNames ((roots (c.tables.flatMap (kept c))).filter fun d => !d.isRoot) = [] := by
      unfold roots
      rw [kinds_kept hc]
      cases c.tables <;> rfl
    have hall : (enums ++ (Declaration.types ds).map (composite o c)).filter (fun d => !d.isRoot) =
        enums ++ (Declaration.types ds).map (composite o c) :=
      List.filter_eq_self.mpr fun d hd => by
        rw [h.isRoot_eq_false hd]
        rfl
    rw [List.filter_append, hall, definedNames_append, hroots, List.append_nil, definedNames_append,
      definedNames_mapM_enum h.enums, definedNames_map_composite]
    rfl
  · have hnone : (enums ++ (Declaration.types ds).map (composite o c)).filter Definition.isRoot = [] :=
      List.filter_eq_nil_iff.mpr fun d hd => by
        rw [h.isRoot_eq_false hd]
        exact Bool.false_ne_true
    rw [List.filter_append, hnone, List.nil_append]
    unfold roots
    rw [kinds_kept hc]
    cases c.tables <;> rfl

/-! ## The text of a schema -/

theorem isIdentifier_inputReference (hn : IsIdentifier n) : IsIdentifier (inputReference c n) := by
  unfold inputReference
  split
  · exact hn.append (by decide)
  · decide
  · exact hn

theorem isWord_mapShape {shape : Shape}
    (h : ∀ n, shape.enumName? = some n ∨ shape.referenced? = some n → IsIdentifier n) :
    IsWord (Surface.api.mapShape shape) := by
  have hscalar : ∀ s, IsWord (Surface.api.scalar s) := fun s => by cases s <;> decide
  cases shape with
  | scalar s => exact hscalar s
  | enum name values => exact isWord_of_isIdentifier (h name (.inl rfl))
  | scalarArray s => exact (IsWord.append (l := "[") (by decide) (hscalar s)).append (by decide)
  | referenceArray name =>
    exact (IsWord.append (l := "[") (by decide) (isWord_of_isIdentifier (h name (.inr rfl)))).append (by decide)
  | reference name => exact isWord_of_isIdentifier (h name (.inr rfl))

/-- The type of a field is made from the name that it refers to. -/
theorem isWord_fieldType {f : Field} (h : f.WellNamed) (role : TypeRole) : IsWord (fieldType c role f) := by
  have hinput : ∀ shape, (∀ n, shape.enumName? = some n ∨ shape.referenced? = some n → IsIdentifier n) →
      IsWord (inputType c shape) := by
    intro shape hshape
    cases shape with
    | reference name => exact isWord_of_isIdentifier (isIdentifier_inputReference (hshape name (.inr rfl)))
    | referenceArray name =>
      exact (IsWord.append (l := "[") (by decide)
        (isWord_of_isIdentifier (isIdentifier_inputReference (hshape name (.inr rfl))))).append (by decide)
    | _ => exact isWord_mapShape hshape
  have hbase : IsWord (baseType c role f.type) := by
    cases htype : f.type with
    | integer =>
      show IsWord Surface.api.integer
      decide
    | shape shape =>
      cases role with
      | input => exact hinput shape (h.type shape htype)
      | object => exact isWord_mapShape (h.type shape htype)
  unfold fieldType
  split
  · exact hbase.append (by decide)
  · exact hbase

/-- What a schema is written with are names and types made from names. -/
theorem Composed.wellNamed (hc : c.IsSound) (hn : c.IsNamed) (h : Composed o c ds enums defs) :
    ∀ d ∈ defs, d.WellNamed := by
  intro d hd
  rcases h.mem_cases hd with ⟨e, he, rfl⟩ | ⟨decl, hdecl, rfl⟩ | ⟨kind, -, rfl⟩ | rfl
  · refine ⟨isIdentifier_of_isTypeName (hc.isTypeName_enum he), fun value hvalue => ?_⟩
    exact ⟨hn.values e he value hvalue, fun hempty => hn.spelled e he (hempty ▸ hvalue)⟩
  · obtain ⟨r', hcollected⟩ := h.collected
    obtain ⟨e, he, hbelongs⟩ := belongs_of_mem (.refl _) hcollected hdecl
    have hwell := wellNamed_of_belongs hc hn (hc.entities.mem_values_iff.mpr ⟨_, he.entity? hc⟩) hbelongs
    refine ⟨hwell.name, List.forall_mem_map.mpr fun f hf => ?_⟩
    exact ⟨(hwell.fields f hf).name, isWord_fieldType (hwell.fields f hf) decl.role⟩
  · intro op hop
    obtain ⟨table, ht, hkept⟩ := List.mem_flatMap.mp (List.mem_of_mem_filter hop)
    refine wellNamed_of_mem_candidates ?_ (mem_kept_iff.mp hkept).1
    exact isIdentifier_entity hc (c.mem_entityList_of_mem_tables ht)
  · trivial

/-- Without descriptions there are none that cannot be closed. -/
theorem Composed.allClose (h : Composed o c ds enums defs) (hclose : o.docs = true → AllClose defs) :
    AllClose defs := by
  cases hdocs : o.docs with
  | true => exact hclose hdocs
  | false =>
    have hnone : ∀ text, describeIf o.docs text = none := fun text => by rw [hdocs]; rfl
    intro d hd text htext
    rcases h.mem_cases hd with ⟨e, -, rfl⟩ | ⟨decl, -, rfl⟩ | ⟨kind, -, rfl⟩ | rfl
    · cases htext
    · simp [composite, field, Definition.descriptions, hnone] at htext
    · cases htext
    · cases htext

/-- The definitions are read back from the text of the schema. -/
theorem Composed.readSchema?_eq (hc : c.IsSound) (hn : c.IsNamed) (h : Composed o c ds enums defs)
    (hclose : o.docs = true → AllClose defs) :
    readSchema? (schemaText o.generatedAt defs) = some (defs.map Definition.outline) :=
  readSchema?_schemaText (h.wellNamed hc hn) (h.allClose hclose) o.generatedAt

theorem name_outline (d : Definition) : d.outline.name = d.name? := by cases d <;> rfl

/-- The names that are read from the text of a schema. -/
def readNames? (text : String) : Option (List String) :=
  (readSchema? text).map fun outlines => outlines.filterMap Outline.name

theorem Composed.readNames?_eq (hc : c.IsSound) (hn : c.IsNamed) (h : Composed o c ds enums defs)
    (hclose : o.docs = true → AllClose defs) :
    readNames? (schemaText o.generatedAt defs) = some (definedNames defs) := by
  unfold readNames? definedNames
  rw [h.readSchema?_eq hc hn hclose, Option.map_some, List.filterMap_map]
  exact congrArg some (List.filterMap_congr fun d _ => name_outline d)

/-! ## Fixed names -/

/-- The scalar types that the surface of the API writes. -/
def scalarNames : List String :=
  Surface.api.integer :: [Scalar.string, .number, .boolean, .object, .timestamp].map Surface.api.scalar

/-- The surface writes no other scalars, by themselves or in a list. -/
theorem prints_scalar (s : Scalar) : ∃ n ∈ scalarNames, Prints (Surface.api.scalar s) n := by
  unfold Prints
  cases s <;> decide

example : scalarNames = ["Int", "String", "Float", "Boolean", "AWSJSON", "AWSDateTime"] := rfl

/-- The name ends like those that are generated for entities. -/
def EndsGenerated (n : String) : Prop :=
  "Input".toList <:+ n.toList ∨ "Response".toList <:+ n.toList

instance (n : String) : Decidable (EndsGenerated n) := by unfold EndsGenerated; infer_instance

theorem endsGenerated_of_mem {e : Entity} (h : n ∈ Corpus.generatedNames e) : EndsGenerated n := by
  cases e with
  | object obj =>
    rw [List.mem_singleton.mp h]
    exact .inl (Naming.suffix_append _ _)
  | table table =>
    rcases List.mem_append.mp h with h | h
    · simp only [List.mem_cons, List.not_mem_nil, or_false] at h
      rcases h with rfl | rfl | rfl | rfl | rfl
      · exact .inl (Naming.suffix_append _ _)
      · exact .inl (Naming.suffix_append _ _)
      · exact .inl (Naming.suffix_append _ _)
      · exact .inr (Naming.suffix_append _ _)
      · exact .inr (List.IsSuffix.trans (by decide) (Naming.suffix_append _ "ListResponse"))
    · obtain ⟨key, -, rfl⟩ := List.mem_map.mp h
      exact .inl (Naming.suffix_append _ _)

/-! ## Names that are defined twice -/

theorem mem_names_enumList_iff (hc : c.IsSound) :
    n ∈ c.enumList.map EnumType.name ↔ ∃ e, c.enum? n = some e := by
  rw [names_enumList hc]
  exact hc.enums.mem_names_iff

/-- The names of a schema, by where they come from. -/
theorem Composed.names_perm (hc : c.IsSound) (h : Composed o c ds enums defs) :
    (definedNames defs).Perm (c.enumList.map EnumType.name ++ typeNames ds ++
      if c.tables.isEmpty then [] else Corpus.reservedNames) := by
  obtain ⟨hown, hroots⟩ := h.names hc
  rw [← hown, ← hroots, ← definedNames_append]
  refine List.Perm.filterMap _ ?_
  exact (List.filter_append_perm Definition.isRoot defs).symm.trans List.perm_append_comm

theorem Composed.nodup_own (hc : c.IsSound) (h : Composed o c ds enums defs) :
    (c.enumList.map EnumType.name ++ typeNames ds).Nodup := by
  obtain ⟨r', hcollected⟩ := h.collected
  exact List.nodup_append_comm.mp (nodup_names hc (.refl _) hcollected)

/-- A name of a type is that of an entity of the API or was generated for one. -/
theorem Composed.mem_typeNames_iff (hc : c.IsSound) (h : Composed o c ds enums defs) :
    n ∈ typeNames ds ↔ ∃ e, InApi c e ∧ (n = e.name ∨ n ∈ Corpus.generatedNames e) := by
  obtain ⟨r', hcollected⟩ := h.collected
  exact ApiSchema.mem_typeNames_iff hc (.refl _) hcollected

/-- Entities do not bear the names of the root types, and generated names end otherwise. -/
theorem Composed.not_mem_typeNames (hc : c.IsSound) (h : Composed o c ds enums defs)
    (hn : n ∈ Corpus.reservedNames) : n ∉ typeNames ds := by
  intro hm
  obtain ⟨e, he, rfl | hg⟩ := (h.mem_typeNames_iff hc).mp hm
  · exact hc.unreserved _ e (he.entity? hc) hn
  · have hends : ∀ n ∈ Corpus.reservedNames, ¬ EndsGenerated n := by decide
    exact hends n hn (endsGenerated_of_mem hg)

/-- What meets is an enum and a root type that is there. -/
theorem Composed.nodup_iff (hc : c.IsSound) (h : Composed o c ds enums defs) :
    (definedNames defs).Nodup ↔ c.tables = [] ∨ ∀ n ∈ Corpus.reservedNames, c.enum? n = none := by
  rw [(h.names_perm hc).nodup_iff]
  cases ht : c.tables with
  | nil =>
    rw [List.isEmpty_nil, if_pos rfl, List.append_nil]
    exact ⟨fun _ => .inl rfl, fun _ => h.nodup_own hc⟩
  | cons table rest =>
    rw [List.isEmpty_cons, if_neg Bool.false_ne_true, List.nodup_append]
    constructor
    · rintro ⟨-, -, hdisjoint⟩
      refine .inr fun n hn => Option.eq_none_iff_forall_ne_some.mpr fun e he => ?_
      have hm := (mem_names_enumList_iff hc).mpr ⟨e, he⟩
      exact hdisjoint n (List.mem_append_left _ hm) n hn rfl
    · rintro (hnone | hfree)
      · cases hnone
      · refine ⟨h.nodup_own hc, by decide, ?_⟩
        rintro n hm _ hn rfl
        rcases List.mem_append.mp hm with hm | hm
        · obtain ⟨e, he⟩ := (mem_names_enumList_iff hc).mp hm
          rw [hfree n hn] at he
          cases he
        · exact h.not_mem_typeNames hc hn hm

/-- A scalar is neither a root type nor named like what is generated. -/
theorem Composed.mem_iff_of_scalar (hc : c.IsSound) (h : Composed o c ds enums defs)
    (hn : n ∈ scalarNames) : n ∈ definedNames defs ↔
      (∃ e, InApi c e ∧ e.name = n) ∨ ∃ e, c.enum? n = some e := by
  rw [(h.names_perm hc).mem_iff, List.mem_append, List.mem_append, mem_names_enumList_iff hc,
    h.mem_typeNames_iff hc]
  constructor
  · rintro ((he | ⟨e, he, rfl | hg⟩) | hroot)
    · exact .inr he
    · exact .inl ⟨e, he, rfl⟩
    · have hends : ∀ n ∈ scalarNames, ¬ EndsGenerated n := by decide
      exact absurd (endsGenerated_of_mem hg) (hends n hn)
    · have hapart : ∀ n ∈ scalarNames, n ∉ Corpus.reservedNames := by decide
      split at hroot
      · cases hroot
      · exact absurd hroot (hapart n hn)
  · rintro (⟨e, he, rfl⟩ | he)
    · exact .inl (.inr ⟨e, he, .inl rfl⟩)
    · exact .inl (.inl he)

/-- The names that a schema defines. Enums, types and inputs bear different ones, and the root types are
there as soon as there is a table. So a name is defined twice just where an enum bears that of a root
type that is there; and a scalar is defined only as an entity or an enum of its name. -/
structure DefinesOnce (c : Catalog) (defs : List Definition) : Prop where
  own : (definedNames (defs.filter fun d => !d.isRoot)).Nodup
  roots : definedNames (defs.filter Definition.isRoot) =
    if c.tables.isEmpty then [] else Corpus.reservedNames
  once : (definedNames defs).Nodup ↔ c.tables = [] ∨ ∀ n ∈ Corpus.reservedNames, c.enum? n = none
  scalars : ∀ n ∈ scalarNames, n ∈ definedNames defs ↔
    (∃ e, InApi c e ∧ e.name = n) ∨ ∃ e, c.enum? n = some e

theorem definesOnce_of_composed (hc : c.IsSound) (h : Composed o c ds enums defs) : DefinesOnce c defs where
  own := (h.names hc).1 ▸ h.nodup_own hc
  roots := (h.names hc).2
  once := h.nodup_iff hc
  scalars := fun _ => h.mem_iff_of_scalar hc

/-- What the rendered schema of a catalog made from parsed documents defines. A reader of its text finds the
names, unless there are descriptions that cannot be closed. -/
theorem definesOnce_of_render {corpus : Corpus} (hp : corpus.IsParsed) (h : corpus.catalog = .ok c)
    (hr : r.IsFresh .graphql) {files : Files}
    (hrender : Target.render o c .graphql r = (.ok files, r')) :
    ∃ defs, definitions o c r = (.ok defs, r') ∧
      files = NameMap.ofList [(schemaFile, schemaText o.generatedAt defs)] ∧ DefinesOnce c defs ∧
        ((o.docs = true → AllClose defs) →
          readNames? (schemaText o.generatedAt defs) = some (definedNames defs)) := by
  have hc := Corpus.isSound_of_catalog hp h
  obtain ⟨defs, r₁, hdefs, hfiles⟩ := Emit.bind_eq_ok.mp (Target.generate_of_render hrender)
  cases hfiles
  obtain ⟨ds, enums, hcomposed⟩ := composed_of_definitions hc hr hdefs
  exact ⟨defs, hdefs, rfl, definesOnce_of_composed hc hcomposed,
    hcomposed.readNames?_eq hc (Corpus.isNamed_of_catalog hp h)⟩

/-- The sources of a table and of enums that bear the names of a root type and of a scalar. -/
def rootedSource : List String :=
  ["name: Order", "kind: table", "version: 1", "model:", "  keys: {primary: {partition: id}}",
    "  attributes: [{name: id, type: string}]"]

def rootedEnums : List String := ["Query: [OPEN]", "String: [SHORT]"]

/-- The documents that these sources are parsed to. -/
def rooted : Corpus :=
  ⟨[⟨⟨"Order.yml"⟩, "Order", none,
      .table ⟨"1", "id", none, none, [⟨"id", .scalar .string, false, none, none⟩]⟩⟩],
    [⟨⟨"enums.yml"⟩, "Query", ["OPEN"]⟩, ⟨⟨"enums.yml"⟩, "String", ["SHORT"]⟩]⟩

theorem rooted_isParsed : rooted.IsParsed := by
  have henums : EnumDoc.parseAll ⟨"enums.yml"⟩ (Text.unlines rootedEnums) = .ok rooted.enums := by
    decide +kernel
  exact Corpus.isParsed_of_mapM (s := [(⟨"Order.yml"⟩, rootedSource)]) (by decide +kernel)
    (.inr ⟨_, _, henums⟩)

/-- The catalog of these documents. -/
def rootedCatalog : Catalog := rooted.catalog.toOption.getD .empty

theorem catalog_rooted : rooted.catalog = .ok rootedCatalog := by decide +kernel

theorem exists_render_rooted (o : Options) :
    ∃ files r', Target.render o rootedCatalog .graphql .empty = (.ok files, r') := by
  have henums : rootedCatalog.enumList.mapM ApiSchema.enum =
      .ok [.enum "Query" ["OPEN"], .enum "String" ["SHORT"]] := by decide +kernel
  exact exists_render (Corpus.isSound_of_catalog rooted_isParsed catalog_rooted)
    (Registry.isFresh_empty _) henums

theorem definesOnce_of_render_rooted :
    rooted.IsParsed ∧ rooted.catalog = .ok rootedCatalog ∧ Registry.IsFresh .graphql .empty ∧
      ∀ o, ∃ files r', Target.render o rootedCatalog .graphql .empty = (.ok files, r') ∧
        ∃ defs, definitions o rootedCatalog .empty = (.ok defs, r') ∧
          files = NameMap.ofList [(schemaFile, schemaText o.generatedAt defs)] ∧
            DefinesOnce rootedCatalog defs ∧ ((o.docs = true → AllClose defs) →
              readNames? (schemaText o.generatedAt defs) = some (definedNames defs)) := by
  have hfresh := Registry.isFresh_empty .graphql
  refine ⟨rooted_isParsed, catalog_rooted, hfresh, fun o => ?_⟩
  obtain ⟨files, r', hrender⟩ := exists_render_rooted o
  exact ⟨files, r', hrender, definesOnce_of_render rooted_isParsed catalog_rooted hfresh hrender⟩

/-- The schema of these documents defines `Query` both as an enum and as a root type, and the scalar
`String` as an enum. -/
theorem exists_name_defined_twice : rooted.IsParsed ∧ rooted.catalog = .ok rootedCatalog ∧
    ∀ o, ∃ files r', Target.render o rootedCatalog .graphql .empty = (.ok files, r') ∧
      ∃ defs, definitions o rootedCatalog .empty = (.ok defs, r') ∧
        files = NameMap.ofList [(schemaFile, schemaText o.generatedAt defs)] ∧
          ¬ (definedNames defs).Nodup ∧ "String" ∈ scalarNames ∧ "String" ∈ definedNames defs ∧
            ((o.docs = true → AllClose defs) →
              readNames? (schemaText o.generatedAt defs) = some (definedNames defs)) := by
  refine ⟨rooted_isParsed, catalog_rooted, fun o => ?_⟩
  obtain ⟨files, r', hrender⟩ := exists_render_rooted o
  obtain ⟨defs, r₁, hdefs, hfiles⟩ := Emit.bind_eq_ok.mp (Target.generate_of_render hrender)
  cases hfiles
  have hc := Corpus.isSound_of_catalog rooted_isParsed catalog_rooted
  obtain ⟨ds, enums, hcomposed⟩ := composed_of_definitions hc (Registry.isFresh_empty _) hdefs
  have honce := definesOnce_of_composed hc hcomposed
  have hquery : rootedCatalog.enum? "Query" = some ⟨"Query", ["OPEN"]⟩ := by decide +kernel
  have hstring : rootedCatalog.enum? "String" = some ⟨"String", ["SHORT"]⟩ := by decide +kernel
  refine ⟨_, r', hrender, defs, hdefs, rfl, fun hnodup => ?_, by decide,
    (honce.scalars "String" (by decide)).mpr (.inr ⟨_, hstring⟩),
    hcomposed.readNames?_eq hc (Corpus.isNamed_of_catalog rooted_isParsed catalog_rooted)⟩
  rcases honce.once.mp hnodup with ht | hfree
  · exact absurd ht (by decide +kernel)
  · rw [hfree "Query" List.mem_cons_self] at hquery
    cases hquery

end SchemaGen.ApiSchema
