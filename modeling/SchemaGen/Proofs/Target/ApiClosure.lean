import SchemaGen.Proofs.Emission.Fragments
import SchemaGen.Target.ApiSchema.Schema

/-!
# Closure of the API schema

The schema is rendered from the visible entities one after another, in any order. Whatever the order,
it declares once each type of each entity that a visible one reaches by references, and no other type;
so whatever a declared type or operation names is declared in the same schema.

The fragments of the entities interleave: a walk skips what an earlier entity has marked, and an entity
skips what an earlier walk has marked. That nothing is missed at the end follows from three facts that
are kept throughout (`Collected`): the marks are the names of what was declared, every object type that
was marked is done, and the entities rendered so far have marked all that is theirs.

Results:
1. `collect_ends`: what the visible entities declare in any order.
2. `hasType_of_inApi`: everything of a reached entity is marked.
3. `enumDefinitions_spec`: every enum is defined once the types are declared.
4. `definitions_closed`: the schema is closed.
-/

namespace SchemaGen.ApiSchema

open Emission

variable {c : Catalog} {t : Target} {e f : Entity} {order : List Entity} {r r' : Registry}
  {ds : List Declaration} {d : TypeDecl}

/-! ## The entities of the API -/

/-- A visible entity reaches the entity by references. -/
def InApi (c : Catalog) (e : Entity) : Prop :=
  ∃ v ∈ c.entityList, v.isApiVisible = true ∧ Relation.ReflTransGen c.Refers v e

theorem InApi.refers (h : InApi c e) (hr : c.Refers e f) : InApi c f := by
  obtain ⟨v, hv, hvis, hpath⟩ := h
  exact ⟨v, hv, hvis, hpath.tail hr⟩

theorem InApi.entity? (h : InApi c e) (hc : c.IsSound) : c.entity? e.name = some e := by
  obtain ⟨v, hv, -, hpath⟩ := h
  cases hpath with
  | refl => exact hc.entity?_of_mem hv
  | tail _ hr => exact hr.entity? hc

/-- A table is visible by itself. -/
theorem inApi_table {table : Table} (h : .table table ∈ c.entityList) : InApi c (.table table) :=
  ⟨_, h, rfl, .refl⟩

/-! ## Rendering the visible entities -/

/-- What the rendering of some entities has done. -/
structure Collected (c : Catalog) (t : Target) (order : List Entity) (r : Registry)
    (ds : List Declaration) (r' : Registry) : Prop where
  types : TypeMarks t (fun d => ∃ e ∈ order, Belongs e d ∨ From c e d) r
    ((Declaration.types ds).map .type) r'
  walked : Walked c t r r'
  own : ∀ e ∈ order, ∀ n, n = e.name ∨ n ∈ Corpus.generatedNames e → r'.hasType t n = true
  references : ∀ e ∈ order, ∀ p, c.Refers e (.object p) → r'.hasType t p.name = true
  operations : ∀ op ∈ Declaration.operations ds, ∃ e ∈ order, op ∈ callsFor e

theorem Collected.nil (r : Registry) : Collected c t [] r [] r :=
  ⟨.of_types_eq rfl, .refl r, by simp, by simp, by simp [Declaration.operations]⟩

/-- An entity and then others: the operations of the first change no mark of a type. -/
theorem Collected.cons {r₁ r₂ : Registry} {types ops rest : List Declaration}
    (h₁ : Entered c t e r types r₁) (hops : OperationStep t (callsFor e) r₁ ops r₂)
    (h₂ : Collected c t order r₂ rest r') : Collected c t (e :: order) r (types ++ ops ++ rest) r' := by
  have hmarks : ∀ n, r₁.hasType t n = true → r'.hasType t n = true := fun n hn =>
    h₂.types.mark ((hops.hasType_eq n).trans hn)
  have htypes : (Declaration.types (types ++ ops ++ rest)).map Declaration.type =
      types ++ [] ++ (Declaration.types rest).map .type := by
    rw [Declaration.types_append, Declaration.types_append, hops.types_eq_nil, List.append_nil,
      List.map_append, h₁.step.map_types, List.append_nil]
  constructor
  case types =>
    rw [htypes]
    have hfirst := (h₁.step.toTypeMarks.append (.of_types_eq hops.types))
    refine (hfirst.mono fun d hd => ⟨e, List.mem_cons_self, hd⟩).append (h₂.types.mono fun d hd => ?_)
    obtain ⟨f, hf, hd⟩ := hd
    exact ⟨f, List.mem_cons_of_mem _ hf, hd⟩
  case walked =>
    have hsame : Walked c t r₁ r₂ := fun o _ hn => .inl ((hops.hasType_eq o.name).symm.trans hn)
    have hfirst := h₁.walked.trans hsame fun n hn => (hops.hasType_eq n).trans hn
    exact hfirst.trans h₂.walked fun n hn => h₂.types.mark hn
  case own =>
    intro f hf n hn
    rcases List.mem_cons.mp hf with rfl | hf
    · exact hmarks n (h₁.own n hn)
    · exact h₂.own f hf n hn
  case references =>
    intro f hf p hp
    rcases List.mem_cons.mp hf with rfl | hf
    · exact hmarks _ (h₁.references p hp)
    · exact h₂.references f hf p hp
  case operations =>
    intro op hop
    rw [Declaration.operations_append, Declaration.operations_append, h₁.step.operations_eq_nil,
      List.nil_append, List.mem_append] at hop
    rcases hop with hop | hop
    · exact ⟨e, List.mem_cons_self, hops.mem_of_mem_operations hop⟩
    · obtain ⟨f, hf, hm⟩ := h₂.operations op hop
      exact ⟨f, List.mem_cons_of_mem _ hf, hm⟩

/-- The entities of a sound catalog are rendered in any order. -/
theorem collect_ends (hc : c.IsSound) (order : List Entity)
    (h : ∀ e ∈ order, c.entity? e.name = some e) (r : Registry) :
    (Emit.collect (fun e => Emit.fragment c t e .apiSchemaEntity) order).Ends r
      (Collected c t order r) := by
  induction order generalizing r with
  | nil => exact ⟨[], r, rfl, .nil r⟩
  | cons e rest ih =>
    obtain ⟨_, r₂, hx, types, ops, r₁, rfl, hentered, hops⟩ :=
      apiSchemaEntity_ends (t := t) hc (h e List.mem_cons_self) r
    obtain ⟨more, r', hy, hcollected⟩ := ih (fun f hf => h f (List.mem_cons_of_mem _ hf)) r₂
    exact ⟨_, r', Emit.collect_cons_eq_ok.mpr ⟨_, _, _, hx, hy, rfl⟩, .cons hentered hops hcollected⟩

/-- When the visible entities were rendered from a fresh registry, everything of an entity that one of
them reaches is marked. -/
theorem hasType_of_inApi (hc : c.IsSound) (h : Collected c t order .empty ds r')
    (ho : order.Perm (c.entityList.filter Entity.isApiVisible)) (he : InApi c e) :
    (∀ n, n = e.name ∨ n ∈ Corpus.generatedNames e → r'.hasType t n = true) ∧
      ∀ p, c.Refers e (.object p) → r'.hasType t p.name = true := by
  have hvisible : ∀ v ∈ c.entityList, v.isApiVisible = true → v ∈ order := fun v hv hvis =>
    ho.mem_iff.mpr (List.mem_filter.mpr ⟨hv, hvis⟩)
  obtain ⟨v, hv, hvis, hpath⟩ := he
  -- the induction is on the path from the visible entity
  induction hpath with
  | refl => exact ⟨h.own v (hvisible v hv hvis), h.references v (hvisible v hv hvis)⟩
  | @tail e f hpath hr ih =>
    have hf := hr.entity? hc
    cases f with
    | table table =>
      have hm := hvisible _ (hc.entities.mem_values_iff.mpr ⟨_, hf⟩) rfl
      exact ⟨h.own _ hm, h.references _ hm⟩
    | object o =>
      have hn := ih.2 o hr
      rcases h.walked o hf hn with hempty | hdone
      · cases hempty
      · refine ⟨fun n hmem => ?_, hdone.references⟩
        rcases hmem with rfl | hmem
        · exact hn
        · rw [List.mem_singleton.mp hmem]
          exact hdone.variant

/-! ## Enums -/

theorem names_enumList (hc : c.IsSound) : c.enumList.map EnumType.name = c.enums.names :=
  hc.enums.map_values hc.enum_name

/-- Enums whose names are free and tell them apart are all defined, unless one of them has a reserved
value. -/
theorem enumDefinitions_spec (enums : List EnumType) (hn : (enums.map EnumType.name).Nodup)
    (hf : ∀ enum ∈ enums, r.hasType .graphql enum.name = false) :
    (Emit.collect enumDefinition enums r).1 = enums.mapM ApiSchema.enum := by
  have hall := Emit.fst_collect_ifFree (x := ApiSchema.enum) (f := fun _ definition => definition) enums hn hf
  refine hall.trans ?_
  congr 1
  funext enum
  cases ApiSchema.enum enum <;> rfl

/-! ## Closure -/

/-- The names of the declared types. -/
def typeNames (ds : List Declaration) : List String := (Declaration.types ds).map TypeDecl.name

/-- A field of a declared type has the shape. -/
def HasField (ds : List Declaration) (shape : Shape) : Prop :=
  ∃ d ∈ Declaration.types ds, ∃ field ∈ d.fields, field.type = .shape shape

/-- The text is the name of a type, or that of a list of it. -/
def Prints (text name : String) : Prop := text = name ∨ text = "[" ++ name ++ "]"

/-- A reference is written by the name of the entity, and inside an input by what stands for it there. -/
theorem prints_of_referenced {shape : Shape} {n : String} (hn : shape.referenced? = some n) :
    Prints (Surface.api.mapShape shape) n ∧ Prints (inputType c shape) (inputReference c n) := by
  cases shape with
  | reference m =>
    cases hn
    exact ⟨.inl rfl, .inl rfl⟩
  | referenceArray m =>
    cases hn
    exact ⟨.inr rfl, .inr rfl⟩
  | _ => cases hn

/-- The schema of a catalog is closed. With the enums, no name is declared twice; the declared types are
those of the entities of the API, and what fields and operations name is declared. -/
structure Closed (c : Catalog) (ds : List Declaration) : Prop where
  once : (typeNames ds ++ c.enumList.map EnumType.name).Nodup
  belongs : ∀ d ∈ Declaration.types ds, ∃ e, InApi c e ∧ Belongs e d
  own : ∀ e, InApi c e → ∀ d ∈ ownDecls e, d ∈ Declaration.types ds
  deletes : ∀ table, InApi c (.table table) → ∃ d ∈ Declaration.types ds, deleteDecl table = .ok d
  queries : ∀ table, InApi c (.table table) → ∀ key ∈ table.queryKeys,
    ∃ d ∈ Declaration.types ds, d.name = Naming.queryInput table.name key.required ∧
      ∃ key' ∈ table.queryKeys, queryDecl table key' = .ok d
  unreached : ∀ e ∈ c.entityList, ¬ InApi c e →
    ∀ n, n = e.name ∨ n ∈ Corpus.generatedNames e → n ∉ typeNames ds
  references : ∀ shape n e, HasField ds shape → shape.referenced? = some n → c.entity? n = some e →
    Prints (Surface.api.mapShape shape) e.name ∧ entityDecl e ∈ Declaration.types ds
  variants : ∀ shape n o, HasField ds shape → shape.referenced? = some n →
    c.entity? n = some (.object o) →
      Prints (inputType c shape) (inputDecl o).name ∧ inputDecl o ∈ Declaration.types ds
  enums : ∀ shape n, HasField ds shape →
    shape.enumName? = some n ∨ shape.referenced? = some n ∧ (c.enum? n).isSome = true →
      n ∈ c.enumList.map EnumType.name
  operations : ∀ op ∈ Declaration.operations ds, op.inputType ∈ typeNames ds ∧ op.resultType ∈ typeNames ds

section

variable (hc : c.IsSound) (ho : order.Perm (c.entityList.filter Entity.isApiVisible))
  (h : Collected c t order .empty ds r')

include ho h

theorem belongs_of_mem (hd : d ∈ Declaration.types ds) : ∃ e, InApi c e ∧ Belongs e d := by
  obtain ⟨decl, he, e, hm, hb⟩ := h.types.declared _ (List.mem_map.mpr ⟨d, hd, rfl⟩)
  cases he
  obtain ⟨hv, hvis⟩ := List.mem_filter.mp (ho.mem_iff.mp hm)
  rcases hb with hb | ⟨o, -, hpath, hb⟩
  · exact ⟨e, ⟨e, hv, hvis, .refl⟩, hb⟩
  · exact ⟨.object o, ⟨e, hv, hvis, hpath.to_reflTransGen⟩, hb⟩

include hc

/-- The declared names are those of the entities of the API and those generated for them. -/
theorem mem_typeNames_iff {n : String} : n ∈ typeNames ds ↔
    ∃ e, InApi c e ∧ (n = e.name ∨ n ∈ Corpus.generatedNames e) := by
  constructor
  · intro hn
    obtain ⟨d, hd, rfl⟩ := List.mem_map.mp hn
    obtain ⟨e, he, hb⟩ := belongs_of_mem ho h hd
    exact ⟨e, he, belongs_name hb⟩
  · rintro ⟨e, he, hn⟩
    rcases (h.types.marks n).mp ((hasType_of_inApi hc h ho he).1 n hn) with hm | hm
    · cases hm
    · rw [List.map_map] at hm
      exact hm

theorem mem_types_of_own (he : InApi c e) (hd : d ∈ ownDecls e) : d ∈ Declaration.types ds := by
  have hn := (mem_typeNames_iff hc ho h).mpr ⟨e, he, belongs_name (.inl hd)⟩
  obtain ⟨d', hd', heq⟩ := List.mem_map.mp hn
  obtain ⟨f, hf, hb⟩ := belongs_of_mem ho h hd'
  obtain rfl := entity_eq_of_name hc (he.entity? hc) (hf.entity? hc) (.inl hd) hb heq.symm
  rw [eq_of_name hc (he.entity? hc) hd hb heq.symm]
  exact hd'

/-- A query input is declared from a query key of that name. -/
theorem exists_query {table : Table} (he : InApi c (.table table)) {key : QueryKey}
    (hk : key ∈ table.queryKeys) : ∃ d ∈ Declaration.types ds,
      d.name = Naming.queryInput table.name key.required ∧
        ∃ key' ∈ table.queryKeys, queryDecl table key' = .ok d := by
  have hent := he.entity? hc
  obtain ⟨q, hq⟩ := exists_queryDecl (fun k => hc.attribute?_of_key hent) hk
  have hbq : Belongs (.table table) q := .inr ⟨table, rfl, key, hk, hq⟩
  have hn := (mem_typeNames_iff hc ho h).mpr ⟨_, he, belongs_name hbq⟩
  obtain ⟨d, hd, heq⟩ := List.mem_map.mp hn
  refine ⟨d, hd, heq.trans (queryDecl_eq_ok hq).1, ?_⟩
  obtain ⟨f, hf, hb⟩ := belongs_of_mem ho h hd
  obtain rfl := entity_eq_of_name hc hent (hf.entity? hc) hbq hb heq.symm
  rcases hb with hb | ⟨table', htable, key', hk', hb⟩
  · rw [eq_of_name hc hent hb hbq heq]
    exact ⟨key, hk, hq⟩
  · cases htable
    exact ⟨key', hk', hb⟩

/-- An entity that a field references is part of the API. -/
theorem inApi_of_hasField {shape : Shape} (hs : HasField ds shape) {n : String}
    (hn : shape.referenced? = some n) (he : c.entity? n = some e) : InApi c e := by
  obtain ⟨d, hd, field, hf, hshape⟩ := hs
  obtain ⟨f, hin, hb⟩ := belongs_of_mem ho h hd
  rcases shape_of_belongs hb hf hshape with ⟨a, ha, rfl⟩ | rfl | rfl | rfl
  · exact hin.refers ⟨a, ha, n, hn, he⟩
  · cases hn
  all_goals
    cases hn
    rw [hin.entity? hc] at he
    cases he
    exact hin

theorem enum_of_hasField {shape : Shape} (hs : HasField ds shape) {n : String}
    (hn : shape.enumName? = some n) : ∃ enum, c.enum? n = some enum := by
  obtain ⟨d, hd, field, hf, hshape⟩ := hs
  obtain ⟨f, hin, hb⟩ := belongs_of_mem ho h hd
  rcases shape_of_belongs hb hf hshape with ⟨a, ha, rfl⟩ | rfl | rfl | rfl
  · exact hc.enumerated _ f (hin.entity? hc) a ha n hn
  all_goals cases hn

/-- The declared types and the enums bear different names. -/
theorem nodup_names : (typeNames ds ++ c.enumList.map EnumType.name).Nodup := by
  rw [List.nodup_append, names_enumList hc]
  have hnodup := h.types.once
  rw [List.map_map] at hnodup
  refine ⟨hnodup, hc.enums.nodup_names, ?_⟩
  rintro n hn _ hm rfl
  obtain ⟨e, he, hname⟩ := (mem_typeNames_iff hc ho h).mp hn
  obtain ⟨enum, henum⟩ := hc.enums.mem_names_iff.mp hm
  have hnone := hc.enum?_eq_none (he.entity? hc) hname
  rw [show c.enum? n = some enum from henum] at hnone
  cases hnone

/-- The name of an enum is free when the types are declared. -/
theorem hasType_enum {enum : EnumType} (henum : enum ∈ c.enumList) : r'.hasType t enum.name = false := by
  rw [Bool.eq_false_iff]
  intro hm
  rcases (h.types.marks _).mp hm with hm | hm
  · cases hm
  · rw [List.map_map] at hm
    exact (List.nodup_append.mp (nodup_names hc ho h)).2.2 _ hm _ (List.mem_map.mpr ⟨enum, henum, rfl⟩) rfl

/-- What the visible entities declare in any order is closed. -/
theorem closed_of_collected : Closed c ds := by
  constructor
  case once => exact nodup_names hc ho h
  case belongs => exact fun d => belongs_of_mem ho h
  case own => exact fun e he d => mem_types_of_own hc ho h he
  case deletes =>
    intro table he
    obtain ⟨d, hd⟩ := exists_deleteDecl fun k => hc.attribute?_of_key (he.entity? hc)
    exact ⟨d, mem_types_of_own hc ho h he (mem_ownDecls_table.mpr (by simp [hd])), hd⟩
  case queries => exact fun table he key => exists_query hc ho h he
  case unreached =>
    intro e he hout n hn hm
    obtain ⟨f, hf, hname⟩ := (mem_typeNames_iff hc ho h).mp hm
    obtain rfl := hc.eq_of_typeName (hc.entity?_of_mem he) (hf.entity? hc) hn hname
    exact hout hf
  case references =>
    intro shape n e hs hn he
    have hin := inApi_of_hasField hc ho h hs hn he
    refine ⟨hc.entity_name n e he ▸ (prints_of_referenced (c := c) hn).1, mem_types_of_own hc ho h hin ?_⟩
    cases e <;> exact List.mem_cons_self
  case variants =>
    intro shape n o hs hn he
    have hin := inApi_of_hasField hc ho h hs hn he
    refine ⟨?_, mem_types_of_own hc ho h hin (mem_ownDecls_object.mpr (.inr rfl))⟩
    have hreference : inputReference c n = (inputDecl o).name := by
      unfold inputReference
      rw [he]
      show Naming.inputVariant n = Naming.inputVariant o.name
      rw [show o.name = n from hc.entity_name n _ he]
    exact hreference ▸ (prints_of_referenced hn).2
  case enums =>
    intro shape n hs hn
    rw [names_enumList hc, hc.enums.mem_names_iff]
    rcases hn with hn | ⟨-, hn⟩
    · exact enum_of_hasField hc ho h hs hn
    · exact Option.isSome_iff_exists.mp hn
  case operations =>
    intro op hop
    obtain ⟨e, hm, hcalls⟩ := h.operations op hop
    obtain ⟨hv, hvis⟩ := List.mem_filter.mp (ho.mem_iff.mp hm)
    cases e with
    | object o => cases hcalls
    | table table =>
      obtain ⟨hinput, hresult⟩ := types_of_mem_candidates (mem_sortedCandidates.mp hcalls)
      exact ⟨(mem_typeNames_iff hc ho h).mpr ⟨_, inApi_table hv, .inr hinput⟩,
        (mem_typeNames_iff hc ho h).mpr ⟨_, inApi_table hv, .inr hresult⟩⟩

end

/-- The definitions of the schema when its entities are rendered in that order. -/
def definitionsIn (o : Options) (c : Catalog) (order : List Entity) : Emit (List Definition) := do
  let decls ← Emit.collect (fun e => Emit.fragment c .graphql e .apiSchemaEntity) order
  let enums ← Emit.collect enumDefinition c.enumList
  return enums ++ (Declaration.types decls).map (composite o c) ++ roots (Declaration.operations decls)

/-- The schema is that of its visible entities in name order. Whatever the order in which they are rendered,
the schema of a catalog made from parsed documents is closed, and unless an enum has a reserved value, it
defines every enum and every declared type. -/
theorem definitions_closed {corpus : Corpus} (hp : corpus.IsParsed) (h : corpus.catalog = .ok c)
    (ho : order.Perm (c.entityList.filter Entity.isApiVisible)) (o : Options) :
    definitions o c = definitionsIn o c (c.entityList.filter Entity.isApiVisible) ∧
      ∃ ds r', Emit.collect (fun e => Emit.fragment c .graphql e .apiSchemaEntity) order .empty =
          (.ok ds, r') ∧ Closed c ds ∧
        (definitionsIn o c order .empty).1 = (c.enumList.mapM ApiSchema.enum).map fun enums =>
          enums ++ (Declaration.types ds).map (composite o c) ++ roots (Declaration.operations ds) := by
  have hc := Corpus.isSound_of_catalog hp h
  have horder : ∀ e ∈ order, c.entity? e.name = some e := fun e he =>
    hc.entity?_of_mem (List.mem_filter.mp (ho.mem_iff.mp he)).1
  obtain ⟨ds, r', hrun, hcollected⟩ := collect_ends (t := .graphql) hc order horder .empty
  have hclosed := closed_of_collected hc ho hcollected
  refine ⟨rfl, ds, r', hrun, hclosed, ?_⟩
  rw [← enumDefinitions_spec c.enumList (List.nodup_append.mp hclosed.once).2.1 fun enum henum =>
    hasType_enum hc ho hcollected henum]
  unfold definitionsIn
  rw [Emit.bind_of_eq_ok hrun, Emit.fst_bind_pure]

/-- The sources of documents with a cycle of references, which a table and a visible object type enter
at different places. -/
def loopedSources : List (Path × List String) :=
  [(⟨"Link.yml"⟩, ["name: Link", "kind: static", "attributes: [{name: node, type: Node}]"]),
    (⟨"Node.yml"⟩, ["name: Node", "kind: static", "attributes: [{name: next, type: Link}]"]),
    (⟨"Order.yml"⟩, ["name: Order", "kind: table", "version: 1", "model:",
      "  keys: {primary: {partition: id}}",
      "  attributes: [{name: id, type: string}, {name: root, type: Node}]"]),
    (⟨"Tree.yml"⟩, ["name: Tree", "kind: graphql", "attributes: [{name: links, type: array<Link>}]"])]

/-- The documents that these sources are parsed to. -/
def looped : Corpus :=
  let attr (name : String) (shape : Shape) : AttributeDoc := ⟨name, shape, false, none, none⟩
  ⟨[⟨⟨"Link.yml"⟩, "Link", none, .object .static [attr "node" (.reference "Node")]⟩,
    ⟨⟨"Node.yml"⟩, "Node", none, .object .static [attr "next" (.reference "Link")]⟩,
    ⟨⟨"Order.yml"⟩, "Order", none, .table ⟨"1", "id", none, none,
      [attr "id" (.scalar .string), attr "root" (.reference "Node")]⟩⟩,
    ⟨⟨"Tree.yml"⟩, "Tree", none, .object .api [attr "links" (.referenceArray "Link")]⟩], []⟩

theorem looped_isParsed : looped.IsParsed :=
  Corpus.isParsed_of_mapM (s := loopedSources) (by decide +kernel) (.inl rfl)

theorem definitions_closed_looped : ∃ c order, looped.IsParsed ∧ looped.catalog = .ok c ∧
    order.Perm (c.entityList.filter Entity.isApiVisible) ∧
      ∀ o, definitions o c = definitionsIn o c (c.entityList.filter Entity.isApiVisible) ∧
        ∃ ds r', Emit.collect (fun e => Emit.fragment c .graphql e .apiSchemaEntity) order .empty =
            (.ok ds, r') ∧ Closed c ds ∧
          (definitionsIn o c order .empty).1 = (c.enumList.mapM ApiSchema.enum).map fun enums =>
            enums ++ (Declaration.types ds).map (composite o c) ++ roots (Declaration.operations ds) := by
  have hok : looped.catalog.toOption.isSome = true := by decide +kernel
  cases hc : looped.catalog with
  | error fault =>
    rw [hc] at hok
    cases hok
  | ok c =>
    have ho := List.reverse_perm (c.entityList.filter Entity.isApiVisible)
    exact ⟨c, _, looped_isParsed, rfl, ho, definitions_closed looped_isParsed hc ho⟩

end SchemaGen.ApiSchema
