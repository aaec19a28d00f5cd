import SchemaGen.Proofs.Target.OutputTypes
import SchemaGen.Proofs.Target.Selections

/-!
# Documents of operations

The client models have a document for each operation, which selects fields of the operation's result. A field
of an object type needs a selection of its own, and no other field may have one. The selection decides this by
the entities of the catalog, the API schema by the types that it defines; and the schema defines object types
that are no entities, the envelopes and the root types. An attribute may reference one of these, and is then
selected by itself although its type has fields to select. This is the one way in which a document fails its
schema.

Results:
1. `operationLines_eq_document`: the lines of a document are those of what it selects.
2. `place_of_stands`: where the selections of a document stand.
3. `selects_document`, `isComplete_iff`: what holds of every document, and what of those without such attributes.
4. `documents_of_render`: the documents and the schema that are rendered for parsed documents.
-/

namespace SchemaGen

open Emission

variable {c : Catalog} {o : Options} {table : Table} {op : Operation} {path : List String}
  {parts : List Selection}

/-! ## What a document selects -/

namespace ClientModel

/-- What is selected of an envelope around items of which that is selected. -/
def answered (selection : List Selection) : List Selection :=
  [.leaf "statusCode", .leaf "message", if selection.isEmpty then .leaf "data" else .branch "data" selection]

/-- What the document of an operation selects of the root type. -/
def document (c : Catalog) (op : Operation) : List Selection :=
  [.branch op.name (answered (Selection.ofName c op.entity))]

theorem answered_eq {selection : List Selection} (h : selection ≠ []) :
    answered selection = [.leaf "statusCode", .leaf "message", .branch "data" selection] := by
  unfold answered
  rw [if_neg (mt List.isEmpty_iff.mp h)]

/-- The lines before what an operation selects. -/
def documentHead (op : Operation) : List String :=
  ["export const " ++ op.name ++ " = /* GraphQL */ `",
    "  " ++ op.kind.keyword ++ " " ++ Naming.toPascal op.name ++ "($input: " ++ op.inputType ++ "!) \x7b"]

/-- The lines after what an operation selects. -/
def documentTail (op : Operation) : List String :=
  ["  \x7d", "`;", "",
    "export type " ++ Naming.toPascal op.name ++ "Variables = \x7b input: " ++ op.inputType ++ " \x7d;",
    "export type " ++ Naming.toPascal op.name ++ "Result = \x7b " ++ op.name ++ ": " ++ op.resultType ++ " \x7d;"]

theorem isEmpty_linesAll (indent : Nat) (selection : List Selection) :
    (Selection.linesAll indent selection).isEmpty = selection.isEmpty := by
  cases selection with
  | nil => rfl
  | cons part rest => cases part <;> rfl

theorem linesAll_answered (selection : List Selection) : Selection.linesAll 6 (answered selection) =
    ["      statusCode", "      message"] ++ if (Selection.linesAll 8 selection).isEmpty then ["      data"]
      else ["      data \x7b"] ++ Selection.linesAll 8 selection ++ ["      \x7d"] := by
  have hlines : ∀ data, Selection.linesAll 6 [.leaf "statusCode", .leaf "message", data] =
      ["      statusCode", "      message"] ++ Selection.lines 6 data := by
    intro data
    rw [Selection.linesAll, Selection.linesAll, Selection.linesAll, Selection.linesAll, List.append_nil]
    rfl
  unfold answered
  rw [hlines, isEmpty_linesAll]
  split
  · rfl
  · rw [Selection.lines]
    rfl

/-- What an operation's document selects, as it is written: the operation is given its input. -/
def called (c : Catalog) (op : Operation) : Selection :=
  .branch (op.name ++ "(input: $input)") (answered (Selection.ofName c op.entity))

/-- An operation's lines are those of what its document selects. -/
theorem operationLines_eq_document (selection : List Selection) (op : Operation) :
    operationLines selection op = documentHead op ++
      Selection.lines 4 (.branch (op.name ++ "(input: $input)") (answered selection)) ++ documentTail op := by
  have hcall : Text.spaces 4 ++ (op.name ++ "(input: $input)") ++ " \x7b" =
      "    " ++ op.name ++ "(input: $input) \x7b" := by
    rw [show "(input: $input) \x7b" = "(input: $input)" ++ " \x7b" from rfl]
    simp only [String.append_assoc]
    rfl
  unfold operationLines documentHead documentTail
  rw [Selection.lines, linesAll_answered, hcall]
  simp only [List.append_assoc, List.cons_append, List.nil_append]
  rfl

/-- The text of a table's operations is that of what their documents select. -/
theorem operationsText_eq (c : Catalog) (table : Table) :
    operationsText table.name (Selection.ofName c table.name) (kept c table) =
      Text.unlines (header ++ operationImports table.name (kept c table) ++ (kept c table).flatMap fun op =>
        "" :: (documentHead op ++ Selection.lines 4 (called c op) ++ documentTail op)) := by
  unfold operationsText
  congr 2
  refine List.flatMap_congr fun op hop => ?_
  rw [operationLines_eq_document, called, entity_of_mem_candidates (mem_kept_iff.mp hop).1]

end ClientModel

/-! ## Documents and schemas -/

namespace ApiSchema

variable {ds : List Declaration} {enums defs : List Definition} {n : String}

/-- The selection stands in the document below that path of object types, the innermost first. -/
inductive Stands (defs : List Definition) (root : String) (document : List Selection) :
    List String → List Selection → Prop
  | root : Stands defs root document [root] document
  | inside {owner field type : String} {path : List String} {parts inner : List Selection}
      (h : Stands defs root document (owner :: path) parts) (hpart : .branch field inner ∈ parts)
      (hfield : fieldOf? defs owner field = some type) : Stands defs root document (type :: owner :: path) inner

/-- The document selects fields that the schema defines, below object types alone, something of each of them,
and on no path comes through a type twice. -/
structure Selects (c : Catalog) (defs : List Definition) (root : String) (document : List Selection) : Prop where
  declared : ∀ owner path parts, Stands defs root document (owner :: path) parts → ∀ s ∈ parts,
    ∃ type, fieldOf? defs owner s.name = some type ∧ (s.parts?.isSome = true → IsObject defs type)
  nonempty : ∀ path parts, Stands defs root document path parts → parts ≠ []
  once : ∀ path parts, Stands defs root document path parts → path.Nodup
  deep : ∀ path parts, Stands defs root document path parts → path.length ≤ c.entityList.length + 2

/-- No field of an object type is selected by itself. -/
def IsComplete (defs : List Definition) (root : String) (document : List Selection) : Prop :=
  ∀ owner path parts, Stands defs root document (owner :: path) parts → ∀ s ∈ parts,
    ∀ type, fieldOf? defs owner s.name = some type → IsObject defs type → s.parts?.isSome = true

/-- The entity leads by references to an attribute that references a root type or an envelope. -/
def LeadsToResult (c : Catalog) (e : Entity) : Prop :=
  ∃ f, Relation.ReflTransGen c.Refers e f ∧ ∃ a ∈ f.attributes, ∃ n, a.shape.referenced? = some n ∧ IsResult c n

/-- The places of the selections in an operation's document: that of the root type, that of the envelope, and
those of entities to which the references of the table have led, none of them twice. -/
inductive Place (c : Catalog) (table : Table) (op : Operation) : List String → List Selection → Prop
  | root : Place c table op [op.kind.root] (ClientModel.document c op)
  | result : Place c table op [op.resultType, op.kind.root]
      (ClientModel.answered (Selection.ofName c table.name))
  | entity {e : Entity} {path : List String} {depth : Nat}
      (hreach : Relation.ReflTransGen c.Refers (.table table) e)
      (hnodup : (e.name :: path).Nodup) (hpath : ∀ n ∈ path, ∃ f, c.entity? n = some f)
      (hdepth : depth + path.length = c.entities.size) (hparts : Selection.selectFrom c (depth + 1) path e ≠ []) :
      Place c table op (e.name :: (path ++ [op.resultType, op.kind.root]))
        (Selection.selectFrom c (depth + 1) path e)

/-- What a field has for its type that is selected by itself: a scalar, an enum, or what is no entity but is
referenced by an attribute to which the table leads. -/
inductive Bare (c : Catalog) (table : Table) (type : String) : Prop
  | scalar (h : type ∈ scalarNames)
  | enum {f : EnumType} (h : c.enum? type = some f)
  | other {e : Entity} {a : Attribute} (hreach : Relation.ReflTransGen c.Refers (.table table) e)
      (ha : a ∈ e.attributes) (hr : a.shape.referenced? = some type) (hnone : c.entity? type = none)

section

variable (hc : c.IsSound) (hn : c.IsNamed) (h : Composed o c ds enums defs) (hu : (definedNames defs).Nodup)
  (ht : table ∈ c.tables) (hop : op ∈ kept c table)

include ht in
theorem inApi_of_reach {e : Entity} (hreach : Relation.ReflTransGen c.Refers (.table table) e) : InApi c e :=
  ⟨_, Catalog.mem_entityList_of_mem_tables ht, rfl, hreach⟩

include hc

theorem entity?_of_target {a : Attribute} {f : Entity} (htarget : Selection.target? c a = some f) :
    a.shape.referenced? = some f.name ∧ c.entity? f.name = some f := by
  obtain ⟨n, hr, hf⟩ := Option.bind_eq_some_iff.mp htarget
  rw [hc.entity_name n f hf]
  exact ⟨hr, hf⟩

include ht

/-- There is always something to select of a table, as its keys are no references. -/
theorem ofName_eq : Selection.ofName c table.name =
      Selection.selectFrom c (c.entities.size + 1) [] (.table table) ∧
    Selection.ofName c table.name ≠ [] := by
  have hentity := hc.entity?_of_mem_tables ht
  have heq : Selection.ofName c table.name =
      Selection.selectFrom c (c.entities.size + 1) [] (.table table) := by
    unfold Selection.ofName
    rw [hentity]
    rfl
  have hkey : table.partition ∈ table.keyAttributes :=
    (table.mem_keyAttributes _).mpr (.inl List.mem_cons_self)
  obtain ⟨a, ha, htype⟩ := hc.keys _ table hentity _ hkey
  have hnone : Selection.target? c a = none := by
    unfold Selection.target?
    cases hs : a.shape with
    | reference name => rw [hs] at htype; cases htype
    | referenceArray name => rw [hs] at htype; cases htype
    | _ => rfl
  refine ⟨heq, heq ▸ List.ne_nil_of_mem (Selection.mem_selectFrom_of_leaf (a := a) ?_ hnone)⟩
  exact List.mem_of_find?_eq_some ha

omit hc ht in
include hop in
theorem resultType_eq : op.resultType = Naming.response table.name ∨
    op.resultType = Naming.listResponse table.name := by
  rcases mem_candidates_iff.mp (mem_kept_iff.mp hop).1 with ⟨verb, -, rfl⟩ | ⟨key, -, rfl⟩
  · exact .inl rfl
  · exact .inr rfl

omit hc ht in
include hop in
theorem entity_eq : op.entity = table.name := entity_of_mem_candidates (mem_kept_iff.mp hop).1

include hn h hu hop

/-- Every selection of a document has one of these places. -/
theorem place_of_stands (hs : Stands defs op.kind.root (ClientModel.document c op) path parts) :
    Place c table op path parts := by
  obtain ⟨hofName, hne⟩ := ofName_eq hc ht
  obtain ⟨-, -, hdata⟩ := fieldOf?_envelope hc h hu ht (resultType_eq hop)
  induction hs with
  | root => exact .root
  | @inside owner field type path parts inner _ hpart hfield ih =>
    cases ih with
    | root =>
      cases List.mem_singleton.mp hpart
      rw [fieldOf?_operation hc h hu ht hop] at hfield
      cases hfield
      rw [entity_eq hop]
      exact .result
    | result =>
      rw [ClientModel.answered_eq hne] at hpart
      simp only [List.mem_cons, reduceCtorEq, Selection.branch.injEq, List.not_mem_nil, or_false,
        false_or] at hpart
      obtain ⟨rfl, rfl⟩ := hpart
      rw [hdata] at hfield
      cases hfield
      rw [hofName] at hne ⊢
      exact .entity (e := .table table) .refl (List.nodup_singleton _) nofun rfl hne
    | @entity e path depth hreach hnodup hpath hdepth _ =>
      have he := inApi_of_reach ht hreach
      obtain ⟨a, ha, ⟨-, hleaf⟩ | ⟨f, htarget, hf, hparts, hbranch⟩⟩ := Selection.mem_selectFrom_iff.mp hpart
      · cases hleaf
      · cases hbranch
        obtain ⟨hr, hentity⟩ := entity?_of_target hc htarget
        rw [fieldOf?_reference hc h hu hn he ha hr] at hfield
        cases hfield
        cases depth with
        | zero => exact absurd rfl hparts
        | succ depth =>
          have hsize : depth + (e.name :: path).length = c.entities.size := by
            rw [List.length_cons, ← hdepth]
            omega
          exact .entity (hreach.tail ⟨a, ha, f.name, hr, hentity⟩) (List.nodup_cons.mpr ⟨hf, hnodup⟩)
            (List.forall_mem_cons.mpr ⟨⟨e, he.entity? hc⟩, hpath⟩) hsize hparts

/-- A part of a selection at one of the places is a field there, with a selection of its own if its type is that
of an entity. -/
theorem field_of_place {owner : String} (hplace : Place c table op (owner :: path) parts) {part : Selection}
    (hpart : part ∈ parts) : ∃ type, fieldOf? defs owner part.name = some type ∧
      ((part.parts?.isSome = true ∧ IsObject defs type) ∨ part.parts? = none ∧ Bare c table type) := by
  have hobject : ∀ {e}, InApi c e → IsObject defs e.name := fun he =>
    (isObject_iff hc h hu).mpr (.inl ⟨_, he, rfl⟩)
  cases hplace with
  | root =>
    cases List.mem_singleton.mp hpart
    refine ⟨op.resultType, fieldOf?_operation hc h hu ht hop, .inl ⟨rfl, (isObject_iff hc h hu).mpr ?_⟩⟩
    exact .inr (.inr ⟨table, ht, resultType_eq hop⟩)
  | result =>
    obtain ⟨hcode, hmessage, hdata⟩ := fieldOf?_envelope hc h hu ht (resultType_eq hop)
    rw [ClientModel.answered_eq (ofName_eq hc ht).2] at hpart
    simp only [List.mem_cons, List.not_mem_nil, or_false] at hpart
    rcases hpart with rfl | rfl | rfl
    · exact ⟨_, hcode, .inr ⟨rfl, .scalar (by decide)⟩⟩
    · exact ⟨_, hmessage, .inr ⟨rfl, .scalar (by decide)⟩⟩
    · exact ⟨_, hdata, .inl ⟨rfl, hobject (inApi_of_reach ht .refl)⟩⟩
  | @entity e path depth hreach =>
    have he := inApi_of_reach ht hreach
    obtain ⟨a, ha, ⟨hnone, rfl⟩ | ⟨f, htarget, -, -, rfl⟩⟩ := Selection.mem_selectFrom_iff.mp hpart
    · cases hr : a.shape.referenced? with
      | none =>
        obtain ⟨type, hfield, hscalar | ⟨f, henum⟩⟩ := exists_fieldOf?_of_unreferenced hc h hu he ha hr
        · exact ⟨type, hfield, .inr ⟨rfl, .scalar hscalar⟩⟩
        · exact ⟨type, hfield, .inr ⟨rfl, .enum henum⟩⟩
      | some n =>
        rw [Selection.target?, hr, Option.bind_some] at hnone
        exact ⟨n, fieldOf?_reference hc h hu hn he ha hr, .inr ⟨rfl, .other hreach ha hr hnone⟩⟩
    · obtain ⟨hr, hentity⟩ := entity?_of_target hc htarget
      exact ⟨f.name, fieldOf?_reference hc h hu hn he ha hr,
        .inl ⟨rfl, hobject (he.refers ⟨a, ha, f.name, hr, hentity⟩)⟩⟩

/-- What holds of every document. -/
theorem selects_document : Selects c defs op.kind.root (ClientModel.document c op) := by
  have hplace : ∀ {path parts}, Stands defs op.kind.root (ClientModel.document c op) path parts →
      Place c table op path parts := fun hs => place_of_stands hc hn h hu ht hop hs
  have hgenerated := (types_of_mem_candidates (mem_kept_iff.mp hop).1).2
  have hroot : op.kind.root ∈ Corpus.reservedNames := by cases op.kind <;> decide
  have houter : [op.resultType, op.kind.root].Nodup := by
    refine List.nodup_cons.mpr ⟨fun hm => ?_, List.nodup_singleton _⟩
    have hends : ∀ n ∈ Corpus.reservedNames, ¬ EndsGenerated n := by decide
    exact hends _ hroot (List.mem_singleton.mp hm ▸ endsGenerated_of_mem hgenerated)
  constructor
  case declared =>
    intro owner path parts hs part hpart
    obtain ⟨type, hfield, hkind⟩ := field_of_place hc hn h hu ht hop (hplace hs) hpart
    refine ⟨type, hfield, fun hsome => ?_⟩
    rcases hkind with ⟨-, hobject⟩ | ⟨hnone, -⟩
    · exact hobject
    · rw [hnone] at hsome
      cases hsome
  case nonempty =>
    intro path parts hs
    cases hplace hs with
    | root => exact List.cons_ne_nil _ _
    | result => exact List.cons_ne_nil _ _
    | entity _ _ _ _ hparts => exact hparts
  case once =>
    intro path parts hs
    cases hplace hs with
    | root => exact List.nodup_singleton _
    | result => exact houter
    | @entity e path depth hreach hnodup hpath =>
      rw [← List.cons_append]
      refine List.nodup_append.mpr ⟨hnodup, houter, ?_⟩
      rintro n hm m hm' rfl
      have hentity : ∃ f, c.entity? n = some f := List.forall_mem_cons.mpr
        ⟨⟨e, (inApi_of_reach ht hreach).entity? hc⟩, hpath⟩ n hm
      obtain ⟨f, hf⟩ := hentity
      rcases List.mem_cons.mp hm' with rfl | hm'
      · rw [(hc.free _ _ (hc.entity?_of_mem_tables ht) _ hgenerated).1] at hf
        cases hf
      · exact hc.unreserved n f hf (List.mem_singleton.mp hm' ▸ hroot)
  case deep =>
    intro path parts hs
    have hlength : c.entityList.length = c.entities.size := List.length_map _
    rw [hlength]
    cases hplace hs with
    | root => exact Nat.le_add_left 1 (c.entities.size + 1)
    | result => exact Nat.le_add_left 2 c.entities.size
    | @entity e path depth hreach hnodup hpath =>
      have hle := hc.length_le hnodup
        (List.forall_mem_cons.mpr ⟨⟨e, (inApi_of_reach ht hreach).entity? hc⟩, hpath⟩)
      rw [List.length_cons, List.length_append]
      rw [List.length_cons] at hle
      exact Nat.add_le_add_right hle 2

omit hn in
/-- The selection of the table stands below the data of the envelope. -/
theorem stands_data : Stands defs op.kind.root (ClientModel.document c op)
    [table.name, op.resultType, op.kind.root]
      (Selection.selectFrom c (c.entities.size + 1) [] (.table table)) := by
  obtain ⟨hofName, hne⟩ := ofName_eq hc ht
  obtain ⟨-, -, hdata⟩ := fieldOf?_envelope hc h hu ht (resultType_eq hop)
  have hresult : Stands defs op.kind.root (ClientModel.document c op) [op.resultType, op.kind.root]
      (ClientModel.answered (Selection.ofName c table.name)) := by
    refine .inside .root (List.mem_singleton.mpr ?_) (fieldOf?_operation hc h hu ht hop)
    rw [entity_eq hop]
  rw [ClientModel.answered_eq hne, hofName] at hresult
  exact .inside hresult (List.mem_cons_of_mem _ (List.mem_cons_of_mem _ List.mem_cons_self)) hdata

omit ht hop in
/-- A selection that stands at an entity goes on along a chain of references, to an attribute that is selected
by itself. -/
theorem exists_stands {root : String} {document : List Selection} {e f : Entity} {rest : List Entity}
    {depth : Nat} {outer : List String} (he : InApi c e)
    (hs : Stands defs root document (e.name :: outer) (Selection.selectFrom c (depth + 1) path e))
    (hchain : List.IsChain c.Refers (e :: rest)) (hlast : (e :: rest).getLast? = some f)
    (hleaf : ∃ a ∈ f.attributes, Selection.target? c a = none)
    (hnodup : ((e :: rest).map Entity.name ++ path).Nodup) (hdepth : rest.length ≤ depth) :
    InApi c f ∧ ∃ depth path outer,
      Stands defs root document (f.name :: outer) (Selection.selectFrom c (depth + 1) path f) := by
  induction rest generalizing e depth path outer with
  | nil =>
    cases hlast
    exact ⟨he, _, _, _, hs⟩
  | cons g more ih =>
    obtain ⟨hr, hmore⟩ := List.isChain_cons_cons.mp hchain
    rw [List.getLast?_cons_cons] at hlast
    cases depth with
    | zero => cases hdepth
    | succ depth =>
      have hshift : ((g :: more).map Entity.name ++ e.name :: path).Nodup := List.nodup_middle.mpr hnodup
      have hpath : g.name ∉ e.name :: path := by
        rw [List.map_cons, List.cons_append, List.nodup_cons, List.mem_append, not_or] at hshift
        exact hshift.1.2
      have hmoreDepth : more.length ≤ depth := Nat.le_of_succ_le_succ hdepth
      have hparts := Selection.selectFrom_ne_nil hmore ⟨f, hlast, hleaf⟩ hshift (Nat.lt_succ_of_le hmoreDepth)
      obtain ⟨a, ha, htarget, hbranch⟩ := Selection.exists_branch hr hpath hparts
      have hfield := fieldOf?_reference hc h hu hn he ha (entity?_of_target hc htarget).1
      exact ih (he.refers hr) (.inside hs hbranch hfield) hmore hlast hshift hmoreDepth

variable (hfree : ∀ n ∈ scalarNames ++ Corpus.reservedNames, c.entity? n = none ∧ c.enum? n = none)

omit ht hop hn in
include hfree in
/-- What is selected by itself is of no object type, unless it is a root type or an envelope. -/
theorem leadsToResult_of_isObject {type : String} (hbare : Bare c table type) (hobject : IsObject defs type) :
    LeadsToResult c (.table table) := by
  rcases (isObject_iff hc h hu).mp hobject with ⟨e, he, rfl⟩ | hresult
  · have hentity := he.entity? hc
    cases hbare with
    | scalar hm =>
      rw [(hfree _ (List.mem_append_left _ hm)).1] at hentity
      cases hentity
    | enum henum =>
      rw [hc.apart _ e hentity] at henum
      cases henum
    | other _ _ _ hnone =>
      rw [hnone] at hentity
      cases hentity
  · cases hbare with
    | other hreach ha hr => exact ⟨_, hreach, _, ha, _, hr, hresult⟩
    | scalar hm =>
      have hapart : ∀ n ∈ scalarNames, n ∉ Corpus.reservedNames ∧ ¬ EndsGenerated n := by decide
      rcases hresult with ⟨hroot, -⟩ | ⟨other, -, rfl | rfl⟩
      · exact absurd hroot (hapart _ hm).1
      all_goals
        refine absurd (endsGenerated_of_mem (e := .table other) ?_) (hapart _ hm).2
        simp [Corpus.generatedNames]
    | enum henum =>
      rcases hresult with ⟨hroot, -⟩ | ⟨other, ho, hname⟩
      · rw [(hfree _ (List.mem_append_right _ hroot)).2] at henum
        cases henum
      · have hmem : type ∈ Corpus.generatedNames (.table other) := by
          rcases hname with rfl | rfl <;> simp [Corpus.generatedNames]
        rw [(hc.free _ _ (hc.entity?_of_mem_tables ho) _ hmem).2] at henum
        cases henum

omit hn h hu ht hop in
/-- Root types and envelopes are no entities. -/
theorem entity?_eq_none_of_isResult (hresult : IsResult c n) : c.entity? n = none := by
  rcases hresult with ⟨hroot, -⟩ | ⟨other, ho, hname⟩
  · exact Option.eq_none_iff_forall_ne_some.mpr fun e he => hc.unreserved n e he hroot
  · refine (hc.free _ _ (hc.entity?_of_mem_tables ho) n ?_).1
    rcases hname with rfl | rfl <;> simp [Corpus.generatedNames]

include hfree

/-- A document is complete unless its table leads to a root type or an envelope. -/
theorem isComplete_iff : IsComplete defs op.kind.root (ClientModel.document c op) ↔
    ¬ LeadsToResult c (.table table) := by
  constructor
  · rintro hcomplete ⟨f, hreach, a, ha, n, hr, hresult⟩
    have hnone : Selection.target? c a = none := by
      rw [Selection.target?, hr, Option.bind_some, entity?_eq_none_of_isResult hc hresult]
    obtain ⟨rest, hchain, hlast, hnodup⟩ := exists_nodup_chain hreach
    have htable : c.entity? (Entity.table table).name = some (.table table) := hc.entity?_of_mem_tables ht
    have hentities := hc.entity?_of_mem_chain htable hchain
    have hnames := Catalog.nodup_names hnodup hentities
    have hlength : ((Entity.table table :: rest).map Entity.name).length ≤ c.entities.size :=
      hc.length_le hnames (List.forall_mem_map.mpr fun e he => ⟨e, hentities e he⟩)
    rw [List.length_map, List.length_cons] at hlength
    obtain ⟨hf, depth, path, outer, hs⟩ := exists_stands hc hn h hu (inApi_of_reach ht .refl)
      (stands_data hc h hu ht hop) hchain hlast ⟨a, ha, hnone⟩ (by rwa [List.append_nil])
      (Nat.le_of_succ_le hlength)
    have hsome := hcomplete _ _ _ hs _ (Selection.mem_selectFrom_of_leaf ha hnone) n
      (fieldOf?_reference hc h hu hn hf ha hr) ((isObject_iff hc h hu).mpr (.inr hresult))
    cases hsome
  · intro hleads owner path parts hs part hpart type hfield hobject
    obtain ⟨type', hfield', ⟨hsome, -⟩ | ⟨-, hbare⟩⟩ :=
      field_of_place hc hn h hu ht hop (place_of_stands hc hn h hu ht hop hs) hpart
    · exact hsome
    · rw [hfield] at hfield'
      cases hfield'
      exact absurd (leadsToResult_of_isObject hc h hu hfree hbare hobject) hleads

end

end ApiSchema

/-! ## Rendered documents -/

open ApiSchema

/-- The documents that the client models have for the operations of a catalog are written from the selections
that hold against the definitions. They are complete but for the tables that lead to a root type or an
envelope. -/
structure DocumentsFit (c : Catalog) (defs : List Definition) (clients : Files) : Prop where
  written : ∀ table ∈ c.tables, clients.get? (Naming.operationsFile table.name "ts") =
    some (Text.unlines (ClientModel.header ++ ClientModel.operationImports table.name (kept c table) ++
      (kept c table).flatMap fun op => "" :: (ClientModel.documentHead op ++
        Selection.lines 4 (ClientModel.called c op) ++ ClientModel.documentTail op)))
  selects : ∀ table ∈ c.tables, ∀ op ∈ kept c table, Selects c defs op.kind.root (ClientModel.document c op)
  complete : ∀ table ∈ c.tables, ∀ op ∈ kept c table,
    IsComplete defs op.kind.root (ClientModel.document c op) ↔ ¬ LeadsToResult c (.table table)

/-- The schema that is rendered is composed of definitions with different names, where no entity and no enum
bears that of a root type. -/
theorem exists_composed_of_render (hc : c.IsSound)
    (hfree : ∀ n ∈ scalarNames ++ Corpus.reservedNames, c.entity? n = none ∧ c.enum? n = none)
    {r r' : Registry} (hr : r.IsFresh .graphql) {files : Files}
    (hrender : Target.render o c .graphql r = (.ok files, r')) : ∃ ds enums defs,
      files = NameMap.ofList [(schemaFile, schemaText o.generatedAt defs)] ∧
        Composed o c ds enums defs ∧ (definedNames defs).Nodup := by
  obtain ⟨defs, r₁, hdefs, hprinted⟩ := Emit.bind_eq_ok.mp (Target.generate_of_render hrender)
  cases hprinted
  obtain ⟨ds, enums, hcomposed⟩ := composed_of_definitions hc hr hdefs
  refine ⟨ds, enums, defs, rfl, hcomposed, (hcomposed.nodup_iff hc).mpr (.inr fun n hm => ?_)⟩
  exact (hfree n (List.mem_append_right _ hm)).2

/-- Where the API schema of parsed documents renders, and none of their entities and enums bears the name of a
scalar or of a root type, the client models render as well, and their documents fit the schema. The fields of
its object types are read from its text, unless it has descriptions that cannot be closed. -/
theorem documents_of_render {corpus : Corpus} (hp : corpus.IsParsed) (h : corpus.catalog = .ok c)
    (hfree : ∀ n ∈ scalarNames ++ Corpus.reservedNames, c.entity? n = none ∧ c.enum? n = none)
    {r r' : Registry} (hr : r.IsFresh .graphql) {files : Files}
    (hrender : Target.render o c .graphql r = (.ok files, r')) :
    ∃ defs, files = NameMap.ofList [(schemaFile, schemaText o.generatedAt defs)] ∧
      ((o.docs = true → AllClose defs) →
        ∀ n, readOutputs? (schemaText o.generatedAt defs) n = outputs? defs n) ∧
      ∀ (o' : Options) (q : Registry), q.IsFresh .typescript → ∃ clients q',
        Target.render o' c .typescript q = (.ok clients, q') ∧ DocumentsFit c defs clients := by
  have hc := Corpus.isSound_of_catalog hp h
  have hn := Corpus.isNamed_of_catalog hp h
  obtain ⟨ds, enums, defs, hfiles, hcomposed, hu⟩ := exists_composed_of_render hc hfree hr hrender
  refine ⟨defs, hfiles, hcomposed.readOutputs?_eq hc hn, fun o' q hq => ?_⟩
  obtain ⟨clients, q', hclients⟩ := Target.exists_render_of_check (o := o') (t := .typescript) hc hq rfl
  obtain ⟨-, hmodules⟩ := (ClientModel.generate_ends hc hq).of_eq_ok (Target.generate_of_render hclients)
  refine ⟨clients, q', hclients, fun table ht => ?_, fun table ht op hop => ?_, fun table ht op hop => ?_⟩
  · rw [hmodules table ht, ClientModel.operationsText_eq]
  · exact selects_document hc hn hcomposed hu ht hop
  · exact isComplete_iff hc hn hcomposed hu ht hop hfree

/-- The catalog of documents with a cycle of references. -/
def loopedCatalog : Catalog := looped.catalog.toOption.getD .empty

theorem catalog_looped : looped.catalog = .ok loopedCatalog := by decide +kernel

/-- Documents over a cycle of references. None of them leads to an envelope, so that the documents are complete
as well. -/
theorem documents_of_render_looped : looped.IsParsed ∧ looped.catalog = .ok loopedCatalog ∧
    (∀ n ∈ scalarNames ++ Corpus.reservedNames, loopedCatalog.entity? n = none ∧ loopedCatalog.enum? n = none) ∧
    Registry.IsFresh .graphql .empty ∧ ∀ o, ∃ files r',
      Target.render o loopedCatalog .graphql .empty = (.ok files, r') ∧
        ∃ defs, files = NameMap.ofList [(schemaFile, schemaText o.generatedAt defs)] ∧
          ((o.docs = true → AllClose defs) →
            ∀ n, readOutputs? (schemaText o.generatedAt defs) n = outputs? defs n) ∧
          ∃ clients q', Target.render o loopedCatalog .typescript .empty = (.ok clients, q') ∧
            DocumentsFit loopedCatalog defs clients ∧ ∀ table ∈ loopedCatalog.tables,
              ∀ op ∈ kept loopedCatalog table,
                IsComplete defs op.kind.root (ClientModel.document loopedCatalog op) := by
  have hfree : ∀ n ∈ scalarNames ++ Corpus.reservedNames,
      loopedCatalog.entity? n = none ∧ loopedCatalog.enum? n = none := by decide +kernel
  have hapart : ∀ e ∈ loopedCatalog.entityList, ∀ a ∈ e.attributes, ∀ n ∈ a.shape.referenced?,
      n ∉ Corpus.reservedNames ∧ ∀ table ∈ loopedCatalog.tables,
        n ≠ Naming.response table.name ∧ n ≠ Naming.listResponse table.name := by decide +kernel
  have hc := Corpus.isSound_of_catalog looped_isParsed catalog_looped
  have hcheck : ApiSchema.check loopedCatalog = .ok () := by decide +kernel
  refine ⟨looped_isParsed, catalog_looped, hfree, Registry.isFresh_empty _, fun o => ?_⟩
  obtain ⟨files, r', hrender⟩ :=
    Target.exists_render_of_check (o := o) (t := .graphql) hc (Registry.isFresh_empty _) hcheck
  obtain ⟨defs, hfiles, hread, hdocuments⟩ :=
    documents_of_render looped_isParsed catalog_looped hfree (Registry.isFresh_empty _) hrender
  obtain ⟨clients, q', hclients, hfit⟩ := hdocuments o .empty (Registry.isFresh_empty _)
  refine ⟨files, r', hrender, defs, hfiles, hread, clients, q', hclients, hfit, fun table ht op hop => ?_⟩
  refine (hfit.complete table ht op hop).mpr ?_
  rintro ⟨e, hreach, a, ha, n, hn, hresult⟩
  have he := hc.entities.mem_values_iff.mpr ⟨_, (inApi_of_reach ht hreach).entity? hc⟩
  obtain ⟨hroot, hname⟩ := hapart e he a ha n hn
  rcases hresult with ⟨hm, -⟩ | ⟨other, ho, hother⟩
  · exact hroot hm
  · exact hother.elim (hname other ho).1 (hname other ho).2

/-- The source of a table with an attribute that references its own envelope. -/
def echoSources : List (Path × List String) :=
  [(⟨"Order.yml"⟩, ["name: Order", "kind: table", "version: 1", "model:",
    "  keys: {primary: {partition: id}}",
    "  attributes: [{name: id, type: string}, {name: last, type: OrderResponse}]"])]

/-- The document that this source is parsed to. -/
def echo : Corpus :=
  ⟨[⟨⟨"Order.yml"⟩, "Order", none, .table ⟨"1", "id", none, none,
    [⟨"id", .scalar .string, false, none, none⟩, ⟨"last", .reference "OrderResponse", false, none, none⟩]⟩⟩], []⟩

theorem echo_isParsed : echo.IsParsed :=
  Corpus.isParsed_of_mapM (s := echoSources) (by decide +kernel) (.inl rfl)

/-- The catalog of this document. -/
def echoCatalog : Catalog := echo.catalog.toOption.getD .empty

theorem catalog_echo : echo.catalog = .ok echoCatalog := by decide +kernel

/-- The attribute is selected by itself, although the schema has an object type for it. -/
theorem exists_incomplete_document : echo.IsParsed ∧ echo.catalog = .ok echoCatalog ∧
    (∀ n ∈ scalarNames ++ Corpus.reservedNames, echoCatalog.entity? n = none ∧ echoCatalog.enum? n = none) ∧
    ∀ o, ∃ files r', Target.render o echoCatalog .graphql .empty = (.ok files, r') ∧
      ∃ defs, files = NameMap.ofList [(schemaFile, schemaText o.generatedAt defs)] ∧
        ((o.docs = true → AllClose defs) →
          ∀ n, readOutputs? (schemaText o.generatedAt defs) n = outputs? defs n) ∧
        ∃ table ∈ echoCatalog.tables, ∃ op ∈ kept echoCatalog table, ∃ outer parts,
          Stands defs op.kind.root (ClientModel.document echoCatalog op) ("Order" :: outer) parts ∧
            .leaf "last" ∈ parts ∧ fieldOf? defs "Order" "last" = some "OrderResponse" ∧
              IsObject defs "OrderResponse" := by
  let order : Table := ⟨"Order", "1", none, [⟨"id", .scalar .string, false, none⟩,
    ⟨"last", .reference "OrderResponse", false, none⟩], "id", none, []⟩
  let op : Operation := itemOperation order "create" (Naming.createInput "Order")
  have hfree : ∀ n ∈ scalarNames ++ Corpus.reservedNames,
      echoCatalog.entity? n = none ∧ echoCatalog.enum? n = none := by decide +kernel
  have hc := Corpus.isSound_of_catalog echo_isParsed catalog_echo
  have hn := Corpus.isNamed_of_catalog echo_isParsed catalog_echo
  have hcheck : ApiSchema.check echoCatalog = .ok () := by decide +kernel
  have ht : order ∈ echoCatalog.tables := by decide +kernel
  have hop : op ∈ kept echoCatalog order := mem_kept_of_mutation List.mem_cons_self rfl
  have hnone : echoCatalog.entity? "OrderResponse" = none := by decide +kernel
  refine ⟨echo_isParsed, catalog_echo, hfree, fun o => ?_⟩
  obtain ⟨files, r', hrender⟩ :=
    Target.exists_render_of_check (o := o) (t := .graphql) hc (Registry.isFresh_empty _) hcheck
  obtain ⟨ds, enums, defs, hfiles, hcomposed, hu⟩ :=
    exists_composed_of_render hc hfree (Registry.isFresh_empty _) hrender
  let last : Attribute := ⟨"last", .reference "OrderResponse", false, none⟩
  have hlast : last ∈ (Entity.table order).attributes := List.mem_cons_of_mem _ List.mem_cons_self
  have hdata := stands_data hc hcomposed hu ht hop
  refine ⟨files, r', hrender, defs, hfiles, hcomposed.readOutputs?_eq hc hn, order, ht, op, hop, _, _, hdata,
    ?_, ?_, ?_⟩
  · exact Selection.mem_selectFrom_of_leaf (a := last) hlast hnone
  · exact fieldOf?_reference hc hcomposed hu hn (inApi_of_reach ht .refl) hlast rfl
  · exact (isObject_iff hc hcomposed hu).mpr (.inr (.inr ⟨order, ht, .inl rfl⟩))

end SchemaGen
