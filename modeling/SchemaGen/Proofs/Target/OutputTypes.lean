import SchemaGen.Proofs.Emission.Names
import SchemaGen.Proofs.Target.Resolvers

/-!
# Object types of the API schema

A document selects fields of object types, each of which has a type by a name of its own. Which names are those
of object types can be told from the catalog: the entities of the API, the envelopes of the tables, and the root
types. What a field's type is called can be told from the attribute: the entity, the enum or whatever else it
references, or a scalar.

Results:
1. `readOutputs?_eq`: the fields of object types that are read from the text of a schema.
2. `bareName_of_referenced`, `bareName_of_unreferenced`: what the type of an attribute's field is called.
3. `fieldOf?_attribute`, `fieldOf?_envelope`, `fieldOf?_operation`: the fields of object types.
4. `isObject_iff`: the names of object types.
-/

namespace SchemaGen.ApiSchema

open Emission

variable {c : Catalog} {o : Options} {ds : List Declaration} {enums defs : List Definition} {e : Entity}
  {a : Attribute} {n m : String} {d : Definition} {table : Table}

/-! ## Look-ups -/

/-- The fields of an object type, each with its type. -/
def Definition.outputs? : Definition → Option (List (String × String))
  | .composite .object _ _ fields => some (fields.map fun f => (f.name, f.type))
  | .root _ ops => some (ops.map fun op => (op.name, op.resultType))
  | _ => none

/-- The fields of the object type of that name. -/
def outputs? (defs : List Definition) (n : String) : Option (List (String × String)) :=
  (defs.find? fun d => d.name? == some n).bind Definition.outputs?

/-- The name is that of an object type. -/
def IsObject (defs : List Definition) (n : String) : Prop := (outputs? defs n).isSome = true

instance (defs : List Definition) (n : String) : Decidable (IsObject defs n) :=
  inferInstanceAs (Decidable ((outputs? defs n).isSome = true))

/-- The name that a type is made from. -/
def bareName (type : String) : String := String.ofList (type.toList.filter fun x => !typeMarks.contains x)

/-- What the type of a field of the object type is called. -/
def fieldOf? (defs : List Definition) (owner field : String) : Option String :=
  ((outputs? defs owner).bind fun fields => fields.lookup field).map bareName

/-- The fields of an object type that was read, each with its type. -/
def Outline.outputs? (d : Outline) : Option (List (String × String)) :=
  if d.keyword = "type" then some (d.members.filterMap fun m => m.type.map fun type => (m.name, type)) else none

/-- The fields of the object type of that name that are read from the text of a schema. -/
def readOutputs? (text n : String) : Option (List (String × String)) :=
  (readSchema? text).bind fun outlines => (outlines.find? fun d => d.name == some n).bind Outline.outputs?

theorem outputs?_outline (d : Definition) : d.outline.outputs? = d.outputs? := by
  cases d with
  | enum name values => rfl
  | composite role name description fields =>
    cases role with
    | object => simp [Definition.outline, Outline.outputs?, Definition.outputs?, roleKeyword, List.filterMap_map]
    | input => rfl
  | root kind ops => simp [Definition.outline, Outline.outputs?, Definition.outputs?]
  | schema kinds => rfl

/-- The fields of object types are read back from the text of the schema. -/
theorem Composed.readOutputs?_eq (hc : c.IsSound) (hn : c.IsNamed) (h : Composed o c ds enums defs)
    (hclose : o.docs = true → AllClose defs) (n : String) :
    readOutputs? (schemaText o.generatedAt defs) n = outputs? defs n := by
  unfold readOutputs? outputs?
  rw [h.readSchema?_eq hc hn hclose, Option.bind_some, List.find?_map, Option.bind_map]
  have hnames : (fun d : Definition => d.outline.name == some n) = fun d => d.name? == some n :=
    funext fun d => by rw [name_outline]
  exact congrArg₂ Option.bind (congrArg (defs.find? ·) hnames) (funext outputs?_outline)

/-- A definition is found by its name if no other one has it. -/
theorem find?_name_eq (hu : (definedNames defs).Nodup) (hd : d ∈ defs) (hn : d.name? = some n) :
    (defs.find? fun d => d.name? == some n) = some d := by
  induction defs with
  | nil => cases hd
  | cons first rest ih =>
    rcases List.mem_cons.mp hd with rfl | hd
    · exact List.find?_cons_of_pos (beq_iff_eq.mpr hn)
    · have hrest : (definedNames rest).Nodup := hu.sublist ((List.sublist_cons_self _ _).filterMap _)
      rw [List.find?_cons_of_neg ?_, ih hrest hd]
      intro hfirst
      have hnames : definedNames (first :: rest) = n :: definedNames rest :=
        List.filterMap_cons_some (beq_iff_eq.mp hfirst)
      rw [hnames, List.nodup_cons] at hu
      exact hu.1 (List.mem_filterMap.mpr ⟨d, hd, hn⟩)

theorem outputs?_eq (hu : (definedNames defs).Nodup) (hd : d ∈ defs) (hn : d.name? = some n) :
    outputs? defs n = d.outputs? := by
  unfold outputs?
  rw [find?_name_eq hu hd hn, Option.bind_some]

theorem exists_of_isObject (h : IsObject defs n) : ∃ d ∈ defs, d.name? = some n ∧ d.outputs?.isSome = true := by
  unfold IsObject outputs? at h
  obtain ⟨fields, hfields⟩ := Option.isSome_iff_exists.mp h
  obtain ⟨d, hd, houtputs⟩ := Option.bind_eq_some_iff.mp hfields
  have hname := List.find?_some (p := fun d : Definition => d.name? == some n) hd
  refine ⟨d, List.mem_of_find?_eq_some hd, beq_iff_eq.mp hname, ?_⟩
  rw [houtputs, Option.isSome_some]

/-! ## Names of types -/

theorem bareName_eq (h : IsIdentifier n) : bareName n = n := by
  have hmarks : ∀ x ∈ typeMarks, x ∉ n.toList := List.forall_mem_cons.mpr ⟨h.not_mem (by decide),
    List.forall_mem_cons.mpr ⟨h.not_mem (by decide), List.forall_mem_singleton.mpr (h.not_mem (by decide))⟩⟩
  have hall : ∀ x ∈ n.toList, (!typeMarks.contains x) = true := by
    intro x hx
    rw [Bool.not_eq_true', Bool.eq_false_iff]
    exact fun hm => hmarks x (List.contains_iff_mem.mp hm) hx
  unfold bareName
  rw [List.filter_eq_self.mpr hall, String.ofList_toList]

theorem bareName_required (type : String) : bareName (type ++ "!") = bareName type := by
  unfold bareName
  rw [String.toList_append, List.filter_append]
  exact congrArg String.ofList (List.append_nil _)

theorem bareName_list (type : String) : bareName ("[" ++ type ++ "]") = bareName type := by
  unfold bareName
  rw [String.toList_append, String.toList_append, List.filter_append, List.filter_append]
  exact congrArg String.ofList (List.append_nil _)

theorem bareName_of_prints {text : String} (hn : IsIdentifier n) (h : Prints text n) : bareName text = n := by
  rcases h with rfl | rfl
  · exact bareName_eq hn
  · rw [bareName_list, bareName_eq hn]

/-- The type of an attribute's field is called like what the attribute references. -/
theorem bareName_of_referenced {required : Bool} (hn : IsIdentifier n) (h : a.shape.referenced? = some n) :
    bareName (fieldType c .object (.ofAttribute a required)) = n := by
  have hprints : bareName (Surface.api.mapShape a.shape) = n :=
    bareName_of_prints hn (prints_of_referenced (c := c) h).1
  unfold fieldType
  split
  · rw [bareName_required]
    exact hprints
  · exact hprints

/-- If it references nothing, it is called like the enum that it names, or like a scalar. -/
theorem bareName_of_unreferenced {required : Bool} (hn : ∀ n, a.shape.enumName? = some n → IsIdentifier n)
    (h : a.shape.referenced? = none) :
    bareName (fieldType c .object (.ofAttribute a required)) ∈ scalarNames ∨
      a.shape.enumName? = some (bareName (fieldType c .object (.ofAttribute a required))) := by
  have hscalar : ∀ s, bareName (Surface.api.scalar s) ∈ scalarNames := by
    intro s
    obtain ⟨n, hn, hprints⟩ := prints_scalar s
    have hident : ∀ n ∈ scalarNames, IsIdentifier n := by decide
    rw [bareName_of_prints (hident n hn) hprints]
    exact hn
  have hshape : bareName (Surface.api.mapShape a.shape) ∈ scalarNames ∨
      a.shape.enumName? = some (bareName (Surface.api.mapShape a.shape)) := by
    cases hs : a.shape with
    | scalar s => exact .inl (hscalar s)
    | scalarArray s =>
      left
      show bareName ("[" ++ Surface.api.scalar s ++ "]") ∈ scalarNames
      rw [bareName_list]
      exact hscalar s
    | enum name values =>
      right
      rw [hs] at hn
      exact congrArg some (bareName_eq (hn name rfl)).symm
    | reference name => rw [hs] at h; cases h
    | referenceArray name => rw [hs] at h; cases h
  unfold fieldType
  split
  · rw [bareName_required]
    exact hshape
  · exact hshape

/-! ## Object types -/

section

variable (hc : c.IsSound) (h : Composed o c ds enums defs) (hu : (definedNames defs).Nodup)

include hc h

/-- What an entity of the API brings is defined. -/
theorem composite_mem (he : InApi c e) {d : TypeDecl} (hd : d ∈ ownDecls e) : composite o c d ∈ defs := by
  obtain ⟨r', hcollected⟩ := h.collected
  rw [h.eq]
  refine List.mem_append_left _ (List.mem_append_right _ (List.mem_map_of_mem ?_))
  exact mem_types_of_own hc (.refl _) hcollected he hd

include hu

/-- The fields of a declared object type. -/
theorem outputs?_of_own (he : InApi c e) {d : TypeDecl} (hd : d ∈ ownDecls e) (hrole : d.role = .object) :
    outputs? defs d.name = some (d.fields.map fun f => (f.name, fieldType c .object f)) := by
  rw [outputs?_eq hu (composite_mem hc h he hd) rfl]
  unfold composite
  rw [hrole]
  show some (List.map _ (List.map _ _)) = _
  rw [List.map_map]
  rfl

theorem fieldOf?_of_own (he : InApi c e) {d : TypeDecl} (hd : d ∈ ownDecls e) (hrole : d.role = .object)
    (hn : (d.fields.map Field.name).Nodup) {f : Field} (hf : f ∈ d.fields) :
    fieldOf? defs d.name f.name = some (bareName (fieldType c .object f)) := by
  have hnames : ((d.fields.map fun f => (f.name, fieldType c .object f)).map Prod.fst).Nodup := by
    rw [List.map_map]
    exact hn
  have hmem : (f.name, fieldType c .object f) ∈ d.fields.map fun f => (f.name, fieldType c .object f) :=
    List.mem_map_of_mem hf
  unfold fieldOf?
  rw [outputs?_of_own hc h hu he hd hrole, Option.bind_some, Members.lookup_of_mem hnames hmem, Option.map_some]

/-- The field of an attribute. -/
theorem fieldOf?_attribute (he : InApi c e) (ha : a ∈ e.attributes) : ∃ required,
    fieldOf? defs e.name a.name = some (bareName (fieldType c .object (.ofAttribute a required))) := by
  have hn : ((entityDecl e).fields.map Field.name).Nodup := by
    unfold entityDecl
    rw [List.map_map]
    exact hc.distinct e.name e (he.entity? hc)
  exact ⟨_, fieldOf?_of_own hc h hu he (entityDecl_mem_ownDecls e) rfl hn (List.mem_map_of_mem ha)⟩

/-- The field of an attribute that references something has a type of its name. -/
theorem fieldOf?_reference (hn : c.IsNamed) (he : InApi c e) (ha : a ∈ e.attributes)
    (hr : a.shape.referenced? = some n) : fieldOf? defs e.name a.name = some n := by
  obtain ⟨required, hfield⟩ := fieldOf?_attribute hc h hu he ha
  have hentity := hc.entities.mem_values_iff.mpr ⟨_, he.entity? hc⟩
  rw [hfield, bareName_of_referenced (hn.references e hentity a ha n hr) hr]

/-- The field of any other attribute has a scalar for its type, or an enum. -/
theorem exists_fieldOf?_of_unreferenced (he : InApi c e) (ha : a ∈ e.attributes)
    (hr : a.shape.referenced? = none) : ∃ type, fieldOf? defs e.name a.name = some type ∧
      (type ∈ scalarNames ∨ ∃ f, c.enum? type = some f) := by
  obtain ⟨required, hfield⟩ := fieldOf?_attribute hc h hu he ha
  have henum := hc.enumerated e.name e (he.entity? hc) a ha
  have hident : ∀ n, a.shape.enumName? = some n → IsIdentifier n := fun n hn => by
    obtain ⟨f, hf⟩ := henum n hn
    exact isIdentifier_of_isTypeName (hc.enum_typeName n f hf)
  exact ⟨_, hfield, (bareName_of_unreferenced hident hr).imp_right (henum _)⟩

/-- The fields of an envelope; that of the data is called like what the envelope is around. -/
theorem fieldOf?_of_envelope {description : String} {data : Shape} (he : InApi c e)
    (hd : envelope n description data ∈ ownDecls e) :
    fieldOf? defs n "statusCode" = some "Int" ∧ fieldOf? defs n "message" = some "String" ∧
      fieldOf? defs n "data" = some (bareName (Surface.api.mapShape data)) := by
  have hnames : ((envelope n description data).fields.map Field.name).Nodup := by
    show ["statusCode", "message", "data"].Nodup
    decide
  have hfield : ∀ f ∈ (envelope n description data).fields,
      fieldOf? defs n f.name = some (bareName (fieldType c .object f)) := fun f hf =>
    fieldOf?_of_own hc h hu he hd rfl hnames hf
  have hinteger : bareName "Int!" = "Int" := by decide
  have htext : bareName "String" = "String" := by decide
  refine ⟨(hfield ⟨"statusCode", .integer, true, none⟩ ?_).trans (congrArg some hinteger),
    (hfield ⟨"message", .shape (.scalar .string), false, none⟩ ?_).trans (congrArg some htext),
    hfield ⟨"data", .shape data, false, none⟩ ?_⟩
  all_goals simp [envelope]

/-- The envelopes of a table are around its items. -/
theorem fieldOf?_envelope (ht : table ∈ c.tables)
    (hn : n = Naming.response table.name ∨ n = Naming.listResponse table.name) :
    fieldOf? defs n "statusCode" = some "Int" ∧ fieldOf? defs n "message" = some "String" ∧
      fieldOf? defs n "data" = some table.name := by
  have hentity := Catalog.mem_entityList_of_mem_tables ht
  have htable : bareName table.name = table.name := bareName_eq (isIdentifier_entity hc hentity)
  rcases hn with rfl | rfl
  · have hd : itemEnvelope table ∈ ownDecls (.table table) := mem_ownDecls_table.mpr (by simp)
    obtain ⟨hcode, hmessage, hdata⟩ := fieldOf?_of_envelope hc h hu (inApi_table hentity) hd
    exact ⟨hcode, hmessage, hdata.trans (congrArg some htable)⟩
  · have hd : listEnvelope table ∈ ownDecls (.table table) := mem_ownDecls_table.mpr (by simp)
    obtain ⟨hcode, hmessage, hdata⟩ := fieldOf?_of_envelope hc h hu (inApi_table hentity) hd
    exact ⟨hcode, hmessage, hdata.trans (congrArg some ((bareName_list _).trans htable))⟩

/-- The field of an operation in its root type. -/
theorem fieldOf?_operation {op : Operation} (ht : table ∈ c.tables) (hop : op ∈ kept c table) :
    fieldOf? defs op.kind.root op.name = some op.resultType := by
  let all := c.tables.flatMap (kept c)
  have hmem : op ∈ ofKind op.kind all :=
    List.mem_filter.mpr ⟨List.mem_flatMap.mpr ⟨table, ht, hop⟩, beq_self_eq_true _⟩
  have hroot : Definition.root op.kind (ofKind op.kind all) ∈ defs := by
    rw [h.eq, h.operations]
    exact List.mem_append_right _ ((root_mem_roots_iff _ _ _).mpr ⟨rfl, List.ne_nil_of_mem hmem⟩)
  have hnames : (((ofKind op.kind all).map fun op => (op.name, op.resultType)).map Prod.fst).Nodup := by
    rw [List.map_map]
    exact (nodup_names_kept hc).sublist (List.filter_sublist.map _)
  have hfield : (op.name, op.resultType) ∈ (ofKind op.kind all).map fun op => (op.name, op.resultType) :=
    List.mem_map_of_mem hmem
  have hresult : IsIdentifier op.resultType := by
    have hident := isIdentifier_entity hc (Catalog.mem_entityList_of_mem_tables ht)
    exact (wellNamed_of_mem_candidates hident (mem_kept_iff.mp hop).1).resultType
  unfold fieldOf?
  rw [outputs?_eq hu hroot rfl]
  show ((some _).bind _).map bareName = _
  rw [Option.bind_some, Members.lookup_of_mem hnames hfield, Option.map_some, bareName_eq hresult]

end

/-- The name is that of a root type or of an envelope. -/
def IsResult (c : Catalog) (n : String) : Prop :=
  (n ∈ Corpus.reservedNames ∧ c.tables ≠ []) ∨
    ∃ table ∈ c.tables, n = Naming.response table.name ∨ n = Naming.listResponse table.name

theorem role_of_deleteDecl {d : TypeDecl} (h : deleteDecl table = .ok d) : d.role = .input := by
  obtain ⟨fields, -, h⟩ := bind_eq_ok.mp h
  cases h
  rfl

theorem role_of_queryDecl {d : TypeDecl} {key : QueryKey} (h : queryDecl table key = .ok d) : d.role = .input := by
  obtain ⟨required, -, h⟩ := bind_eq_ok.mp h
  obtain ⟨optional, -, h⟩ := bind_eq_ok.mp h
  cases h
  rfl

/-- The object types among those that an entity brings. -/
theorem object_of_belongs {d : TypeDecl} (h : Belongs e d) (hrole : d.role = .object) : d = entityDecl e ∨
    ∃ table, e = .table table ∧ (d = itemEnvelope table ∨ d = listEnvelope table) := by
  have hinput : d.role ≠ .input := by
    rw [hrole]
    exact nofun
  rcases h with h | ⟨table, rfl, key, -, h⟩
  · cases e with
    | object obj =>
      rcases mem_ownDecls_object.mp h with rfl | rfl
      · exact .inl rfl
      · exact absurd rfl hinput
    | table table =>
      rcases mem_ownDecls_table.mp h with rfl | rfl | rfl | rfl | rfl | h
      · exact .inl rfl
      · exact absurd rfl hinput
      · exact absurd rfl hinput
      · exact .inr ⟨table, rfl, .inl rfl⟩
      · exact .inr ⟨table, rfl, .inr rfl⟩
      · exact absurd (role_of_deleteDecl h) hinput
  · exact absurd (role_of_queryDecl h) hinput

/-- The root types are defined as soon as there is a table. -/
theorem exists_root_iff (hc : c.IsSound) : (∃ kind all, .root kind all ∈ roots (c.tables.flatMap (kept c)) ∧
    kind.root = n) ↔ n ∈ Corpus.reservedNames ∧ c.tables ≠ [] := by
  have hmem : ∀ kind all, Definition.root kind all ∈ roots (c.tables.flatMap (kept c)) →
      kind ∈ kinds (c.tables.flatMap (kept c)) := by
    intro kind all hm
    obtain ⟨rfl, hne⟩ := (root_mem_roots_iff _ _ _).mp hm
    refine List.mem_filter.mpr ⟨?_, ?_⟩
    · cases kind <;> decide
    · rw [List.isEmpty_eq_false_iff.mpr hne]
      rfl
  have hkinds := kinds_kept hc
  constructor
  · rintro ⟨kind, all, hm, rfl⟩
    have hkind := hmem kind all hm
    refine ⟨by cases kind <;> decide, fun hnone => ?_⟩
    rw [hkinds, hnone] at hkind
    cases hkind
  · rintro ⟨hn, hne⟩
    rw [List.isEmpty_eq_false_iff.mpr hne, if_neg Bool.false_ne_true] at hkinds
    have hroot : ∃ kind : OperationKind, kind ∈ [OperationKind.query, .mutation] ∧ kind.root = n := by
      revert n
      decide
    obtain ⟨kind, hkind, rfl⟩ := hroot
    rw [← hkinds] at hkind
    exact ⟨kind, _, List.mem_append_left _ (List.mem_map_of_mem hkind), rfl⟩

/-- A declaration that is defined with fields to select is one of an object type. -/
theorem role_of_outputs? {decl : TypeDecl} (h : (composite o c decl).outputs?.isSome = true) :
    decl.role = .object := by
  cases hr : decl.role with
  | object => rfl
  | input =>
    unfold composite at h
    rw [hr] at h
    cases h

section

variable (hc : c.IsSound) (h : Composed o c ds enums defs)

include hc h

/-- An object type of a schema comes from an entity of the API, from a table or from its operations. -/
theorem name_of_isObject (hobject : IsObject defs n) : (∃ e, InApi c e ∧ e.name = n) ∨ IsResult c n := by
  have htables : ∀ {table}, InApi c (.table table) → table ∈ c.tables := fun he =>
    List.mem_filterMap.mpr ⟨_, hc.entities.mem_values_iff.mpr ⟨_, he.entity? hc⟩, rfl⟩
  obtain ⟨d, hd, hname, houtputs⟩ := exists_of_isObject hobject
  rw [h.eq, List.mem_append, List.mem_append] at hd
  rcases hd with (hd | hd) | hd
  · obtain ⟨enum, -, henum⟩ := exists_of_mem_mapM h.enums hd
    rw [enum_eq_ok henum] at houtputs
    cases houtputs
  · obtain ⟨decl, hdecl, rfl⟩ := List.mem_map.mp hd
    cases hname
    obtain ⟨r', hcollected⟩ := h.collected
    obtain ⟨e, he, hbelongs⟩ := belongs_of_mem (.refl _) hcollected hdecl
    rcases object_of_belongs hbelongs (role_of_outputs? houtputs) with rfl | ⟨table, rfl, rfl | rfl⟩
    · exact .inl ⟨e, he, rfl⟩
    · exact .inr (.inr ⟨table, htables he, .inl rfl⟩)
    · exact .inr (.inr ⟨table, htables he, .inr rfl⟩)
  · rw [h.operations] at hd
    cases d with
    | root kind all => exact .inr (.inl ((exists_root_iff hc).mp ⟨kind, all, hd, Option.some.inj hname⟩))
    | schema kinds => cases houtputs
    | enum name values => cases houtputs
    | composite role name description fields =>
      unfold roots at hd
      rw [kinds_kept hc] at hd
      cases ht : c.tables <;> simp [ht] at hd

variable (hu : (definedNames defs).Nodup)

include hu

theorem isObject_of_own (he : InApi c e) {d : TypeDecl} (hd : d ∈ ownDecls e) (hrole : d.role = .object) :
    IsObject defs d.name := by
  unfold IsObject
  rw [outputs?_of_own hc h hu he hd hrole, Option.isSome_some]

theorem isObject_of_isResult (hresult : IsResult c n) : IsObject defs n := by
  rcases hresult with hroot | ⟨table, ht, hname⟩
  · obtain ⟨kind, all, hm, rfl⟩ := (exists_root_iff hc).mpr hroot
    have hdef : Definition.root kind all ∈ defs := by
      rw [h.eq, h.operations]
      exact List.mem_append_right _ hm
    unfold IsObject
    rw [outputs?_eq hu hdef rfl]
    rfl
  · have htable := inApi_table (Catalog.mem_entityList_of_mem_tables ht)
    rcases hname with rfl | rfl
    · exact isObject_of_own hc h hu htable (d := itemEnvelope table) (mem_ownDecls_table.mpr (by simp)) rfl
    · exact isObject_of_own hc h hu htable (d := listEnvelope table) (mem_ownDecls_table.mpr (by simp)) rfl

/-- The object types of a schema are the entities of the API, the envelopes and the root types. -/
theorem isObject_iff : IsObject defs n ↔ (∃ e, InApi c e ∧ e.name = n) ∨ IsResult c n := by
  constructor
  · exact name_of_isObject hc h
  · rintro (⟨e, he, rfl⟩ | hresult)
    · exact isObject_of_own hc h hu he (entityDecl_mem_ownDecls e) rfl
    · exact isObject_of_isResult hc h hu hresult

end

end SchemaGen.ApiSchema
