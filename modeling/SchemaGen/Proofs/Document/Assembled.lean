import SchemaGen.Document.Corpus
import SchemaGen.Proofs.Document.Accepted
import SchemaGen.Proofs.Document.Sources
import SchemaGen.Text.Lines
import SchemaGen.Proofs.NameOrder

/-!
# What an assembled catalog looks like

A corpus of parsed documents that makes a catalog makes a sound one: entities and enums stand under
their names, which are type names; no name belongs to an entity and an enum; and no name is generated
for two entities, or generated for one entity and borne by an entity or an enum.

Results:
1. `entity?_assemble`, `enum?_assemble`: the entities and enums of a catalog.
2. `owners_eq_ok`: every generated name has the one entity it is generated for as its owner.
3. `assembled_of_catalog`: the checks that a catalog has passed.
4. `isSound_of_catalog`: what holds of every catalog made from parsed documents.
-/

namespace SchemaGen

/-- The corpus consists of documents and of an enum catalog that were parsed, if there is one. -/
structure Corpus.IsParsed (c : Corpus) : Prop where
  documents : ∀ d ∈ c.documents, ∃ file source, SchemaDoc.parse file source = .ok d
  enums : c.enums = [] ∨ ∃ file source, EnumDoc.parseAll file source = .ok c.enums

theorem Corpus.isParsed_of_mapM {c : Corpus} {s : List (Path × List String)}
    (h : (s.mapM fun source => SchemaDoc.parseAscii source.1 (Text.unlines source.2)) = .ok c.documents)
    (henums : c.enums = [] ∨ ∃ file source, EnumDoc.parseAll file source = .ok c.enums) : c.IsParsed := by
  refine ⟨fun d hd => ?_, henums⟩
  obtain ⟨source, -, hs⟩ := exists_of_mem_mapM h hd
  exact ⟨source.1, Text.unlines source.2, (SchemaDoc.parseAscii_eq _ _).symm.trans hs⟩

/-- What holds of a catalog made from parsed documents. -/
structure Catalog.IsSound (c : Catalog) : Prop where
  entities : c.entities.Ordered
  enums : c.enums.Ordered
  entity_name : ∀ n e, c.entity? n = some e → e.name = n
  enum_name : ∀ n e, c.enum? n = some e → e.name = n
  entity_typeName : ∀ n e, c.entity? n = some e → isTypeName n.toList = true
  enum_typeName : ∀ n e, c.enum? n = some e → isTypeName n.toList = true
  camel : ∀ n e, c.entity? n = some e → ∀ a ∈ e.attributes, isCamelName a.name.toList = true
  distinct : ∀ n e, c.entity? n = some e → (e.attributes.map Attribute.name).Nodup
  keys : ∀ n t, c.entity? n = some (.table t) →
    ∀ k ∈ t.keyAttributes, ∃ a, t.attribute? k = some a ∧ a.shape.keyType?.isSome = true
  apart : ∀ n e, c.entity? n = some e → c.enum? n = none
  unreserved : ∀ n e, c.entity? n = some e → n ∉ Corpus.reservedNames
  resolved : ∀ n e, c.entity? n = some e →
    ∀ a ∈ e.attributes, ∀ m, a.shape = .reference m → c.enum? m = none
  enumerated : ∀ n e, c.entity? n = some e →
    ∀ a ∈ e.attributes, ∀ m, a.shape.enumName? = some m → ∃ f, c.enum? m = some f
  owned : ∀ n m e f, c.entity? n = some e → c.entity? m = some f →
    ∀ g ∈ Corpus.generatedNames e, g ∈ Corpus.generatedNames f → n = m
  free : ∀ n e, c.entity? n = some e →
    ∀ g ∈ Corpus.generatedNames e, c.entity? g = none ∧ c.enum? g = none

theorem Catalog.IsSound.entity?_of_mem {c : Catalog} {e : Entity} (hc : c.IsSound)
    (h : e ∈ c.entityList) : c.entity? e.name = some e := by
  obtain ⟨n, hn⟩ := hc.entities.mem_values_iff.mp h
  rw [hc.entity_name n e hn]
  exact hn

theorem Catalog.IsSound.isTypeName_entity {c : Catalog} {e : Entity} (hc : c.IsSound)
    (h : e ∈ c.entityList) : isTypeName e.name.toList = true :=
  hc.entity_typeName e.name e (hc.entity?_of_mem h)

theorem Catalog.IsSound.isTypeName_enum {c : Catalog} {e : EnumType} (hc : c.IsSound)
    (h : e ∈ c.enumList) : isTypeName e.name.toList = true := by
  obtain ⟨n, hn⟩ := hc.enums.mem_values_iff.mp h
  rw [hc.enum_name n e hn]
  exact hc.enum_typeName n e hn

theorem Catalog.mem_entityList_of_mem_tables {c : Catalog} {table : Table} (h : table ∈ c.tables) :
    .table table ∈ c.entityList := by
  obtain ⟨e, he, htable⟩ := List.mem_filterMap.mp h
  cases e with
  | object o => cases htable
  | table table' =>
    cases htable
    exact he

theorem Catalog.IsSound.entity?_of_mem_tables {c : Catalog} {table : Table} (hc : c.IsSound)
    (h : table ∈ c.tables) : c.entity? table.name = some (.table table) :=
  hc.entity?_of_mem (mem_entityList_of_mem_tables h)

/-- The attributes of a table's keys are declared. -/
theorem Catalog.IsSound.attribute?_of_key {c : Catalog} {table : Table} (hc : c.IsSound)
    (h : c.entity? table.name = some (.table table)) {k : String} (hk : k ∈ table.keyAttributes) :
    ∃ a, table.attribute? k = some a := by
  obtain ⟨a, ha, -⟩ := hc.keys _ table h k hk
  exact ⟨a, ha⟩

/-- The names of an entity's types, its own and those generated for it, tell which entity it is. -/
theorem Catalog.IsSound.eq_of_typeName {c : Catalog} {e f : Entity} (hc : c.IsSound)
    (he : c.entity? e.name = some e) (hf : c.entity? f.name = some f) {n : String}
    (hn : n = e.name ∨ n ∈ Corpus.generatedNames e) (hn' : n = f.name ∨ n ∈ Corpus.generatedNames f) :
    e = f := by
  have heq : e.name = f.name → e = f := fun hname => by
    rw [hname, hf] at he
    exact (Option.some.inj he).symm
  -- a generated name is borne by no entity
  rcases hn with rfl | hn
  · rcases hn' with hn' | hn'
    · exact heq hn'
    · rw [(hc.free f.name f hf _ hn').1] at he
      cases he
  · rcases hn' with rfl | hn'
    · rw [(hc.free e.name e he _ hn).1] at hf
      cases hf
    · exact heq (hc.owned _ _ e f he hf n hn hn')

/-- The names of an entity's types are borne by no enum. -/
theorem Catalog.IsSound.enum?_eq_none {c : Catalog} {e : Entity} (hc : c.IsSound)
    (he : c.entity? e.name = some e) {n : String} (hn : n = e.name ∨ n ∈ Corpus.generatedNames e) :
    c.enum? n = none := by
  rcases hn with rfl | hn
  · exact hc.apart _ e he
  · exact (hc.free _ e he n hn).2

namespace Corpus

variable {enums : NameMap (List String)} {documents : List SchemaDoc}

/-! ## Enums -/

theorem addUse_eq_ok {enums' : NameMap (List String)} {u : EnumUse} (h : addUse enums u = .ok enums')
    (ho : enums.Ordered) : enums'.Ordered ∧ ∀ n ∈ enums'.names, n = u.name ∨ n ∈ enums.names := by
  unfold addUse at h
  split at h
  · cases h
    exact ⟨ho, fun n hn => .inr hn⟩
  · split at h
    · split at h
      · cases h
        exact ⟨ho, fun n hn => .inr hn⟩
      · cases h
    · cases h
      exact ⟨NameMap.ordered_insert ho _ _, fun n hn => (NameMap.mem_names_insert _ _ _ _).mp hn⟩

theorem foldlM_addUse_eq_ok {uses : List EnumUse} {enums' : NameMap (List String)}
    (h : uses.foldlM addUse enums = .ok enums') (ho : enums.Ordered) :
    enums'.Ordered ∧ ∀ n ∈ enums'.names, (∃ u ∈ uses, u.name = n) ∨ n ∈ enums.names := by
  induction uses generalizing enums with
  | nil =>
    cases h
    exact ⟨ho, fun n hn => .inr hn⟩
  | cons u rest ih =>
    rw [List.foldlM_cons] at h
    obtain ⟨enums₁, hu, h⟩ := bind_eq_ok.mp h
    obtain ⟨ho₁, hn₁⟩ := addUse_eq_ok hu ho
    obtain ⟨ho', hn'⟩ := ih h ho₁
    refine ⟨ho', fun n hn => ?_⟩
    rcases hn' n hn with ⟨v, hv, he⟩ | hn
    · exact .inl ⟨v, List.mem_cons_of_mem _ hv, he⟩
    · rcases hn₁ n hn with rfl | hn
      · exact .inl ⟨u, List.mem_cons_self, rfl⟩
      · exact .inr hn

theorem mem_enumUses {d : SchemaDoc} {u : EnumUse} (h : u ∈ enumUses d) :
    ∃ a ∈ d.body.attributes, a.shape.enumName? = some u.name := by
  unfold enumUses at h
  obtain ⟨⟨a, i⟩, ha, hu⟩ := List.mem_filterMap.mp h
  obtain ⟨name, hn, rfl⟩ := Option.map_eq_some_iff.mp hu
  exact ⟨a, List.fst_mem_of_mem_zipIdx ha, hn⟩

theorem exists_enumUse {d : SchemaDoc} {a : AttributeDoc} {n : String} (ha : a ∈ d.body.attributes)
    (hn : a.shape.enumName? = some n) : ∃ u ∈ enumUses d, u.name = n := by
  obtain ⟨i, hi, rfl⟩ := List.getElem_of_mem ha
  have hm : (d.body.attributes[i], i) ∈ d.body.attributes.zipIdx :=
    List.mem_zipIdx_iff_getElem?.mpr (List.getElem?_eq_getElem hi)
  unfold enumUses
  exact ⟨_, List.mem_filterMap.mpr ⟨_, hm, Option.map_eq_some_iff.mpr ⟨n, hn, rfl⟩⟩, rfl⟩

/-- The enums that attributes name have values. -/
theorem exists_values_of_enumValues {c : Corpus} (h : c.enumValues = .ok enums) {d : SchemaDoc}
    (hd : d ∈ c.documents) {a : AttributeDoc} (ha : a ∈ d.body.attributes) {n : String}
    (hn : a.shape.enumName? = some n) : ∃ values, enums.get? n = some values := by
  unfold enumValues at h
  obtain ⟨all, -, h⟩ := bind_eq_ok.mp h
  obtain ⟨_, hcheck, h⟩ := bind_eq_ok.mp h
  cases h
  obtain ⟨u, hu, rfl⟩ := exists_enumUse ha hn
  have := forM_eq_ok.mp hcheck u (List.mem_flatMap.mpr ⟨d, hd, hu⟩)
  unfold checkUse at this
  rw [Rules.ensure_eq_ok_iff] at this
  exact Option.isSome_iff_exists.mp this

/-- The enums of a corpus have type names: those of the enum catalog, and those that attributes name. -/
theorem enumValues_eq_ok {c : Corpus} (hc : c.IsParsed) (h : c.enumValues = .ok enums) :
    enums.Ordered ∧ ∀ n ∈ enums.names, isTypeName n.toList = true := by
  unfold enumValues at h
  obtain ⟨all, hf, h⟩ := bind_eq_ok.mp h
  obtain ⟨_, -, h⟩ := bind_eq_ok.mp h
  cases h
  obtain ⟨ho, hn⟩ := foldlM_addUse_eq_ok hf (NameMap.ordered_ofList _)
  refine ⟨ho, fun n hm => ?_⟩
  rcases hn n hm with ⟨u, hu, rfl⟩ | hm
  · obtain ⟨d, hd, hu⟩ := List.mem_flatMap.mp hu
    obtain ⟨a, ha, hs⟩ := mem_enumUses hu
    obtain ⟨file, source, hp⟩ := hc.documents d hd
    exact ((SchemaDoc.isSound_of_parse hp).attributes a ha).enums _ hs
  · rw [NameMap.mem_names_ofList, List.map_map] at hm
    obtain ⟨e, he, rfl⟩ := List.mem_map.mp hm
    rcases hc.enums with hnil | ⟨file, source, hp⟩
    · rw [hnil] at he
      cases he
    · exact EnumDoc.isTypeName_of_parseAll hp e he

/-! ## Entities -/

theorem name_toEntity (enums : NameMap (List String)) (d : SchemaDoc) :
    (toEntity enums d).name = d.name := by
  unfold toEntity
  split <;> rfl

theorem attributes_toEntity (enums : NameMap (List String)) (d : SchemaDoc) :
    (toEntity enums d).attributes = d.body.attributes.map (toAttribute enums) := by
  unfold toEntity DocBody.attributes
  cases d.body with
  | table t => rfl
  | object origin attrs => rfl

/-- What a reference has become names no enum. -/
theorem resolve_eq_reference {shape : Shape} {m : String} (h : resolve enums shape = .reference m) :
    enums.get? m = none := by
  unfold resolve at h
  split at h
  · cases h
  · split at h
    · cases h
    · next hn =>
      cases h
      exact hn
  · next hs =>
    cases h
    exact absurd rfl (hs m)

/-- What names an enum either named it before or referenced it. -/
theorem enumName?_resolve {shape : Shape} {m : String} (h : (resolve enums shape).enumName? = some m) :
    shape.enumName? = some m ∨ ∃ values, enums.get? m = some values := by
  unfold resolve at h
  split at h
  · exact .inl h
  · split at h
    · next values hv =>
      cases h
      exact .inr ⟨values, hv⟩
    · cases h
  · exact .inl h

/-- A shape that can be a key stays one. -/
theorem isSome_keyType?_resolve {shape : Shape} (h : shape.keyType?.isSome = true) :
    (resolve enums shape).keyType?.isSome = true := by
  cases shape with
  | enum name values => rfl
  | reference name => cases h
  | _ => exact h

theorem toEntity_eq_table {d : SchemaDoc} {t : Table} (h : toEntity enums d = .table t) :
    ∃ doc, d.body = .table doc ∧ t.attributes = doc.attributes.map (toAttribute enums) ∧
      t.primaryKey ++ t.indexes.flatMap Index.key = doc.keyNames := by
  unfold toEntity at h
  split at h
  · next doc hd =>
    cases h
    exact ⟨doc, hd, rfl, rfl⟩
  · cases h

theorem attribute?_of_isKey {attrs : List AttributeDoc} {t : Table} {k : String}
    (ht : t.attributes = attrs.map (toAttribute enums)) (h : Rules.IsKey attrs k) :
    ∃ a, t.attribute? k = some a ∧ a.shape.keyType?.isSome = true := by
  obtain ⟨a, ha, hk⟩ := h
  refine ⟨toAttribute enums a, ?_, isSome_keyType?_resolve hk⟩
  unfold Table.attribute?
  rw [ht, List.find?_map]
  have : (fun a : Attribute => a.name == k) ∘ toAttribute enums = fun a => a.name == k := rfl
  rw [this, ha]
  rfl

/-! ## Assembling -/

theorem entities_foldl_addEnum (pairs : List (String × List String)) (c : Catalog) :
    (pairs.foldl (fun (c : Catalog) p => c.addEnum ⟨p.1, p.2⟩) c).entities = c.entities := by
  induction pairs generalizing c with
  | nil => rfl
  | cons p rest ih => exact ih (c.addEnum ⟨p.1, p.2⟩)

theorem enums_foldl_addEnum (pairs : List (String × List String)) (c : Catalog) :
    (pairs.foldl (fun (c : Catalog) p => c.addEnum ⟨p.1, p.2⟩) c).enums =
      pairs.foldl (fun m p => m.insert p.1 ⟨p.1, p.2⟩) c.enums := by
  induction pairs generalizing c with
  | nil => rfl
  | cons p rest ih => exact ih (c.addEnum ⟨p.1, p.2⟩)

theorem entities_foldl_addEntity (enums : NameMap (List String)) (documents : List SchemaDoc)
    (c : Catalog) : (documents.foldl (fun c d => c.addEntity (toEntity enums d)) c).entities =
      documents.foldl (fun m d => m.insert d.name (toEntity enums d)) c.entities := by
  induction documents generalizing c with
  | nil => rfl
  | cons d rest ih =>
    rw [List.foldl_cons, List.foldl_cons, ih]
    unfold Catalog.addEntity
    rw [name_toEntity]

theorem enums_foldl_addEntity (enums : NameMap (List String)) (documents : List SchemaDoc)
    (c : Catalog) : (documents.foldl (fun c d => c.addEntity (toEntity enums d)) c).enums = c.enums := by
  induction documents generalizing c with
  | nil => rfl
  | cons d rest ih => exact ih (c.addEntity (toEntity enums d))

theorem entities_assemble (enums : NameMap (List String)) (documents : List SchemaDoc) :
    (assemble enums documents).entities =
      documents.foldl (fun m d => m.insert d.name (toEntity enums d)) .empty := by
  unfold assemble
  rw [entities_foldl_addEntity, entities_foldl_addEnum]
  rfl

theorem enums_assemble (enums : NameMap (List String)) (documents : List SchemaDoc) :
    (assemble enums documents).enums =
      enums.pairs.foldl (fun m p => m.insert p.1 ⟨p.1, p.2⟩) .empty := by
  unfold assemble
  rw [enums_foldl_addEntity, enums_foldl_addEnum]
  rfl

/-- The entities of a catalog are what the documents describe. -/
theorem entity?_assemble (enums : NameMap (List String)) (hu : (documents.map SchemaDoc.name).Nodup)
    (n : String) (e : Entity) :
    (assemble enums documents).entity? n = some e ↔
      ∃ d ∈ documents, d.name = n ∧ toEntity enums d = e := by
  unfold Catalog.entity?
  rw [entities_assemble, NameMap.get?_foldl_insert _ _ _ _ hu]
  simp [NameMap.empty, NameMap.get?, NameMap.lookupPair]

/-- The enums of a catalog are those whose values are known. -/
theorem enum?_assemble (ho : enums.Ordered) (documents : List SchemaDoc) (n : String) (e : EnumType) :
    (assemble enums documents).enum? n = some e ↔ ∃ values, enums.get? n = some values ∧ e = ⟨n, values⟩ := by
  unfold Catalog.enum?
  rw [enums_assemble, NameMap.get?_foldl_insert _ _ _ _ ho.nodup_names]
  constructor
  · rintro (⟨⟨k, values⟩, hp, rfl, rfl⟩ | ⟨-, h⟩)
    · exact ⟨values, ho.mem_pairs_iff.mp hp, rfl⟩
    · simp [NameMap.empty, NameMap.get?, NameMap.lookupPair] at h
  · rintro ⟨values, hv, rfl⟩
    exact .inl ⟨(n, values), ho.mem_pairs_iff.mpr hv, rfl, rfl⟩

/-! ## Owners -/

/-- The owners after a step are those before it, and perhaps more. -/
def Extends (m m' : NameMap String) : Prop := ∀ n o, m.get? n = some o → m'.get? n = some o

theorem addOwner_eq_ok {owner name : String} {m m' : NameMap String}
    (h : addOwner documents owner m name = .ok m') : Extends m m' ∧ m'.get? name = some owner := by
  unfold addOwner at h
  split at h
  · next o ho =>
    split at h
    · next he =>
      cases h
      exact ⟨fun _ _ h => h, he ▸ ho⟩
    · cases h
  · next hn =>
    cases h
    refine ⟨fun n o hg => ?_, by rw [NameMap.get?_insert, if_pos rfl]⟩
    rw [NameMap.get?_insert, if_neg]
    · exact hg
    · rintro rfl
      rw [hn] at hg
      cases hg

theorem foldlM_addOwner_eq_ok {owner : String} {names : List String} {m m' : NameMap String}
    (h : names.foldlM (addOwner documents owner) m = .ok m') :
    Extends m m' ∧ ∀ n ∈ names, m'.get? n = some owner := by
  induction names generalizing m with
  | nil =>
    cases h
    exact ⟨fun _ _ h => h, by simp⟩
  | cons n rest ih =>
    rw [List.foldlM_cons] at h
    obtain ⟨m₁, hn, h⟩ := bind_eq_ok.mp h
    obtain ⟨he, hg⟩ := addOwner_eq_ok hn
    obtain ⟨he', hr⟩ := ih h
    refine ⟨fun k o hk => he' k o (he k o hk), fun k hk => ?_⟩
    rcases List.mem_cons.mp hk with rfl | hk
    · exact he' k owner hg
    · exact hr k hk

theorem foldlM_owners_eq_ok {entities : List Entity} {m m' : NameMap String}
    (h : entities.foldlM (fun owners e => (generatedNames e).foldlM (addOwner documents e.name) owners)
      m = .ok m') : Extends m m' ∧ ∀ e ∈ entities, ∀ n ∈ generatedNames e, m'.get? n = some e.name := by
  induction entities generalizing m with
  | nil =>
    cases h
    exact ⟨fun _ _ h => h, by simp⟩
  | cons e rest ih =>
    rw [List.foldlM_cons] at h
    obtain ⟨m₁, hn, h⟩ := bind_eq_ok.mp h
    obtain ⟨he, hg⟩ := foldlM_addOwner_eq_ok hn
    obtain ⟨he', hr⟩ := ih h
    refine ⟨fun k o hk => he' k o (he k o hk), fun f hf k hk => ?_⟩
    rcases List.mem_cons.mp hf with rfl | hf
    · exact he' k _ (hg k hk)
    · exact hr f hf k hk

/-- Every generated name has the entity it is generated for as its owner. -/
theorem owners_eq_ok {c : Catalog} {m : NameMap String} (h : owners documents c = .ok m) :
    ∀ e ∈ c.entityList, ∀ n ∈ generatedNames e, m.get? n = some e.name :=
  (foldlM_owners_eq_ok h).2

theorem notGenerated_eq_ok {m : NameMap String} {d : SchemaDoc} (h : notGenerated m d = .ok ()) :
    d.name ∉ reservedNames ∧ m.get? d.name = none := by
  unfold notGenerated at h
  split at h
  · cases h
  · next hr =>
    split at h
    · cases h
    · next hn => exact ⟨by simpa using hr, hn⟩

theorem enumNotGenerated_eq_ok {m : NameMap String} {e : EnumType}
    (h : enumNotGenerated documents m e = .ok ()) : m.get? e.name = none := by
  unfold enumNotGenerated at h
  split at h
  · cases h
  · next hn => exact hn

/-! ## Soundness -/

/-- What a successful assembly has gone through: the enums with their values, the owners of generated
names, and the checks that were passed. -/
structure Assembled (corpus : Corpus) (c : Catalog) (enums : NameMap (List String))
    (owned : NameMap String) : Prop where
  catalog : c = assemble enums corpus.documents
  distinct : (corpus.documents.map SchemaDoc.name).Nodup
  values : corpus.enumValues = .ok enums
  apart : ∀ d ∈ corpus.documents, notEnum enums d = .ok ()
  owners : owners corpus.documents c = .ok owned
  documents : ∀ d ∈ corpus.documents, notGenerated owned d = .ok ()
  enums : ∀ e ∈ c.enumList, enumNotGenerated corpus.documents owned e = .ok ()

theorem assembled_of_catalog {corpus : Corpus} {c : Catalog} (h : corpus.catalog = .ok c) :
    ∃ enums owned, Assembled corpus c enums owned := by
  unfold Corpus.catalog at h
  obtain ⟨_, hdistinct, h⟩ := bind_eq_ok.mp h
  obtain ⟨enums, hvalues, h⟩ := bind_eq_ok.mp h
  obtain ⟨_, happart, h⟩ := bind_eq_ok.mp h
  obtain ⟨_, hcheck, h⟩ := bind_eq_ok.mp h
  cases h
  unfold checkGeneratedNames at hcheck
  obtain ⟨owned, howners, hcheck⟩ := bind_eq_ok.mp hcheck
  obtain ⟨_, hdocuments, henums⟩ := bind_eq_ok.mp hcheck
  exact ⟨enums, owned, rfl, (distinctNames_eq_ok_iff _).mp hdistinct, hvalues, forM_eq_ok.mp happart,
    howners, forM_eq_ok.mp hdocuments, forM_eq_ok.mp henums⟩

namespace Assembled

variable {corpus : Corpus} {c : Catalog} {owned : NameMap String} {n : String} {e : Entity}

theorem ordered_entities (h : Assembled corpus c enums owned) : c.entities.Ordered := by
  rw [h.catalog, entities_assemble]
  exact NameMap.ordered_foldl_insert _ _ _ NameMap.ordered_empty

theorem ordered_enums (h : Assembled corpus c enums owned) : c.enums.Ordered := by
  rw [h.catalog, enums_assemble]
  exact NameMap.ordered_foldl_insert _ _ _ NameMap.ordered_empty

/-- Every entity is described by a document, which obeys every rule. -/
theorem exists_document (h : Assembled corpus c enums owned) (hp : corpus.IsParsed)
    (he : c.entity? n = some e) : ∃ d ∈ corpus.documents, d.IsSound ∧ d.name = n ∧ toEntity enums d = e := by
  rw [h.catalog, entity?_assemble enums h.distinct] at he
  obtain ⟨d, hd, hn, he⟩ := he
  obtain ⟨file, source, hparse⟩ := hp.documents d hd
  exact ⟨d, hd, SchemaDoc.isSound_of_parse hparse, hn, he⟩

/-- The enums are those whose values are known. -/
theorem enum?_iff (h : Assembled corpus c enums owned) (hp : corpus.IsParsed) (f : EnumType) :
    c.enum? n = some f ↔ ∃ values, enums.get? n = some values ∧ f = ⟨n, values⟩ := by
  rw [h.catalog]
  exact enum?_assemble (enumValues_eq_ok hp h.values).1 corpus.documents n f

/-- An attribute of an entity is one of its document, with its reference resolved. -/
theorem exists_attribute {d : SchemaDoc} (he : toEntity enums d = e) {a : Attribute}
    (ha : a ∈ e.attributes) : ∃ b ∈ d.body.attributes, toAttribute enums b = a := by
  subst he
  rw [attributes_toEntity] at ha
  exact List.mem_map.mp ha

/-- A key of a table is an attribute of it, of a shape that keys can have. -/
theorem exists_key (h : Assembled corpus c enums owned) (hp : corpus.IsParsed) {t : Table} {k : String}
    (he : c.entity? n = some (.table t)) (hk : k ∈ t.keyAttributes) :
    ∃ a, t.attribute? k = some a ∧ a.shape.keyType?.isSome = true := by
  obtain ⟨d, -, hd, -, ht⟩ := h.exists_document hp he
  obtain ⟨doc, hdoc, hattrs, hkeys⟩ := toEntity_eq_table ht
  refine attribute?_of_isKey hattrs (hd.keys doc hdoc k ?_)
  rw [← hkeys]
  unfold Table.keyAttributes at hk
  exact ((mem_firstSeen _ _ _).mp hk).1

theorem enum?_of_entity (h : Assembled corpus c enums owned) (hp : corpus.IsParsed)
    (he : c.entity? n = some e) : c.enum? n = none := by
  obtain ⟨d, hd, -, rfl, -⟩ := h.exists_document hp he
  rw [Option.eq_none_iff_forall_ne_some]
  intro f hf
  obtain ⟨values, hv, -⟩ := (h.enum?_iff hp f).mp hf
  have hnot := h.apart d hd
  unfold notEnum at hnot
  rw [Rules.ensure_eq_ok_iff] at hnot
  simp [NameMap.contains, hv] at hnot

/-- What is still a reference after the documents are resolved is not to an enum. -/
theorem enum?_of_reference (h : Assembled corpus c enums owned) (hp : corpus.IsParsed)
    (he : c.entity? n = some e) {a : Attribute} (ha : a ∈ e.attributes) {m : String}
    (hm : a.shape = .reference m) : c.enum? m = none := by
  obtain ⟨d, -, -, -, heq⟩ := h.exists_document hp he
  obtain ⟨b, -, rfl⟩ := exists_attribute heq ha
  rw [Option.eq_none_iff_forall_ne_some]
  intro f hf
  obtain ⟨values, hv, -⟩ := (h.enum?_iff hp f).mp hf
  rw [resolve_eq_reference hm] at hv
  cases hv

/-- An enum that an attribute names is in the catalog: the attribute lists its values, or refers to it. -/
theorem exists_enum (h : Assembled corpus c enums owned) (hp : corpus.IsParsed)
    (he : c.entity? n = some e) {a : Attribute} (ha : a ∈ e.attributes) {m : String}
    (hm : a.shape.enumName? = some m) : ∃ f, c.enum? m = some f := by
  obtain ⟨d, hd, -, -, heq⟩ := h.exists_document hp he
  obtain ⟨b, hb, rfl⟩ := exists_attribute heq ha
  have hvalues : ∃ values, enums.get? m = some values := by
    rcases enumName?_resolve hm with hm | hv
    · exact exists_values_of_enumValues h.values hd hb hm
    · exact hv
  obtain ⟨values, hv⟩ := hvalues
  exact ⟨_, (h.enum?_iff hp _).mpr ⟨values, hv, rfl⟩⟩

theorem owner (h : Assembled corpus c enums owned) (hp : corpus.IsParsed) (he : c.entity? n = some e)
    {g : String} (hg : g ∈ generatedNames e) : owned.get? g = some n := by
  obtain ⟨d, -, -, rfl, rfl⟩ := h.exists_document hp he
  rw [owners_eq_ok h.owners _ (h.ordered_entities.mem_values_iff.mpr ⟨_, he⟩) g hg, name_toEntity]

/-- A name that has an owner is borne by no entity and no enum. -/
theorem free_of_owner (h : Assembled corpus c enums owned) (hp : corpus.IsParsed) {g o : String}
    (hg : owned.get? g = some o) : c.entity? g = none ∧ c.enum? g = none := by
  constructor
  · rw [Option.eq_none_iff_forall_ne_some]
    intro f hf
    obtain ⟨d, hd, -, rfl, -⟩ := h.exists_document hp hf
    rw [(notGenerated_eq_ok (h.documents d hd)).2] at hg
    cases hg
  · rw [Option.eq_none_iff_forall_ne_some]
    intro f hf
    have hm := h.enums f (h.ordered_enums.mem_values_iff.mpr ⟨g, hf⟩)
    obtain ⟨values, -, rfl⟩ := (h.enum?_iff hp f).mp hf
    rw [enumNotGenerated_eq_ok hm] at hg
    cases hg

end Assembled

/-- Parsed documents that make a catalog make a sound one. -/
theorem isSound_of_catalog {corpus : Corpus} {c : Catalog} (hp : corpus.IsParsed)
    (hc : corpus.catalog = .ok c) : c.IsSound := by
  obtain ⟨enums, owned, h⟩ := assembled_of_catalog hc
  constructor
  case entities => exact h.ordered_entities
  case enums => exact h.ordered_enums
  case entity_name =>
    intro n e he
    obtain ⟨d, -, -, rfl, rfl⟩ := h.exists_document hp he
    exact name_toEntity _ _
  case enum_name =>
    intro n e he
    obtain ⟨values, -, rfl⟩ := (h.enum?_iff hp e).mp he
    rfl
  case entity_typeName =>
    intro n e he
    obtain ⟨d, -, hd, rfl, -⟩ := h.exists_document hp he
    exact hd.name
  case enum_typeName =>
    intro n e he
    obtain ⟨ho, htypes⟩ := enumValues_eq_ok hp h.values
    obtain ⟨values, hv, -⟩ := (h.enum?_iff hp e).mp he
    exact htypes n (ho.mem_names_iff.mpr ⟨values, hv⟩)
  case camel =>
    intro n e he a ha
    obtain ⟨d, -, hd, -, heq⟩ := h.exists_document hp he
    obtain ⟨b, hb, rfl⟩ := Assembled.exists_attribute heq ha
    exact (hd.attributes b hb).camel
  case distinct =>
    intro n e he
    obtain ⟨d, -, hd, -, rfl⟩ := h.exists_document hp he
    rw [attributes_toEntity, List.map_map]
    exact hd.distinct
  case keys => exact fun n t he k hk => h.exists_key hp he hk
  case apart => exact fun n e he => h.enum?_of_entity hp he
  case unreserved =>
    intro n e he
    obtain ⟨d, hd, -, rfl, -⟩ := h.exists_document hp he
    exact (notGenerated_eq_ok (h.documents d hd)).1
  case resolved => exact fun n e he a ha k hk => h.enum?_of_reference hp he ha hk
  case enumerated => exact fun n e he a ha k hk => h.exists_enum hp he ha hk
  case owned =>
    intro n k e f he hf g hg hg'
    have howner := h.owner hp he hg
    rw [h.owner hp hf hg'] at howner
    exact (Option.some.inj howner).symm
  case free =>
    intro n e he g hg
    exact h.free_of_owner hp (h.owner hp he hg)

end Corpus

end SchemaGen
