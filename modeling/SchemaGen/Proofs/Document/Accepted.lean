import SchemaGen.Proofs.Document.Language

/-!
# What an accepted document looks like

A source that the rules accept has become a document with proper names: its own is a type name, its
attributes have different camel-case names, the enums that they name have type names, and every key
of a table is declared with a shape that can be a key.

Results:
1. `attributes_eq_ok`: the names of accepted attributes.
2. `SchemaDoc.isSound_of_parse`: what holds of every accepted document.
3. `EnumDoc.isTypeName_of_parseAll`: what holds of every accepted enum catalog.
-/

namespace SchemaGen

/-! ## Attributes -/

namespace Rules

variable {file : Path} {field : String}

/-- What an accepted attribute looks like. -/
structure IsAttribute (a : AttributeDoc) : Prop where
  camel : isCamelName a.name.toList = true
  enums : ∀ name, a.shape.enumName? = some name → isTypeName name.toList = true
  references : ∀ name, a.shape.referenced? = some name → isTypeName name.toList = true
  values : ∀ values, a.enumValues = some values → ∀ value ∈ values, isEnumValue value.toList = true
  listed : ∀ values, a.enumValues = some values → values ≠ [] ∧ values.Nodup

theorem isTypeName_of_hasShape {a : Draft.Attribute} {s : Shape} (h : a.HasShape s) {enum : String}
    (hs : s.enumName? = some enum) : isTypeName enum.toList = true := by
  cases h with
  | enum given proper type =>
    cases hs
    exact Pattern.mem_typeName_iff.mp proper
  | expr plain given parsed =>
    rw [enumName?_ofExpr? parsed] at hs
    cases hs

theorem isTypeName_of_ofExpr? {cs : List Char} {s : Shape} (h : Shape.ofExpr? cs = some s) {name : String}
    (hs : s.referenced? = some name) : isTypeName name.toList = true := by
  unfold Shape.ofExpr? at h
  split at h
  · dsimp only at h
    split at h
    · cases h
      cases hs
    · split at h
      · next hname =>
        cases h
        rw [← Option.some.inj hs, String.toList_ofList]
        exact hname
      · cases h
  · split at h
    · cases h
      cases hs
    · split at h
      · next hname =>
        cases h
        rw [← Option.some.inj hs, String.toList_ofList]
        exact hname
      · cases h

theorem isTypeName_of_referenced {a : Draft.Attribute} {s : Shape} (h : a.HasShape s) {name : String}
    (hs : s.referenced? = some name) : isTypeName name.toList = true := by
  cases h with
  | enum given proper type => cases hs
  | expr plain given parsed => exact isTypeName_of_ofExpr? parsed hs

theorem attributes_eq_ok {drafts : Option (List Draft.Attribute)} {docs : List AttributeDoc}
    (h : attributes file field drafts = .ok docs) :
    (∀ a ∈ docs, IsAttribute a) ∧ (docs.map AttributeDoc.name).Nodup := by
  obtain ⟨attrs, -, hall, hu⟩ := attributes_eq_ok_iff.mp h
  refine ⟨fun doc hd => ?_, hu⟩
  obtain ⟨a, -, hbecomes⟩ := exists_of_mem_left hall.flip hd
  have hvalues : ∀ values, doc.enumValues = some values →
      values ≠ [] ∧ values.Nodup ∧ ∀ value ∈ values, isEnumValue value.toList = true := by
    intro values hv
    obtain ⟨-, hne, hnodup, hproper⟩ := hbecomes.values values (hbecomes.kept.2.2 ▸ hv)
    exact ⟨hne, hnodup, fun value hvalue => Pattern.mem_identifier_iff.mp (hproper value hvalue)⟩
  exact ⟨Pattern.mem_camelName_iff.mp hbecomes.camel, fun _ => isTypeName_of_hasShape hbecomes.shape,
    fun _ => isTypeName_of_referenced hbecomes.shape, fun values hv => (hvalues values hv).2.2,
    fun values hv => ⟨(hvalues values hv).1, (hvalues values hv).2.1⟩⟩

/-! ## Keys -/

variable {attrs : List AttributeDoc} {tablePartition : String}

theorem isKey_of_sortAttribute {sort : Option String}
    (h : sortAttribute file field (unlessBlank sort) attrs = .ok ()) :
    ∀ k ∈ (unlessBlank sort).toList, IsKey attrs k := fun k hk =>
  sortAttribute_eq_ok_iff.mp h k (mem_unlessBlank_iff.mp (Option.mem_toList.mp hk))

theorem index_eq_ok {draft : Draft.Index} {index : Index}
    (h : Rules.index file field tablePartition attrs draft = .ok index) :
    ∀ k ∈ index.key, IsKey attrs k := by
  unfold Rules.index at h
  obtain ⟨name, -, h⟩ := bind_eq_ok.mp h
  obtain ⟨_, -, h⟩ := bind_eq_ok.mp h
  obtain ⟨kind, -, h⟩ := bind_eq_ok.mp h
  obtain ⟨partition, -, h⟩ := bind_eq_ok.mp h
  obtain ⟨_, hpart, h⟩ := bind_eq_ok.mp h
  obtain ⟨_, hsort, h⟩ := bind_eq_ok.mp h
  obtain ⟨_, -, h⟩ := bind_eq_ok.mp h
  obtain ⟨proj, -, h⟩ := bind_eq_ok.mp h
  cases h
  intro k hk
  rcases List.mem_cons.mp hk with rfl | hk
  · exact (keyAttribute_eq_ok_iff _ _ _ _).mp hpart
  · exact isKey_of_sortAttribute hsort k hk

theorem indexesFrom_eq_ok {i : Nat} {seen : List String} {drafts : List Draft.Index}
    {indexes : List Index} (h : indexesFrom file tablePartition attrs i seen drafts = .ok indexes) :
    ∀ index ∈ indexes, ∀ k ∈ index.key, IsKey attrs k := by
  induction drafts generalizing i seen indexes with
  | nil =>
    cases h
    simp
  | cons draft rest ih =>
    unfold indexesFrom at h
    obtain ⟨index, hi, h⟩ := bind_eq_ok.mp h
    obtain ⟨_, -, h⟩ := bind_eq_ok.mp h
    obtain ⟨more, hm, h⟩ := bind_eq_ok.mp h
    cases h
    intro j hj
    rcases List.mem_cons.mp hj with rfl | hj
    · exact index_eq_ok hi
    · exact ih hm j hj

end Rules

/-- The attributes named by the keys of a table document. -/
def TableDoc.keyNames (t : TableDoc) : List String :=
  t.partition :: t.sort.toList ++ (t.indexes.getD []).flatMap Index.key

/-- What holds of an accepted document. -/
structure SchemaDoc.IsSound (d : SchemaDoc) : Prop where
  name : isTypeName d.name.toList = true
  attributes : ∀ a ∈ d.body.attributes, Rules.IsAttribute a
  distinct : (d.body.attributes.map AttributeDoc.name).Nodup
  keys : ∀ t, d.body = .table t → ∀ k ∈ t.keyNames, Rules.IsKey t.attributes k

namespace Rules

variable {file : Path}

theorem table_eq_ok {draft : Draft.Document} {t : TableDoc} (h : table file draft = .ok t) :
    (∀ a ∈ t.attributes, IsAttribute a) ∧ (t.attributes.map AttributeDoc.name).Nodup ∧
      ∀ k ∈ t.keyNames, IsKey t.attributes k := by
  unfold table at h
  obtain ⟨version, -, h⟩ := bind_eq_ok.mp h
  split at h
  · cases h
  · next model hmodel =>
    obtain ⟨partition, -, h⟩ := bind_eq_ok.mp h
    obtain ⟨attrs, hattrs, h⟩ := bind_eq_ok.mp h
    obtain ⟨_, hpart, h⟩ := bind_eq_ok.mp h
    obtain ⟨_, hsort, h⟩ := bind_eq_ok.mp h
    obtain ⟨ha, hu⟩ := attributes_eq_ok hattrs
    -- the primary key is declared, whatever the indexes are
    have key : ∀ indexes : Option (List Index),
        (∀ index ∈ indexes.getD [], ∀ k ∈ index.key, IsKey attrs k) →
        ∀ k ∈ (⟨version, partition, unlessBlank ((model.keys.getD {}).primary.getD {}).sort, indexes,
          attrs⟩ : TableDoc).keyNames, IsKey attrs k := by
      intro indexes hi k hk
      rcases List.mem_append.mp hk with hk | hk
      · rcases List.mem_cons.mp hk with rfl | hk
        · exact (keyAttribute_eq_ok_iff _ _ _ _).mp hpart
        · exact isKey_of_sortAttribute hsort k hk
      · obtain ⟨index, hm, hk⟩ := List.mem_flatMap.mp hk
        exact hi index hm k hk
    dsimp only at h
    split at h
    · obtain ⟨indexes, hi, h⟩ := bind_eq_ok.mp h
      cases hi
      cases h
      exact ⟨ha, hu, key none (by simp)⟩
    · obtain ⟨indexes, hi, h⟩ := bind_eq_ok.mp h
      obtain ⟨all, hall, rfl⟩ := map_eq_ok.mp hi
      cases h
      exact ⟨ha, hu, key (some all) (indexesFrom_eq_ok hall)⟩

theorem document_eq_ok {draft : Draft.Document} {d : SchemaDoc} (h : document file draft = .ok d) :
    d.IsSound := by
  unfold document at h
  obtain ⟨name, -, h⟩ := bind_eq_ok.mp h
  obtain ⟨kind, -, h⟩ := bind_eq_ok.mp h
  obtain ⟨_, -, h⟩ := bind_eq_ok.mp h
  obtain ⟨_, hname, h⟩ := bind_eq_ok.mp h
  obtain ⟨body, hbody, h⟩ := bind_eq_ok.mp h
  cases h
  rw [ensure_eq_ok_iff] at hname
  unfold Rules.body at hbody
  split at hbody
  · obtain ⟨t, ht, rfl⟩ := map_eq_ok.mp hbody
    obtain ⟨ha, hu, hk⟩ := table_eq_ok ht
    exact ⟨hname, ha, hu, fun t' he => by cases he; exact hk⟩
  · split at hbody
    · obtain ⟨attrs, ht, rfl⟩ := map_eq_ok.mp hbody
      obtain ⟨ha, hu⟩ := attributes_eq_ok ht
      exact ⟨hname, ha, hu, fun t' he => by cases he⟩
    · split at hbody
      · obtain ⟨attrs, ht, rfl⟩ := map_eq_ok.mp hbody
        obtain ⟨ha, hu⟩ := attributes_eq_ok ht
        exact ⟨hname, ha, hu, fun t' he => by cases he⟩
      · cases hbody

theorem enumsFrom_eq_ok {entries : List (String × List String)} {enums : List EnumDoc}
    (h : enumsFrom file entries = .ok enums) :
    enums.map EnumDoc.name = entries.map Prod.fst ∧
      ∀ e ∈ enums, isTypeName e.name.toList = true := by
  induction entries generalizing enums with
  | nil =>
    cases h
    simp
  | cons entry rest ih =>
    obtain ⟨name, values⟩ := entry
    unfold enumsFrom at h
    obtain ⟨_, hname, h⟩ := bind_eq_ok.mp h
    obtain ⟨_, -, h⟩ := bind_eq_ok.mp h
    obtain ⟨more, hm, h⟩ := bind_eq_ok.mp h
    cases h
    obtain ⟨hn, hmore⟩ := ih hm
    rw [ensure_eq_ok_iff] at hname
    refine ⟨by rw [List.map_cons, List.map_cons, hn], fun e he => ?_⟩
    rcases List.mem_cons.mp he with rfl | he
    · exact hname
    · exact hmore e he

end Rules

/-- A document that was parsed obeys every rule. -/
theorem SchemaDoc.isSound_of_parse {file : Path} {source : String} {d : SchemaDoc}
    (h : SchemaDoc.parse file source = .ok d) : d.IsSound := by
  unfold SchemaDoc.parse at h
  split at h
  · exact Rules.document_eq_ok h
  · cases h

/-- The enums of a catalog that was parsed have type names. -/
theorem EnumDoc.isTypeName_of_parseAll {file : Path} {source : String} {enums : List EnumDoc}
    (h : EnumDoc.parseAll file source = .ok enums) : ∀ e ∈ enums, isTypeName e.name.toList = true := by
  unfold EnumDoc.parseAll at h
  split at h
  · exact (Rules.enumsFrom_eq_ok h).2
  · cases h

end SchemaGen
