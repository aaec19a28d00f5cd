import Mathlib.Data.List.Forall2
import SchemaGen.Proofs.Checks
import SchemaGen.Proofs.Document.Patterns

/-!
# The documents that are accepted

What a proper document looks like is said here without the loader: which fields are given, which
patterns their texts match, which names have to be different and what a key may be. The loader checks
a document field by field and ends at the first violation; it accepts exactly the proper documents.

The rules are taken in the order of the data. An attribute list is accepted as the list of what each
attribute declares, so that the rules for keys and indexes, which look at the accepted attributes,
can be read on the draft.

Results:
1. `shape_eq_ok_iff`, `attributes_eq_ok_iff`: the attributes that are accepted, and as what.
2. `isKey_iff`: a key of accepted attributes is one of the attributes of the draft.
3. `exists_indexesFrom_iff`, `exists_table_iff`: the indexes and tables that are accepted.
4. `exists_document_iff`: the documents that are accepted.
-/

namespace SchemaGen

namespace Draft

/-- A field that is there and not blank. -/
def Given (value : Option String) (v : String) : Prop := value = some v ∧ Text.isBlankText v = false

/-! ## Attributes -/

namespace Attribute

/-- The shape that an attribute declares. One with an enum may give the type of texts besides, any
other has a type expression. -/
inductive HasShape (a : Attribute) : Shape → Prop
  | enum {name : String} (given : a.enumType = some name) (proper : name.toList ∈ Pattern.typeName)
      (type : ∀ type, a.type = some type → type = "string") : HasShape a (.enum name [])
  | expr {type : String} {shape : Shape} (plain : a.enumType = none) (given : Given a.type type)
      (parsed : Shape.parse? type = some shape) : HasShape a shape

/-- Values may be listed for an enum only: some, each once, and all of them identifiers. -/
def HasValues (a : Attribute) : Prop :=
  ∀ values, a.enumValues = some values → a.enumType.isSome = true ∧ values ≠ [] ∧ values.Nodup ∧
    ∀ value ∈ values, value.toList ∈ Pattern.identifier

/-- A proper attribute. -/
structure IsProper (a : Attribute) : Prop where
  name : ∃ name, Given a.name name ∧ name.toList ∈ Pattern.camelName
  shape : ∃ shape, a.HasShape shape
  values : a.HasValues

/-- What an attribute becomes. -/
structure Becomes (a : Attribute) (doc : AttributeDoc) : Prop where
  name : Given a.name doc.name
  camel : doc.name.toList ∈ Pattern.camelName
  shape : a.HasShape doc.shape
  values : a.HasValues
  kept : doc.required = a.required ∧ doc.description = a.description ∧ doc.enumValues = a.enumValues

theorem HasShape.unique {a : Attribute} {s s' : Shape} (h : a.HasShape s) (h' : a.HasShape s') :
    s = s' := by
  cases h with
  | enum given _ _ =>
    cases h' with
    | enum given' _ _ =>
      cases given.symm.trans given'
      rfl
    | expr plain' _ _ => cases given.symm.trans plain'
  | expr plain given parsed =>
    cases h' with
    | enum given' _ _ => cases plain.symm.trans given'
    | expr _ given' parsed' =>
      cases given.1.symm.trans given'.1
      exact Option.some.inj (parsed.symm.trans parsed')

theorem isProper_iff {a : Attribute} : a.IsProper ↔ ∃ doc, a.Becomes doc := by
  constructor
  · rintro ⟨⟨name, hname, hcamel⟩, ⟨shape, hshape⟩, hvalues⟩
    exact ⟨⟨name, shape, a.required, a.description, a.enumValues⟩, hname, hcamel, hshape, hvalues,
      rfl, rfl, rfl⟩
  · rintro ⟨doc, h⟩
    exact ⟨⟨doc.name, h.name, h.camel⟩, ⟨doc.shape, h.shape⟩, h.values⟩

end Attribute

/-- Proper attributes, no two of one name. -/
structure AreProper (attrs : List Attribute) : Prop where
  each : ∀ a ∈ attrs, a.IsProper
  distinct : (attrs.map Attribute.name).Nodup

/-- A key is the name of a declared attribute whose shape has a key type in the store. -/
def IsKey (attrs : List Attribute) (key : String) : Prop :=
  ∃ a ∈ attrs, a.name = some key ∧ ∃ shape, a.HasShape shape ∧ shape.keyType?.isSome = true

/-! ## Tables -/

/-- A proper index of a table with those attributes and that partition key. -/
structure Index.IsProper (attrs : List Attribute) (tablePartition : String) (i : Index) : Prop where
  name : ∃ name, Given i.name name ∧ name.toList ∈ Pattern.kebabName
  kind : i.kind ∈ [none, some "GSI", some "gsi", some "LSI", some "lsi"]
  partition : ∃ partition, Given i.partition partition ∧ IsKey attrs partition
  sort : ∀ sort, Given i.sort sort → IsKey attrs sort
  inPartition : i.kind ∈ [some "LSI", some "lsi"] → i.partition = some tablePartition
  sorted : i.kind ∈ [some "LSI", some "lsi"] → ∃ sort, Given i.sort sort
  projection : i.projectionType ∈ [none, some "ALL", some "KEYS_ONLY", some "INCLUDE"]
  included : i.projectionType = some "INCLUDE" → ∃ names, i.projectedAttributes = some names ∧
    names ≠ [] ∧ ∀ name ∈ names, some name ∈ attrs.map Attribute.name

/-- The primary key of a model; without a block for it nothing is given. -/
def Model.primary (m : Model) : PrimaryKey := (m.keys.getD {}).primary.getD {}

/-- The indexes of a model; without a list there are none. -/
def Model.indexes (m : Model) : List Index := (m.keys.getD {}).secondary.getD []

/-- A proper model block that declares those attributes and that partition key. -/
structure Model.Declares (m : Model) (attrs : List Attribute) (partition : String) : Prop where
  attributes : m.attributes = some attrs
  proper : AreProper attrs
  primary : Given m.primary.partition partition
  primaryKey : IsKey attrs partition
  sortKey : ∀ sort, Given m.primary.sort sort → IsKey attrs sort
  indexes : ∀ i ∈ m.indexes, i.IsProper attrs partition
  distinct : (m.indexes.map Index.name).Nodup

/-! ## Documents -/

namespace Document

/-- The version is a text that is not blank, or a number. -/
def HasVersion (d : Document) : Prop :=
  (∃ text, d.version = some (.text text) ∧ Text.isBlankText text = false) ∨
    ∃ text, d.version = some (.number text)

/-- What a document has to hold by its kind. -/
inductive HasBody (d : Document) : Prop
  | table {model : Model} {attrs : List Attribute} {partition : String} (kind : Given d.kind "table")
      (version : d.HasVersion) (given : d.model = some model) (model : model.Declares attrs partition)
  | graphql {attrs : List Attribute} (kind : Given d.kind "graphql") (given : d.attributes = some attrs)
      (proper : AreProper attrs)
  | static {attrs : List Attribute} (kind : Given d.kind "static") (given : d.attributes = some attrs)
      (proper : AreProper attrs)

/-- A proper document for a file. -/
structure IsProper (file : Path) (d : Document) : Prop where
  name : ∃ name, Given d.name name ∧ file.stem = name ∧ name.toList ∈ Pattern.typeName
  body : d.HasBody

end Document

end Draft

namespace Rules

open Draft

variable {file : Path} {field : String}

theorem ensure_bind_eq_ok {β : Type} {ok : Bool} {v : Violation} {f : Unit → Checked β} {b : β} :
    (ensure ok file field v >>= f) = .ok b ↔ ok = true ∧ f () = .ok b := by
  rw [bind_eq_ok]
  constructor
  · rintro ⟨_, h, h'⟩
    exact ⟨(ensure_eq_ok_iff _ _ _ _).mp h, h'⟩
  · rintro ⟨h, h'⟩
    exact ⟨(), (ensure_eq_ok_iff _ _ _ _).mpr h, h'⟩

theorem require_bind_eq_ok {β : Type} {value : Option String} {f : String → Checked β} {b : β} :
    (require file field value >>= f) = .ok b ↔ ∃ v, Given value v ∧ f v = .ok b := by
  rw [bind_eq_ok]
  exact exists_congr fun v => and_congr_left' (require_eq_ok_iff file field v value)

/-- A rule that passes leaves the ones after it. -/
theorem exists_bind_eq_ok {α β : Type} {x : Checked α} {f : α → Checked β} {a : α} (h : x = .ok a)
    (hf : ∃ b, f a = .ok b) : ∃ b, (x >>= f) = .ok b := by
  obtain ⟨b, hb⟩ := hf
  exact ⟨b, bind_eq_ok.mpr ⟨a, h, hb⟩⟩

theorem enumValuesFrom_eq_ok_iff {seen values : List String} :
    enumValuesFrom file field seen values = .ok () ↔
      (∀ value ∈ values, value.toList ∈ Pattern.identifier) ∧ values.Nodup ∧
        ∀ value ∈ values, value ∉ seen := by
  induction values generalizing seen with
  | nil => simp [enumValuesFrom]
  | cons value rest ih =>
    unfold enumValuesFrom
    rw [ensure_bind_eq_ok, ensure_bind_eq_ok, ih, List.forall_mem_cons, List.forall_mem_cons,
      List.nodup_cons, ← Pattern.mem_identifier_iff, Bool.not_eq_true', List.contains_eq_mem,
      decide_eq_false_iff_not]
    simp only [List.mem_cons, not_or]
    constructor
    · rintro ⟨hid, hseen, hids, hu, hrest⟩
      exact ⟨⟨hid, hids⟩, ⟨fun hm => (hrest value hm).1 rfl, hu⟩, hseen, fun v hv => (hrest v hv).2⟩
    · rintro ⟨⟨hid, hids⟩, ⟨hnot, hu⟩, hseen, hrest⟩
      exact ⟨hid, hseen, hids, hu, fun v hv => ⟨fun he => hnot (he ▸ hv), hrest v hv⟩⟩

theorem enumValues_eq_ok_iff {values : List String} :
    enumValues file field values = .ok () ↔
      values ≠ [] ∧ values.Nodup ∧ ∀ value ∈ values, value.toList ∈ Pattern.identifier := by
  unfold enumValues
  rw [ensure_bind_eq_ok, enumValuesFrom_eq_ok_iff, Bool.not_eq_true', List.isEmpty_eq_false_iff]
  simp [and_comm]

theorem shape_eq_ok_iff {name : String} {a : Draft.Attribute} {s : Shape} :
    shape file field name a = .ok s ↔ a.HasShape s := by
  unfold shape
  cases he : a.enumType with
  | some enum =>
    dsimp only
    rw [ensure_bind_eq_ok, ← Pattern.mem_typeName_iff]
    constructor
    · rintro ⟨hn, h⟩
      cases ht : a.type with
      | none =>
        rw [ht] at h
        cases h
        exact .enum he hn (by simp [ht])
      | some type =>
        rw [ht] at h
        dsimp only at h
        rw [ensure_bind_eq_ok, beq_iff_eq] at h
        obtain ⟨hs, h⟩ := h
        cases h
        refine .enum he hn fun type' ht' => ?_
        cases ht.symm.trans ht'
        exact hs
    · intro h
      cases h with
      | enum given proper type =>
        cases he.symm.trans given
        refine ⟨proper, ?_⟩
        cases ht : a.type with
        | none => rfl
        | some t =>
          dsimp only
          rw [ensure_bind_eq_ok, beq_iff_eq]
          exact ⟨type t ht, rfl⟩
      | expr plain _ _ => cases he.symm.trans plain
  | none =>
    dsimp only
    rw [require_bind_eq_ok]
    constructor
    · rintro ⟨type, given, h⟩
      split at h
      · next parsed =>
        cases h
        exact .expr he given parsed
      · cases h
    · intro h
      cases h with
      | enum given _ _ => cases he.symm.trans given
      | expr _ given parsed =>
        refine ⟨_, given, ?_⟩
        rw [parsed]
        rfl

theorem enumName?_ofExpr? {cs : List Char} {s : Shape} (h : Shape.ofExpr? cs = some s) :
    s.enumName? = none := by
  unfold Shape.ofExpr? at h
  split at h
  · dsimp only at h
    split at h
    · cases h
      rfl
    · split at h <;> cases h
      rfl
  · split at h
    · cases h
      rfl
    · split at h <;> cases h
      rfl

theorem inlineValues_eq_ok_iff {a : Draft.Attribute} {s : Shape} (hs : a.HasShape s) :
    inlineValues file field s a.enumValues = .ok () ↔ a.HasValues := by
  have henum : s.enumName?.isSome = a.enumType.isSome := by
    cases hs with
    | enum given _ _ =>
      rw [given]
      rfl
    | expr plain _ parsed => rw [plain, enumName?_ofExpr? parsed]
  unfold inlineValues Draft.Attribute.HasValues
  cases hv : a.enumValues with
  | none => simp
  | some values =>
    dsimp only
    rw [ensure_bind_eq_ok, enumValues_eq_ok_iff, henum]
    simp only [Option.some.injEq, forall_eq']

theorem attributeDoc_eq_ok_iff {seen : List String} {a : Draft.Attribute} {doc : AttributeDoc} :
    attributeDoc file field seen a = .ok doc ↔ a.Becomes doc ∧ doc.name ∉ seen := by
  unfold attributeDoc
  rw [require_bind_eq_ok]
  simp only [ensure_bind_eq_ok, ← Pattern.mem_camelName_iff, Bool.not_eq_true', List.contains_eq_mem,
    decide_eq_false_iff_not]
  constructor
  · rintro ⟨name, hname, hcamel, hseen, h⟩
    obtain ⟨s, hs, h⟩ := bind_eq_ok.mp h
    obtain ⟨_, hvalues, h⟩ := bind_eq_ok.mp h
    cases h
    rw [shape_eq_ok_iff] at hs
    exact ⟨⟨hname, hcamel, hs, (inlineValues_eq_ok_iff hs).mp hvalues, rfl, rfl, rfl⟩, hseen⟩
  · rintro ⟨⟨hname, hcamel, hs, hvalues, hrequired, hdescription, henum⟩, hseen⟩
    refine ⟨doc.name, hname, hcamel, hseen, bind_eq_ok.mpr ⟨doc.shape, shape_eq_ok_iff.mpr hs, ?_⟩⟩
    refine bind_eq_ok.mpr ⟨(), (inlineValues_eq_ok_iff hs).mpr hvalues, ?_⟩
    rw [← hrequired, ← hdescription, ← henum]
    rfl

/-- Attributes are accepted as what each of them becomes, when no name repeats or was seen before. -/
theorem attributesFrom_eq_ok_iff {i : Nat} {seen : List String} {attrs : List Draft.Attribute}
    {docs : List AttributeDoc} :
    attributesFrom file field i seen attrs = .ok docs ↔
      List.Forall₂ Draft.Attribute.Becomes attrs docs ∧ (docs.map AttributeDoc.name).Nodup ∧
        ∀ doc ∈ docs, doc.name ∉ seen := by
  induction attrs generalizing i seen docs with
  | nil =>
    unfold attributesFrom
    constructor
    · intro h
      cases h
      simp
    · rintro ⟨h, -⟩
      cases h
      rfl
  | cons a rest ih =>
    unfold attributesFrom
    constructor
    · intro h
      obtain ⟨doc, hd, h⟩ := bind_eq_ok.mp h
      obtain ⟨more, hm, h⟩ := bind_eq_ok.mp h
      cases h
      obtain ⟨hbecomes, hseen⟩ := attributeDoc_eq_ok_iff.mp hd
      obtain ⟨hall, hu, hmore⟩ := ih.mp hm
      refine ⟨.cons hbecomes hall, ?_, List.forall_mem_cons.mpr ⟨hseen, fun b hb => ?_⟩⟩
      · rw [List.map_cons, List.nodup_cons]
        refine ⟨fun hn => ?_, hu⟩
        obtain ⟨b, hb, he⟩ := List.mem_map.mp hn
        exact hmore b hb (he ▸ List.mem_cons_self)
      · exact fun hs => hmore b hb (List.mem_cons_of_mem _ hs)
    · rintro ⟨hall, hu, hseen⟩
      cases hall with
      | cons hbecomes hrest =>
        next doc docs =>
        rw [List.map_cons, List.nodup_cons] at hu
        obtain ⟨hhead, hmore⟩ := List.forall_mem_cons.mp hseen
        refine bind_eq_ok.mpr ⟨doc, attributeDoc_eq_ok_iff.mpr ⟨hbecomes, hhead⟩, ?_⟩
        refine bind_eq_ok.mpr ⟨docs, ih.mpr ⟨hrest, hu.2, fun b hb hs => ?_⟩, rfl⟩
        -- a name seen now is the head's own or one from before
        rcases List.mem_cons.mp hs with he | hs
        · exact hu.1 (List.mem_map.mpr ⟨b, hb, he⟩)
        · exact hmore b hb hs

theorem attributes_eq_ok_iff {drafts : Option (List Draft.Attribute)} {docs : List AttributeDoc} :
    attributes file field drafts = .ok docs ↔
      ∃ attrs, drafts = some attrs ∧ List.Forall₂ Draft.Attribute.Becomes attrs docs ∧
        (docs.map AttributeDoc.name).Nodup := by
  unfold attributes
  cases drafts with
  | none => simp [refuse]
  | some attrs => simp [attributesFrom_eq_ok_iff]

/-! ## What the accepted attributes say of the draft -/

section Becoming

/-- In related lists each member on the left has a partner on the right. -/
theorem exists_of_mem_left {α β : Type} {R : α → β → Prop} {xs : List α} {ys : List β}
    (h : List.Forall₂ R xs ys) {x : α} (hx : x ∈ xs) : ∃ y ∈ ys, R x y := by
  induction h with
  | nil => cases hx
  | cons hr _ ih =>
    rcases List.mem_cons.mp hx with rfl | hx
    · exact ⟨_, List.mem_cons_self, hr⟩
    · obtain ⟨y, hy, hr⟩ := ih hx
      exact ⟨y, List.mem_cons_of_mem _ hy, hr⟩

variable {attrs : List Draft.Attribute} {docs : List AttributeDoc}

theorem map_name_eq (h : List.Forall₂ Draft.Attribute.Becomes attrs docs) :
    attrs.map Draft.Attribute.name = (docs.map AttributeDoc.name).map some := by
  induction h with
  | nil => rfl
  | cons hd _ ih => rw [List.map_cons, List.map_cons, List.map_cons, ih, hd.name.1]

/-- Attributes that are proper, each by itself, become those of a document. -/
theorem exists_becomes (h : ∀ a ∈ attrs, a.IsProper) :
    ∃ docs, List.Forall₂ Draft.Attribute.Becomes attrs docs := by
  induction attrs with
  | nil => exact ⟨[], .nil⟩
  | cons a rest ih =>
    obtain ⟨ha, hrest⟩ := List.forall_mem_cons.mp h
    obtain ⟨doc, hd⟩ := Draft.Attribute.isProper_iff.mp ha
    obtain ⟨docs, hdocs⟩ := ih hrest
    exact ⟨doc :: docs, .cons hd hdocs⟩

theorem areProper_iff : AreProper attrs ↔
    ∃ docs, List.Forall₂ Draft.Attribute.Becomes attrs docs ∧ (docs.map AttributeDoc.name).Nodup := by
  have hu : ∀ {docs : List AttributeDoc}, List.Forall₂ Draft.Attribute.Becomes attrs docs →
      ((attrs.map Draft.Attribute.name).Nodup ↔ (docs.map AttributeDoc.name).Nodup) := fun h => by
    rw [map_name_eq h]
    exact List.nodup_map_iff (Option.some_injective _)
  constructor
  · rintro ⟨heach, hdistinct⟩
    obtain ⟨docs, h⟩ := exists_becomes heach
    exact ⟨docs, h, (hu h).mp hdistinct⟩
  · rintro ⟨docs, h, hdistinct⟩
    refine ⟨fun a ha => ?_, (hu h).mpr hdistinct⟩
    obtain ⟨doc, -, hd⟩ := exists_of_mem_left h ha
    exact Draft.Attribute.isProper_iff.mpr ⟨doc, hd⟩

/-- Of attributes with different names one is found by its name exactly when it is there. -/
theorem find?_eq_some_iff (hu : (docs.map AttributeDoc.name).Nodup) {key : String}
    {doc : AttributeDoc} : (docs.find? fun a => a.name == key) = some doc ↔ doc ∈ docs ∧ doc.name = key := by
  constructor
  · intro h
    exact ⟨List.mem_of_find?_eq_some h, by simpa using List.find?_some h⟩
  · rintro ⟨hm, rfl⟩
    induction docs with
    | nil => cases hm
    | cons d rest ih =>
      rw [List.map_cons, List.nodup_cons] at hu
      rcases List.mem_cons.mp hm with rfl | hm
      · simp
      · have hne : d.name ≠ doc.name := fun he => hu.1 (List.mem_map.mpr ⟨doc, hm, he.symm⟩)
        rw [List.find?_cons_of_neg (by simpa using hne), ih hu.2 hm]

/-- A key is declared, with a shape that can be a key. -/
def IsKey (attrs : List AttributeDoc) (key : String) : Prop :=
  ∃ a, (attrs.find? fun a => a.name == key) = some a ∧ a.shape.keyType?.isSome = true

/-- A key of the accepted attributes is a key of the draft. -/
theorem isKey_iff (h : List.Forall₂ Draft.Attribute.Becomes attrs docs)
    (hu : (docs.map AttributeDoc.name).Nodup) {key : String} :
    Rules.IsKey docs key ↔ Draft.IsKey attrs key := by
  unfold Rules.IsKey Draft.IsKey
  simp only [find?_eq_some_iff hu]
  constructor
  · rintro ⟨doc, ⟨hm, rfl⟩, hk⟩
    obtain ⟨a, ha, hd⟩ := exists_of_mem_left h.flip hm
    exact ⟨a, ha, hd.name.1, doc.shape, hd.shape, hk⟩
  · rintro ⟨a, ha, hn, shape, hs, hk⟩
    obtain ⟨doc, hm, hd⟩ := exists_of_mem_left h ha
    refine ⟨doc, ⟨hm, Option.some.inj (hd.name.1.symm.trans hn)⟩, ?_⟩
    rw [hd.shape.unique hs]
    exact hk

/-- A name that an accepted attribute bears is a name in the draft. -/
theorem any_name_iff (h : List.Forall₂ Draft.Attribute.Becomes attrs docs) {name : String} :
    (docs.any fun a => a.name == name) = true ↔ some name ∈ attrs.map Draft.Attribute.name := by
  rw [map_name_eq h, List.any_eq_true]
  simp

end Becoming

/-! ## Indexes -/

theorem mem_unlessBlank_iff {value : Option String} {v : String} :
    unlessBlank value = some v ↔ Given value v := by
  unfold unlessBlank Given
  rw [Option.filter_eq_some_iff, Bool.not_eq_true']

theorem isSome_unlessBlank_iff {value : Option String} :
    (unlessBlank value).isSome = true ↔ ∃ v, Given value v := by
  rw [Option.isSome_iff_exists]
  exact exists_congr fun v => mem_unlessBlank_iff

theorem sortAttribute_eq_ok_iff {value : Option String} {docs : List AttributeDoc} :
    sortAttribute file field (unlessBlank value) docs = .ok () ↔
      ∀ sort, Given value sort → Rules.IsKey docs sort := by
  simp only [← mem_unlessBlank_iff]
  unfold sortAttribute
  cases unlessBlank value with
  | none => simp
  | some sort => simp [keyAttribute_eq_ok_iff, Rules.IsKey]

/-- An index is local when it says so, and global when it says so or nothing. -/
theorem indexKind_eq_ok_iff {value : Option String} {kind : IndexKind} :
    indexKind file field value = .ok kind ↔
      (kind = .gsi ∧ value ∈ [none, some "GSI", some "gsi"]) ∨
        (kind = .lsi ∧ value ∈ [some "LSI", some "lsi"]) := by
  unfold indexKind
  cases value with
  | none => simp [eq_comm]
  | some text =>
    simp only [Option.getD_some, Bool.or_eq_true, beq_iff_eq, List.mem_cons, List.not_mem_nil,
      reduceCtorEq, Option.some.injEq, or_false, false_or]
    split
    · next hg =>
      have hl : ¬ (text = "LSI" ∨ text = "lsi") := by
        rcases hg with rfl | rfl <;> decide
      simp [hg, hl, eq_comm]
    · next hg =>
      split
      · next hl => simp [hg, hl, eq_comm]
      · next hl => simp [hg, hl, refuse]

theorem exists_indexKind_iff {value : Option String} : (∃ kind, indexKind file field value = .ok kind) ↔
    value ∈ [none, some "GSI", some "gsi", some "LSI", some "lsi"] := by
  have hsplit : [none, some "GSI", some "gsi", some "LSI", some "lsi"] =
      [none, some "GSI", some "gsi"] ++ [some "LSI", some "lsi"] := rfl
  simp only [indexKind_eq_ok_iff]
  rw [hsplit, List.mem_append]
  constructor
  · rintro ⟨kind, ⟨-, hm⟩ | ⟨-, hm⟩⟩
    · exact .inl hm
    · exact .inr hm
  · rintro (hm | hm)
    · exact ⟨.gsi, .inl ⟨rfl, hm⟩⟩
    · exact ⟨.lsi, .inr ⟨rfl, hm⟩⟩

theorem isLocal_iff {value : Option String} {kind : IndexKind}
    (h : indexKind file field value = .ok kind) : kind = .lsi ↔ value ∈ [some "LSI", some "lsi"] := by
  rcases indexKind_eq_ok_iff.mp h with ⟨rfl, hm⟩ | ⟨rfl, hm⟩
  · -- no text says both
    simp only [List.mem_cons, List.not_mem_nil, or_false] at hm ⊢
    rcases hm with rfl | rfl | rfl <;> decide
  · exact iff_of_true rfl hm

/-- A projection is accepted when it is known and, where it lists attributes, lists some and declared
ones only. -/
theorem exists_projection_iff {attrs : List Draft.Attribute} {docs : List AttributeDoc}
    (hdocs : List.Forall₂ Draft.Attribute.Becomes attrs docs) {name : String} {draft : Draft.Index} :
    (∃ p, projection file field name draft docs = .ok p) ↔
      draft.projectionType ∈ [none, some "ALL", some "KEYS_ONLY", some "INCLUDE"] ∧
        (draft.projectionType = some "INCLUDE" → ∃ names, draft.projectedAttributes = some names ∧
          names ≠ [] ∧ ∀ name ∈ names, some name ∈ attrs.map Draft.Attribute.name) := by
  simp only [← any_name_iff hdocs]
  unfold projection
  cases draft.projectionType with
  | none => simp
  | some type =>
    simp only [Option.getD_some, beq_iff_eq, List.mem_cons, List.not_mem_nil, reduceCtorEq,
      Option.some.injEq, or_false, false_or]
    split
    · next hall => simp [hall]
    · next hall =>
      split
      · next hkeys => simp [hkeys]
      · next hkeys =>
        split
        · next hinclude =>
          constructor
          · rintro ⟨p, h⟩
            obtain ⟨hne, h⟩ := ensure_bind_eq_ok.mp h
            obtain ⟨_, hdeclared, -⟩ := bind_eq_ok.mp h
            refine ⟨.inr (.inr hinclude), fun _ => ?_⟩
            cases hp : draft.projectedAttributes with
            | none => simp [hp] at hne
            | some names =>
              rw [hp, Option.getD_some] at hne hdeclared
              refine ⟨names, rfl, by simpa using hne, fun n hn => ?_⟩
              exact (ensure_eq_ok_iff _ _ _ _).mp (forM_eq_ok.mp hdeclared n hn)
          · rintro ⟨-, h⟩
            obtain ⟨names, hp, hne, hdeclared⟩ := h hinclude
            rw [hp, Option.getD_some]
            refine ⟨.including names, ensure_bind_eq_ok.mpr ⟨by simpa using hne, ?_⟩⟩
            refine bind_eq_ok.mpr ⟨(), forM_eq_ok.mpr fun n hn => ?_, rfl⟩
            exact (ensure_eq_ok_iff _ _ _ _).mpr (hdeclared n hn)
        · next hother => simp [hall, hkeys, hother, refuse]

theorem localIndex_eq_ok_iff {name tablePartition partition : String} {kind : IndexKind}
    {sort : Option String} :
    localIndex file field name tablePartition kind partition sort = .ok () ↔
      (kind = .lsi → partition = tablePartition ∧ sort.isSome = true) := by
  unfold localIndex
  cases kind with
  | gsi => simp
  | lsi =>
    dsimp only
    rw [ensure_bind_eq_ok, ensure_eq_ok_iff, beq_iff_eq]
    simp

section Indexes

variable {attrs : List Draft.Attribute} {docs : List AttributeDoc} {tablePartition : String}

/-- An accepted index has the name of its draft. -/
theorem name_of_index {draft : Draft.Index} {index : Index}
    (h : Rules.index file field tablePartition docs draft = .ok index) : draft.name = some index.name := by
  unfold Rules.index at h
  obtain ⟨name, hname, h⟩ := require_bind_eq_ok.mp h
  obtain ⟨-, h⟩ := ensure_bind_eq_ok.mp h
  obtain ⟨kind, -, h⟩ := bind_eq_ok.mp h
  obtain ⟨partition, -, h⟩ := require_bind_eq_ok.mp h
  obtain ⟨_, -, h⟩ := bind_eq_ok.mp h
  obtain ⟨_, -, h⟩ := bind_eq_ok.mp h
  obtain ⟨_, -, h⟩ := bind_eq_ok.mp h
  obtain ⟨p, -, h⟩ := bind_eq_ok.mp h
  cases h
  exact hname.1

/-- The indexes that are accepted are the proper ones. -/
theorem exists_index_iff (h : List.Forall₂ Draft.Attribute.Becomes attrs docs)
    (hu : (docs.map AttributeDoc.name).Nodup) {draft : Draft.Index} :
    (∃ index, Rules.index file field tablePartition docs draft = .ok index) ↔
      draft.IsProper attrs tablePartition := by
  have hkey : ∀ {f key : String}, keyAttribute file f key docs = .ok () ↔ Draft.IsKey attrs key :=
    fun {f key} => (keyAttribute_eq_ok_iff file f key docs).trans (isKey_iff h hu)
  unfold Rules.index
  constructor
  · rintro ⟨index, hi⟩
    obtain ⟨name, hname, hi⟩ := require_bind_eq_ok.mp hi
    obtain ⟨hkebab, hi⟩ := ensure_bind_eq_ok.mp hi
    obtain ⟨kind, hkind, hi⟩ := bind_eq_ok.mp hi
    obtain ⟨partition, hpart, hi⟩ := require_bind_eq_ok.mp hi
    obtain ⟨_, hpartKey, hi⟩ := bind_eq_ok.mp hi
    obtain ⟨_, hsort, hi⟩ := bind_eq_ok.mp hi
    obtain ⟨_, hlocal, hi⟩ := bind_eq_ok.mp hi
    obtain ⟨p, hp, -⟩ := bind_eq_ok.mp hi
    rw [localIndex_eq_ok_iff, isSome_unlessBlank_iff, isLocal_iff hkind] at hlocal
    obtain ⟨hknown, hincluded⟩ := (exists_projection_iff h).mp ⟨p, hp⟩
    constructor
    case name => exact ⟨name, hname, Pattern.mem_kebabName_iff.mpr hkebab⟩
    case kind => exact exists_indexKind_iff.mp ⟨kind, hkind⟩
    case partition => exact ⟨partition, hpart, hkey.mp hpartKey⟩
    case sort => exact fun s hs => (isKey_iff h hu).mp (sortAttribute_eq_ok_iff.mp hsort s hs)
    case inPartition => exact fun hm => (hlocal hm).1 ▸ hpart.1
    case sorted => exact fun hm => (hlocal hm).2
    case projection => exact hknown
    case included => exact hincluded
  · rintro ⟨⟨name, hname, hkebab⟩, hkind, ⟨partition, hpart, hpartKey⟩, hsort, hin, hsorted, hknown,
      hincluded⟩
    have hok : ∃ kind, indexKind file field draft.kind = .ok kind := exists_indexKind_iff.mpr hkind
    obtain ⟨kind, hok⟩ := hok
    have hproj : ∃ p, projection file field name draft docs = .ok p :=
      (exists_projection_iff h).mpr ⟨hknown, hincluded⟩
    obtain ⟨p, hp⟩ := hproj
    have hlocal : localIndex file field name tablePartition kind partition (unlessBlank draft.sort) =
        .ok () := by
      rw [localIndex_eq_ok_iff, isSome_unlessBlank_iff, isLocal_iff hok]
      exact fun hm => ⟨Option.some.inj (hpart.1.symm.trans (hin hm)), hsorted hm⟩
    refine exists_bind_eq_ok ((require_eq_ok_iff _ _ _ _).mpr hname) ?_
    refine exists_bind_eq_ok ((ensure_eq_ok_iff _ _ _ _).mpr (Pattern.mem_kebabName_iff.mp hkebab)) ?_
    refine exists_bind_eq_ok hok (exists_bind_eq_ok ((require_eq_ok_iff _ _ _ _).mpr hpart) ?_)
    refine exists_bind_eq_ok (hkey.mpr hpartKey) (exists_bind_eq_ok ?_ ?_ (a := ()))
    · exact sortAttribute_eq_ok_iff.mpr fun s hs => (isKey_iff h hu).mpr (hsort s hs)
    · exact exists_bind_eq_ok hlocal (exists_bind_eq_ok hp ⟨_, rfl⟩)

/-- Indexes are accepted when each is proper and no name repeats or was seen before. -/
theorem exists_indexesFrom_iff (h : List.Forall₂ Draft.Attribute.Becomes attrs docs)
    (hu : (docs.map AttributeDoc.name).Nodup) {i : Nat} {seen : List String}
    {drafts : List Draft.Index} :
    (∃ indexes, indexesFrom file tablePartition docs i seen drafts = .ok indexes) ↔
      (∀ draft ∈ drafts, draft.IsProper attrs tablePartition) ∧
        (drafts.map Draft.Index.name).Nodup ∧ ∀ name ∈ seen, some name ∉ drafts.map Draft.Index.name := by
  induction drafts generalizing i seen with
  | nil => simp [indexesFrom]
  | cons draft rest ih =>
    rw [List.forall_mem_cons, List.map_cons, List.nodup_cons]
    unfold indexesFrom
    constructor
    · rintro ⟨indexes, hi⟩
      obtain ⟨index, hindex, hi⟩ := bind_eq_ok.mp hi
      obtain ⟨hseen, hi⟩ := ensure_bind_eq_ok.mp hi
      obtain ⟨more, hmore, -⟩ := bind_eq_ok.mp hi
      obtain ⟨hrest, hdistinct, hnew⟩ := ih.mp ⟨more, hmore⟩
      obtain ⟨hhead, hold⟩ := List.forall_mem_cons.mp hnew
      have hname := name_of_index hindex
      rw [hname]
      refine ⟨⟨(exists_index_iff h hu).mp ⟨index, hindex⟩, hrest⟩, ⟨hhead, hdistinct⟩, fun n hn hm => ?_⟩
      rcases List.mem_cons.mp hm with he | hm
      · cases he
        simp [hn] at hseen
      · exact hold n hn hm
    · rintro ⟨⟨hproper, hrest⟩, ⟨hhead, hdistinct⟩, hnew⟩
      have hindex : ∃ index,
          Rules.index file (element "model.keys.secondary" i) tablePartition docs draft = .ok index :=
        (exists_index_iff h hu).mpr hproper
      obtain ⟨index, hindex⟩ := hindex
      have hname := name_of_index hindex
      rw [hname] at hhead hnew
      have hmore : ∃ more,
          indexesFrom file tablePartition docs (i + 1) (index.name :: seen) rest = .ok more :=
        ih.mpr ⟨hrest, hdistinct, List.forall_mem_cons.mpr
          ⟨hhead, fun n hn hm => hnew n hn (List.mem_cons_of_mem _ hm)⟩⟩
      obtain ⟨more, hmore⟩ := hmore
      refine ⟨index :: more, bind_eq_ok.mpr ⟨index, hindex, ensure_bind_eq_ok.mpr ⟨?_, ?_⟩⟩⟩
      · have hfresh : index.name ∉ seen := fun hm => hnew _ hm List.mem_cons_self
        simpa using hfresh
      · exact bind_eq_ok.mpr ⟨more, hmore, rfl⟩

/-- The indexes of a model are accepted when each is proper and no name repeats; without a list there are
none. -/
theorem exists_secondary_iff (h : List.Forall₂ Draft.Attribute.Becomes attrs docs)
    (hu : (docs.map AttributeDoc.name).Nodup) {model : Draft.Model} :
    (∀ drafts, (model.keys.getD {}).secondary = some drafts →
        ∃ indexes, indexesFrom file tablePartition docs 0 [] drafts = .ok indexes) ↔
      (∀ i ∈ model.indexes, i.IsProper attrs tablePartition) ∧
        (model.indexes.map Draft.Index.name).Nodup := by
  unfold Draft.Model.indexes
  cases (model.keys.getD {}).secondary with
  | none => simp
  | some drafts => simp [exists_indexesFrom_iff h hu]

end Indexes

/-! ## Documents -/

theorem exists_version_iff {draft : Draft.Document} :
    (∃ v, version file draft.version = .ok v) ↔ draft.HasVersion := by
  unfold version Draft.Document.HasVersion
  cases draft.version with
  | none => simp [refuse]
  | some v =>
    cases v with
    | text text => cases hb : Text.isBlankText text <;> simp [hb, refuse]
    | number text => simp
    | other => simp [refuse]

/-- The tables that are accepted have a version and a proper model block. -/
theorem exists_table_iff {draft : Draft.Document} :
    (∃ t, table file draft = .ok t) ↔
      draft.HasVersion ∧ ∃ model attrs partition, draft.model = some model ∧
        model.Declares attrs partition := by
  unfold table
  constructor
  · rintro ⟨t, ht⟩
    obtain ⟨v, hv, ht⟩ := bind_eq_ok.mp ht
    refine ⟨exists_version_iff.mp ⟨v, hv⟩, ?_⟩
    cases hmodel : draft.model with
    | none =>
      rw [hmodel] at ht
      cases ht
    | some model =>
      rw [hmodel] at ht
      dsimp only at ht
      obtain ⟨partition, hpart, ht⟩ := require_bind_eq_ok.mp ht
      obtain ⟨docs, hdocs, ht⟩ := bind_eq_ok.mp ht
      obtain ⟨_, hkey, ht⟩ := bind_eq_ok.mp ht
      obtain ⟨_, hsort, ht⟩ := bind_eq_ok.mp ht
      obtain ⟨attrs, hattrs, hall, hu⟩ := attributes_eq_ok_iff.mp hdocs
      have hsecondary : ∀ drafts, (model.keys.getD {}).secondary = some drafts →
          ∃ all, indexesFrom file partition docs 0 [] drafts = .ok all := by
        intro drafts hsec
        rw [hsec] at ht
        obtain ⟨_, hi, -⟩ := bind_eq_ok.mp ht
        obtain ⟨all, hok, -⟩ := map_eq_ok.mp hi
        exact ⟨all, hok⟩
      have hindexes := (exists_secondary_iff hall hu).mp hsecondary
      refine ⟨model, attrs, partition, rfl, ?_⟩
      constructor
      case attributes => exact hattrs
      case proper => exact areProper_iff.mpr ⟨docs, hall, hu⟩
      case primary => exact hpart
      case primaryKey => exact (isKey_iff hall hu).mp ((keyAttribute_eq_ok_iff _ _ _ _).mp hkey)
      case sortKey => exact fun s hs => (isKey_iff hall hu).mp (sortAttribute_eq_ok_iff.mp hsort s hs)
      case indexes => exact hindexes.1
      case distinct => exact hindexes.2
  · rintro ⟨hv, model, attrs, partition, hmodel, hattrs, hproper, hpart, hkey, hsort, hindexes, hdistinct⟩
    have hversion : ∃ v, version file draft.version = .ok v := exists_version_iff.mpr hv
    obtain ⟨v, hv⟩ := hversion
    obtain ⟨docs, hall, hu⟩ := areProper_iff.mp hproper
    refine exists_bind_eq_ok hv ?_
    rw [hmodel]
    refine exists_bind_eq_ok ((require_eq_ok_iff _ _ _ _).mpr hpart) ?_
    refine exists_bind_eq_ok (attributes_eq_ok_iff.mpr ⟨attrs, hattrs, hall, hu⟩) ?_
    refine exists_bind_eq_ok ((keyAttribute_eq_ok_iff _ _ _ _).mpr ((isKey_iff hall hu).mpr hkey)) ?_
    refine exists_bind_eq_ok
      (sortAttribute_eq_ok_iff.mpr fun s hs => (isKey_iff hall hu).mpr (hsort s hs)) ?_
    have hsecondary : ∀ drafts, (model.keys.getD {}).secondary = some drafts →
        ∃ all, indexesFrom file partition docs 0 [] drafts = .ok all :=
      (exists_secondary_iff hall hu).mpr ⟨hindexes, hdistinct⟩
    cases hsec : (model.keys.getD {}).secondary with
    | none => exact ⟨_, rfl⟩
    | some drafts =>
      obtain ⟨all, hok⟩ := hsecondary drafts hsec
      exact exists_bind_eq_ok (map_eq_ok.mpr ⟨all, hok, rfl⟩) ⟨_, rfl⟩

/-- The attribute lists that are accepted are the proper ones. -/
theorem exists_attributes_iff {drafts : Option (List Draft.Attribute)} :
    (∃ docs, attributes file field drafts = .ok docs) ↔
      ∃ attrs, drafts = some attrs ∧ AreProper attrs := by
  simp only [attributes_eq_ok_iff, areProper_iff]
  constructor
  · rintro ⟨docs, attrs, ha, h⟩
    exact ⟨attrs, ha, docs, h⟩
  · rintro ⟨attrs, ha, docs, h⟩
    exact ⟨docs, attrs, ha, h⟩

theorem exists_map_iff {α β : Type} {x : Checked α} {f : α → β} :
    (∃ b, x.map f = .ok b) ↔ ∃ a, x = .ok a := by
  simp [map_eq_ok]

/-- The bodies that are accepted for a kind. -/
theorem exists_body_iff {kind : String} {draft : Draft.Document} (hk : Given draft.kind kind) :
    (∃ b, body file kind draft = .ok b) ↔ draft.HasBody := by
  have hgiven : ∀ {other : String}, Given draft.kind other → kind = other := fun h =>
    Option.some.inj (hk.1.symm.trans h.1)
  unfold body
  simp only [beq_iff_eq]
  split
  · next ht =>
    rw [exists_map_iff, exists_table_iff]
    constructor
    · rintro ⟨hv, model, attrs, partition, hm, hd⟩
      exact .table (ht ▸ hk) hv hm hd
    · intro h
      cases h with
      | table _ version given model => exact ⟨version, _, _, _, given, model⟩
      | graphql kind' _ _ => exact absurd (ht.symm.trans (hgiven kind')) (by decide)
      | static kind' _ _ => exact absurd (ht.symm.trans (hgiven kind')) (by decide)
  · next ht =>
    split
    · next hg =>
      rw [exists_map_iff, exists_attributes_iff]
      constructor
      · rintro ⟨attrs, ha, hp⟩
        exact .graphql (hg ▸ hk) ha hp
      · intro h
        cases h with
        | table kind' _ _ _ => exact absurd (hgiven kind') ht
        | graphql _ given proper => exact ⟨_, given, proper⟩
        | static kind' _ _ => exact absurd (hg.symm.trans (hgiven kind')) (by decide)
    · next hg =>
      split
      · next hs =>
        rw [exists_map_iff, exists_attributes_iff]
        constructor
        · rintro ⟨attrs, ha, hp⟩
          exact .static (hs ▸ hk) ha hp
        · intro h
          cases h with
          | table kind' _ _ _ => exact absurd (hgiven kind') ht
          | graphql kind' _ _ => exact absurd (hgiven kind') hg
          | static _ given proper => exact ⟨_, given, proper⟩
      · next hs =>
        refine iff_of_false (by simp [refuse]) fun h => ?_
        cases h with
        | table kind' _ _ _ => exact ht (hgiven kind')
        | graphql kind' _ _ => exact hg (hgiven kind')
        | static kind' _ _ => exact hs (hgiven kind')

/-- For every file and every draft: the draft is accepted as a document of the file exactly when it is
a proper one. -/
theorem exists_document_iff (file : Path) (draft : Draft.Document) :
    (∃ doc, document file draft = .ok doc) ↔ draft.IsProper file := by
  unfold document
  constructor
  · rintro ⟨doc, h⟩
    obtain ⟨name, hname, h⟩ := require_bind_eq_ok.mp h
    obtain ⟨kind, hkind, h⟩ := require_bind_eq_ok.mp h
    obtain ⟨_, hfile, h⟩ := bind_eq_ok.mp h
    obtain ⟨htype, h⟩ := ensure_bind_eq_ok.mp h
    obtain ⟨b, hb, -⟩ := bind_eq_ok.mp h
    unfold fileName at hfile
    rw [ensure_eq_ok_iff, beq_iff_eq] at hfile
    exact ⟨⟨name, hname, hfile, Pattern.mem_typeName_iff.mpr htype⟩, (exists_body_iff hkind).mp ⟨b, hb⟩⟩
  · rintro ⟨⟨name, hname, hfile, htype⟩, hbody⟩
    have hkind : ∃ kind, Given draft.kind kind := by
      cases hbody with
      | table kind _ _ _ => exact ⟨_, kind⟩
      | graphql kind _ _ => exact ⟨_, kind⟩
      | static kind _ _ => exact ⟨_, kind⟩
    obtain ⟨kind, hkind⟩ := hkind
    have hb : ∃ b, body file kind draft = .ok b := (exists_body_iff hkind).mpr hbody
    obtain ⟨b, hb⟩ := hb
    have hstem : fileName file name = .ok () := by
      unfold fileName
      rw [ensure_eq_ok_iff, beq_iff_eq]
      exact hfile
    refine exists_bind_eq_ok ((require_eq_ok_iff _ _ _ _).mpr hname) ?_
    refine exists_bind_eq_ok ((require_eq_ok_iff _ _ _ _).mpr hkind) (exists_bind_eq_ok hstem ?_)
    refine exists_bind_eq_ok ((ensure_eq_ok_iff _ _ _ _).mpr (Pattern.mem_typeName_iff.mp htype)) ?_
    exact exists_bind_eq_ok hb ⟨_, rfl⟩

end Rules

end SchemaGen
