import SchemaGen.Proofs.Document.Conflicts
import SchemaGen.Proofs.Emission.Fragments
import SchemaGen.Proofs.Naming.Characters

/-!
# Names in declarations

What a catalog of parsed documents names is named by identifiers: entities and their attributes, the types
that attributes refer to, be they in the catalog or not, and enums and their values. So are the types that
are generated for an entity, their fields, and the operations of tables.

Results:
1. `Corpus.isNamed_of_catalog`: references and values.
2. `isIdentifier_of_generated`: generated names.
3. `wellNamed_of_belongs`, `wellNamed_of_mem_candidates`: the types that entities bring, and the operations
   that tables call for.
-/

namespace SchemaGen

variable {c : Catalog} {e : Entity} {n : String}

/-! ## Catalogs -/

/-- The names in a catalog that stand for nothing of it are identifiers, too; and no value is empty. -/
structure Catalog.IsNamed (c : Catalog) : Prop where
  references : ∀ e ∈ c.entityList, ∀ a ∈ e.attributes, ∀ n, a.shape.referenced? = some n → IsIdentifier n
  values : ∀ e ∈ c.enumList, ∀ value ∈ e.values, IsIdentifier value
  spelled : ∀ e ∈ c.enumList, "" ∉ e.values

/-- The entries of an enum catalog that pass have values, each once, and they are identifiers. -/
theorem Rules.values_of_enumsFrom {file : Path} {entries : List (String × List String)} {enums : List EnumDoc}
    (h : Rules.enumsFrom file entries = .ok enums) : ∀ e ∈ enums,
      e.values ≠ [] ∧ e.values.Nodup ∧ ∀ value ∈ e.values, isEnumValue value.toList = true := by
  induction entries generalizing enums with
  | nil =>
    cases h
    exact fun e he => absurd he List.not_mem_nil
  | cons entry rest ih =>
    unfold enumsFrom at h
    obtain ⟨_, -, h⟩ := bind_eq_ok.mp h
    obtain ⟨_, hvalues, h⟩ := bind_eq_ok.mp h
    obtain ⟨more, hmore, h⟩ := bind_eq_ok.mp h
    cases h
    obtain ⟨hne, hnodup, hproper⟩ := enumValues_eq_ok_iff.mp hvalues
    exact List.forall_mem_cons.mpr
      ⟨⟨hne, hnodup, fun value hvalue => Pattern.mem_identifier_iff.mp (hproper value hvalue)⟩, ih hmore⟩

/-- The lists of values of parsed enum catalogs have values, each once, and they are identifiers. -/
theorem EnumDoc.values_of_parseAll {file : Path} {source : String} {enums : List EnumDoc}
    (h : EnumDoc.parseAll file source = .ok enums) : ∀ e ∈ enums,
      e.values ≠ [] ∧ e.values.Nodup ∧ ∀ value ∈ e.values, isEnumValue value.toList = true := by
  unfold EnumDoc.parseAll at h
  split at h
  · exact Rules.values_of_enumsFrom h
  · cases h

namespace Corpus

variable {corpus : Corpus} {values : List String}

/-- A reference that is left is one of the document. -/
theorem referenced?_resolve {enums : NameMap (List String)} {shape : Shape}
    (h : (resolve enums shape).referenced? = some n) : shape.referenced? = some n := by
  unfold resolve at h
  split at h
  · cases h
  · split at h
    · cases h
    · exact h
  · exact h

/-- What is declared for an enum are values, each once, and identifiers. -/
theorem values_of_declares (hp : corpus.IsParsed) (h : corpus.Declares n values) :
    values ≠ [] ∧ values.Nodup ∧ ∀ value ∈ values, isEnumValue value.toList = true := by
  rcases h with ⟨e, he, -, rfl⟩ | ⟨d, hd, a, ha, -, hlisted⟩
  · rcases hp.enums with hnil | ⟨file, source, hparse⟩
    · rw [hnil] at he
      cases he
    · exact EnumDoc.values_of_parseAll hparse e he
  · obtain ⟨file, source, hparse⟩ := hp.documents d hd
    have hattribute := (SchemaDoc.isSound_of_parse hparse).attributes a ha
    obtain ⟨hne, hnodup⟩ := hattribute.listed values hlisted
    exact ⟨hne, hnodup, hattribute.values values hlisted⟩

/-- No value is empty. -/
theorem empty_not_mem_of_declares (hp : corpus.IsParsed) (h : corpus.Declares n values) : "" ∉ values :=
  fun hm => Bool.false_ne_true ((values_of_declares hp h).2.2 "" hm)

theorem isIdentifier_of_declares (hp : corpus.IsParsed) (h : corpus.Declares n values) :
    ∀ value ∈ values, IsIdentifier value := fun value hvalue =>
  isIdentifier_of_isEnumValue ((values_of_declares hp h).2.2 value hvalue)

theorem isNamed_of_catalog (hp : corpus.IsParsed) (h : corpus.catalog = .ok c) : c.IsNamed := by
  obtain ⟨enums, owned, hassembled⟩ := assembled_of_catalog h
  have hc := isSound_of_catalog hp h
  constructor
  case references =>
    intro e he a ha n hn
    obtain ⟨d, -, hsound, -, heq⟩ := hassembled.exists_document hp (hc.entity?_of_mem he)
    obtain ⟨b, hb, rfl⟩ := Assembled.exists_attribute heq ha
    exact isIdentifier_of_isTypeName ((hsound.attributes b hb).references n (referenced?_resolve hn))
  case values =>
    exact fun e he => isIdentifier_of_declares hp (((hassembled.holds hp).enums e).mp he)
  case spelled =>
    exact fun e he => empty_not_mem_of_declares hp (((hassembled.holds hp).enums e).mp he)

end Corpus

/-! ## Generated names -/

/-- The names that are generated for an entity are identifiers if its own is. -/
theorem isIdentifier_of_generated (he : IsIdentifier e.name) (hn : n ∈ Corpus.generatedNames e) :
    IsIdentifier n := by
  have hbetween : ∀ before ∈ ["Create", "Update", "Delete"], IsIdentifier (before ++ e.name ++ "Input") := by
    intro before hbefore
    have hfixed : ∀ before ∈ ["Create", "Update", "Delete"], IsIdentifier before := by decide
    exact ((hfixed before hbefore).append he).append (by decide)
  cases e with
  | object o =>
    rw [List.mem_singleton.mp hn]
    exact he.append (by decide)
  | table table =>
    rcases List.mem_append.mp hn with hn | hn
    · simp only [List.mem_cons, List.not_mem_nil, or_false] at hn
      rcases hn with rfl | rfl | rfl | rfl | rfl
      · exact hbetween "Create" (by decide)
      · exact hbetween "Update" (by decide)
      · exact hbetween "Delete" (by decide)
      · exact he.append (by decide)
      · exact he.append (by decide)
    · obtain ⟨key, -, rfl⟩ := List.mem_map.mp hn
      exact ((he.append (by decide)).append (Naming.isIdentifier_byAttributes _)).append (by decide)

/-! ## Types -/

/-- The names that a field is written with are identifiers. -/
structure Field.WellNamed (f : Field) : Prop where
  name : IsIdentifier f.name
  type : ∀ shape, f.type = .shape shape →
    ∀ n, shape.enumName? = some n ∨ shape.referenced? = some n → IsIdentifier n

/-- The names that a type is written with are identifiers. -/
structure TypeDecl.WellNamed (d : TypeDecl) : Prop where
  name : IsIdentifier d.name
  fields : ∀ f ∈ d.fields, f.WellNamed

theorem isIdentifier_entity (hc : c.IsSound) (he : e ∈ c.entityList) : IsIdentifier e.name :=
  isIdentifier_of_isTypeName (hc.isTypeName_entity he)

theorem Emission.wellNamed_of_belongs (hc : c.IsSound) (hn : c.IsNamed) (he : e ∈ c.entityList)
    {d : TypeDecl} (h : Belongs e d) : d.WellNamed := by
  have hown := isIdentifier_entity hc he
  have hentity := hc.entity?_of_mem he
  refine ⟨?_, fun f hf => ?_⟩
  · rcases belongs_name h with hname | hname
    · exact hname ▸ hown
    · exact isIdentifier_of_generated hown hname
  rcases field_of_belongs h hf with ⟨a, ha, hname, htype⟩ | ⟨hname, htype⟩ | ⟨hname, htype⟩ |
    ⟨hname, htype | htype⟩
  · refine ⟨hname ▸ isIdentifier_of_isCamelName (hc.camel _ e hentity a ha), ?_⟩
    rw [htype]
    rintro _ ⟨⟩ n (henum | href)
    · obtain ⟨f, hf⟩ := hc.enumerated _ e hentity a ha n henum
      exact isIdentifier_of_isTypeName (hc.enum_typeName n f hf)
    · exact hn.references e he a ha n href
  · refine ⟨hname ▸ by decide, ?_⟩
    rw [htype]
    rintro _ ⟨⟩
  · refine ⟨hname ▸ by decide, ?_⟩
    rw [htype]
    rintro _ ⟨⟩ n (⟨⟨⟩⟩ | ⟨⟨⟩⟩)
  all_goals
    refine ⟨hname ▸ by decide, ?_⟩
    rw [htype]
    rintro _ ⟨⟩ n (⟨⟨⟩⟩ | ⟨⟨⟩⟩)
    exact hown

/-! ## Operations -/

/-- The names that an operation is written with are identifiers. -/
structure Operation.WellNamed (op : Operation) : Prop where
  name : IsIdentifier op.name
  inputType : IsIdentifier op.inputType
  resultType : IsIdentifier op.resultType

theorem Emission.wellNamed_of_mem_candidates {table : Table} (ht : IsIdentifier table.name) {op : Operation}
    (h : op ∈ candidates table) : op.WellNamed := by
  obtain ⟨hinput, hresult⟩ := types_of_mem_candidates h
  have hentity : IsIdentifier (Entity.table table).name := ht
  refine ⟨?_, isIdentifier_of_generated hentity hinput, isIdentifier_of_generated hentity hresult⟩
  rcases mem_candidates_iff.mp h with ⟨verb, hv, rfl⟩ | ⟨key, -, rfl⟩
  · have hverb : ∀ verb ∈ Naming.verbs, IsIdentifier verb := by decide
    show IsIdentifier (Naming.toCamel verb ++ table.name)
    rw [Naming.toCamel_verb hv]
    exact (hverb verb hv).append ht
  · exact ((IsIdentifier.append (by decide) ht).append (by decide)).append
      (Naming.isIdentifier_byAttributes _)

end SchemaGen
