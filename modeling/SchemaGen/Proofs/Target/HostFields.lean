import SchemaGen.Proofs.Naming.Characters
import SchemaGen.Proofs.Naming.Conversions
import SchemaGen.Proofs.Naming.Queries
import SchemaGen.Proofs.Target.FiniteSize

/-!
# Identifiers of the fields of structs

A field of a struct is called like the attribute that it carries, in snake case. That tells the words of
the attribute and not their case, while a document may declare attributes that differ in case only:
`userId` and `userID` are carried by fields of one identifier. The structs of an entity have an identifier
for each attribute just when no two of its attributes have the same words; the fields of envelopes never
share theirs.

Results:
1. `hostField_eq_iff`: which attributes share an identifier.
2. `tellsFields_iff_of_artifact`: when the structs of an entity tell its attributes apart.
3. `tellsFields_of_parse`: what the fields of a document's structs tell.
4. `exists_identifier_shared`: two attributes of a document with one identifier.
-/

namespace SchemaGen

open Emission Naming

/-! ## Identifiers -/

namespace Naming

/-- A text in snake case tells its words, and not their case. -/
theorem toSnake_eq_iff {s t : String} : toSnake s = toSnake t ↔ attributeWords s = attributeWords t := by
  constructor
  · intro h
    unfold attributeWords
    rw [← Convention.split_write .snake s, ← Convention.split_write .snake t]
    exact congrArg (fun name : String => (split name.toList).map lower) h
  · intro h
    have hwrite : Convention.snake.write s = Convention.snake.write t := by
      rw [Convention.write_eq_ofList, Convention.write_eq_ofList, ← Convention.join_lower,
        ← Convention.join_lower _ (split t.toList)]
      exact congrArg (fun ws => String.ofList (Convention.snake.join ws)) h
    exact hwrite

/-- The mark of a raw identifier is no part of a name in snake case. -/
theorem raw_append_ne_toSnake (s t : String) : "r#" ++ s ≠ toSnake t := by
  intro h
  have hmark : '#' ∈ (toSnake t).toList := by
    rw [← h, String.toList_append]
    exact List.mem_append_left _ (by decide)
  exact (isIdentifier_toSnake t).not_mem rfl hmark

theorem hostField_eq_iff {s t : String} : hostField s = hostField t ↔ attributeWords s = attributeWords t := by
  rw [← toSnake_eq_iff]
  constructor
  · intro h
    unfold hostField at h
    split at h <;> split at h
    · exact (String.append_right_inj _).mp h
    · exact absurd h (raw_append_ne_toSnake _ _)
    · exact absurd h.symm (raw_append_ne_toSnake _ _)
    · exact h
  · intro h
    unfold hostField
    rw [h]

end Naming

namespace HostModel

variable {c : Catalog} {e : Entity} {d : TypeDecl} {decls : List TypeDecl} {docs : Bool}

/-! ## Structs -/

/-- Fields of one identifier carry one attribute: they are read and written under one name. -/
def Struct.TellsFields (s : Struct) : Prop :=
  ∀ f ∈ s.fields, ∀ g ∈ s.fields, f.name = g.name → f.wireName = g.wireName

theorem name_field (owner : String) (f : Field) : (field docs owner f).name = hostField f.name := by
  simp only [field]

theorem tellsFields_struct_iff : (struct docs d).TellsFields ↔
    ∀ f ∈ d.fields, ∀ g ∈ d.fields, hostField f.name = hostField g.name → f.name = g.name := by
  unfold Struct.TellsFields struct
  simp only [List.forall_mem_map, name_field, wireName_field]

/-- The fields of a type are attributes of the entity that brings it, or those of an envelope. -/
theorem names_of_belongs (h : Belongs e d) : (∀ f ∈ d.fields, ∃ a ∈ e.attributes, f.name = a.name) ∨
    d.fields.map Field.name = ["statusCode", "message", "data"] := by
  have hmade : ∀ attributes : List Attribute,
      (∀ f ∈ d.fields, ∃ a ∈ attributes, f.name = a.name ∧ f.type = .shape a.shape) →
        ∀ f ∈ d.fields, ∃ a ∈ attributes, f.name = a.name := by
    intro attributes hfields f hf
    obtain ⟨a, ha, hname, -⟩ := hfields f hf
    exact ⟨a, ha, hname⟩
  rcases h with hown | ⟨table, rfl, key, -, hdecl⟩
  · rcases fields_of_mem_ownDecls hown with ⟨required, hfields⟩ | ⟨table, rfl, rfl | rfl | hdecl⟩
    · refine .inl fun f hf => ?_
      rw [hfields] at hf
      obtain ⟨a, ha, rfl⟩ := List.mem_map.mp hf
      exact ⟨a, ha, rfl⟩
    · exact .inr rfl
    · exact .inr rfl
    · exact .inl (hmade _ (deleteDecl_eq_ok hdecl).2)
  · exact .inl (hmade _ (queryDecl_eq_ok hdecl).2)

/-- The fields of an envelope have identifiers of their own. -/
theorem hostField_inj_envelope {n m : String} (hn : n ∈ ["statusCode", "message", "data"])
    (hm : m ∈ ["statusCode", "message", "data"]) (h : hostField n = hostField m) : n = m := by
  have hidentifiers : ["statusCode", "message", "data"].map hostField = ["status_code", "message", "data"] := by
    decide +kernel
  have hdistinct : (["statusCode", "message", "data"].map hostField).Nodup := by
    rw [hidentifiers]
    decide
  exact List.inj_on_of_nodup_map hdistinct hn hm h

/-- The structs of an entity tell its attributes apart just when their identifiers do. -/
theorem tellsFields_iff_of_artifact (h : Artifact e decls) :
    (∀ s ∈ (entityFile docs c e decls).structs, s.TellsFields) ↔
      ∀ a ∈ e.attributes, ∀ b ∈ e.attributes, hostField a.name = hostField b.name → a.name = b.name := by
  have hstructs : (∀ s ∈ (entityFile docs c e decls).structs, s.TellsFields) ↔
      ∀ d ∈ decls, (struct docs d).TellsFields := List.forall_mem_map
  rw [hstructs]
  constructor
  · intro hall a ha b hb he
    have hfield : ∀ a ∈ e.attributes, ∃ f ∈ (entityDecl e).fields, f.name = a.name := fun a ha =>
      ⟨_, List.mem_map_of_mem ha, rfl⟩
    obtain ⟨f, hf, hfa⟩ := hfield a ha
    obtain ⟨g, hg, hgb⟩ := hfield b hb
    rw [← hfa, ← hgb] at he ⊢
    exact tellsFields_struct_iff.mp (hall _ h.own) f hf g hg he
  · intro hinj d hd
    refine tellsFields_struct_iff.mpr fun f hf g hg he => ?_
    rcases names_of_belongs (h.belongs d hd) with hnames | hnames
    · obtain ⟨a, ha, hfa⟩ := hnames f hf
      obtain ⟨b, hb, hgb⟩ := hnames g hg
      rw [hfa, hgb] at he ⊢
      exact hinj a ha b hb he
    · have hmem : ∀ f ∈ d.fields, f.name ∈ ["statusCode", "message", "data"] := fun f hf =>
        hnames ▸ List.mem_map_of_mem hf
      exact hostField_inj_envelope (hmem f hf) (hmem g hg) he

/-! ## Documents -/

/-- What the fields of a document's structs tell. Two of its attributes share an identifier exactly when
they have the same words. And wherever the document is part of a catalog, the structs in the file of its
entity tell their fields apart exactly when no two of its attributes share an identifier. -/
structure TellsFields (d : SchemaDoc) : Prop where
  identifiers : ∀ a ∈ d.body.attributes, ∀ b ∈ d.body.attributes,
    hostField a.name = hostField b.name ↔ attributeWords a.name = attributeWords b.name
  structs : ∀ (corpus : Corpus) (c : Catalog), corpus.IsParsed → corpus.catalog = .ok c →
    d ∈ corpus.documents → ∀ (o : Options) (r : Registry), r.IsFresh .rust →
      ∃ files r', entityFiles o.docs c r = (.ok files, r') ∧ ∃ file ∈ files, file.entity = d.name ∧
        (∀ printed r'', HostModel.generate o c r = (.ok printed, r'') →
          printed.get? (Naming.modelFile d.name "rs") = some file.text) ∧
        ((∀ s ∈ file.structs, s.TellsFields) ↔ ∀ a ∈ d.body.attributes, ∀ b ∈ d.body.attributes,
          hostField a.name = hostField b.name → a = b)

/-- An entity has an identifier for each attribute just when its document has. -/
theorem forall_toEntity_iff {enums : NameMap (List String)} {d : SchemaDoc}
    (hu : (d.body.attributes.map AttributeDoc.name).Nodup) :
    (∀ a ∈ (Corpus.toEntity enums d).attributes, ∀ b ∈ (Corpus.toEntity enums d).attributes,
      hostField a.name = hostField b.name → a.name = b.name) ↔
      ∀ a ∈ d.body.attributes, ∀ b ∈ d.body.attributes, hostField a.name = hostField b.name → a = b := by
  rw [Corpus.attributes_toEntity]
  simp only [List.forall_mem_map, Corpus.toAttribute]
  constructor
  · exact fun h a ha b hb he => List.inj_on_of_nodup_map hu ha hb (h a ha b hb he)
  · exact fun h a ha b hb he => congrArg AttributeDoc.name (h a ha b hb he)

theorem tellsFields_of_parse {path : Path} {source : String} {d : SchemaDoc}
    (h : SchemaDoc.parse path source = .ok d) : TellsFields d := by
  refine ⟨fun a _ b _ => hostField_eq_iff, fun corpus c hp hcatalog hd o r hr => ?_⟩
  have hc := Corpus.isSound_of_catalog hp hcatalog
  obtain ⟨enums, owned, hassembled⟩ := Corpus.assembled_of_catalog hcatalog
  have hentity : c.entity? d.name = some (Corpus.toEntity enums d) := by
    rw [hassembled.catalog, Corpus.entity?_assemble enums hassembled.distinct]
    exact ⟨d, hd, rfl, rfl⟩
  have he : Corpus.toEntity enums d ∈ c.entityList := hc.entities.mem_values_iff.mpr ⟨_, hentity⟩
  have hname := Corpus.name_toEntity enums d
  obtain ⟨decls, r', hartifacts, -, hfiles, hmodels⟩ := entityFiles_eq_ok (o := o) hc hr
  refine ⟨_, r', hfiles, entityFile o.docs c _ (decls _), List.mem_map_of_mem he, hname, ?_, ?_⟩
  · intro printed r'' hgenerate
    obtain ⟨-, models, hran, hprinted⟩ := (generate_endsIf hc hr).2 printed r'' hgenerate
    rw [hmodels] at hran
    cases hran
    rw [← hname]
    exact hprinted _ _ (List.mem_map_of_mem he)
  · rw [tellsFields_iff_of_artifact (hartifacts _ he)]
    exact forall_toEntity_iff (SchemaDoc.isSound_of_parse h).distinct

/-- The source of an object type with attributes that differ in case only. -/
def memberSource : List String :=
  ["name: Member", "kind: static",
    "attributes: [{name: userId, type: string}, {name: userID, type: string}, {name: type, type: string}]"]

/-- The document that it is parsed to. -/
def memberDoc : SchemaDoc :=
  let attr (name : String) : AttributeDoc := ⟨name, .scalar .string, false, none, none⟩
  ⟨⟨"Member.yml"⟩, "Member", none, .object .static [attr "userId", attr "userID", attr "type"]⟩

theorem parse_memberDoc :
    SchemaDoc.parse ⟨"Member.yml"⟩ (Text.unlines memberSource) = .ok memberDoc := by
  rw [← SchemaDoc.parseAscii_eq]
  decide +kernel

/-- The document by itself. -/
def members : Corpus := ⟨[memberDoc], []⟩

theorem members_isParsed : members.IsParsed :=
  ⟨fun _ hd => ⟨_, _, List.mem_singleton.mp hd ▸ parse_memberDoc⟩, .inl rfl⟩

/-- The catalog of this document. -/
def memberCatalog : Catalog := members.catalog.toOption.getD .empty

theorem catalog_members : members.catalog = .ok memberCatalog := by decide +kernel

theorem tellsFields_member :
    SchemaDoc.parse ⟨"Member.yml"⟩ (Text.unlines memberSource) = .ok memberDoc ∧ TellsFields memberDoc :=
  ⟨parse_memberDoc, tellsFields_of_parse parse_memberDoc⟩

/-- The struct of the document has two fields of one identifier, for different attributes. -/
theorem exists_identifier_shared :
    SchemaDoc.parse ⟨"Member.yml"⟩ (Text.unlines memberSource) = .ok memberDoc ∧
      (∃ a ∈ memberDoc.body.attributes, ∃ b ∈ memberDoc.body.attributes, a.name = "userId" ∧
        b.name = "userID" ∧ hostField a.name = "user_id" ∧ hostField b.name = "user_id") ∧
      members.IsParsed ∧ members.catalog = .ok memberCatalog ∧ ∀ o : Options, ∃ files r',
        entityFiles o.docs memberCatalog .empty = (.ok files, r') ∧
          ∃ s ∈ structsOf files, (s.fields.map HostField.name) = ["user_id", "user_id", "r#type"] ∧
            (s.fields.map HostField.wireName) = ["userId", "userID", "type"] := by
  refine ⟨parse_memberDoc, by decide +kernel, members_isParsed, catalog_members, fun o => ?_⟩
  have hc := Corpus.isSound_of_catalog members_isParsed catalog_members
  obtain ⟨decls, r', hd, -, hfiles, -⟩ := entityFiles_eq_ok (o := o) hc (Registry.isFresh_empty .rust)
  have he : ∃ e ∈ memberCatalog.entityList, e.attributes.map Attribute.name = ["userId", "userID", "type"] := by
    decide +kernel
  obtain ⟨e, he, hnames⟩ := he
  have hidentifiers : ["userId", "userID", "type"].map hostField = ["user_id", "user_id", "r#type"] := by
    decide +kernel
  have hstruct : struct o.docs (entityDecl e) ∈ structsOf (memberCatalog.entityList.map fun e =>
      entityFile o.docs memberCatalog e (decls e)) := mem_structsFor.mpr ⟨e, he, _, (hd e he).own, rfl⟩
  refine ⟨_, r', hfiles, struct o.docs (entityDecl e), hstruct, ?_, ?_⟩
  · rw [← hidentifiers, ← hnames]
    unfold struct entityDecl
    simp only [List.map_map, Function.comp_def, name_field]
    rfl
  · rw [← hnames]
    unfold struct entityDecl
    simp only [List.map_map, Function.comp_def, wireName_field]
    rfl

end HostModel

end SchemaGen
