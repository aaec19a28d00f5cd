import SchemaGen.Proofs.Document.AnyOrder

/-!
# Documents that make a catalog

The checks of a catalog are passes over maps that end at the first fault. Which corpora pass can be said
without the maps: no name is given to two things. Documents have different names, none of them that of a root
type or of an enum; every list of values that is declared for an enum is the same one, and every enum that an
attribute names has one; and what is generated for an entity is generated for no other one, and is the name of
no entity and no enum. The catalog then holds what the corpus declares, and nothing else.

Results:
1. `get?_enumValues`: the enums of a corpus have the values that are declared for them.
2. `exists_foldlM_addUse`, `exists_owners`: the passes succeed if nothing is in conflict.
3. `Assembled.conflictFree`, `ConflictFree.exists_catalog`: both directions.
4. `exists_catalog_iff`: which corpora make a catalog, and what it holds.
-/

namespace SchemaGen

/-- The attributes by which a table can be queried: by its partition, by its sort attribute, by both, and by the
partition of each index. -/
def TableDoc.queried (t : TableDoc) : List (List String) :=
  [t.partition] :: (t.sort.toList.flatMap fun sort => [[sort], [t.partition, sort]]) ++
    (t.indexes.getD []).map fun i => [i.partition]

/-- The names that are generated for a document's entity. For a table these are the inputs that create, update
and delete an item, the envelopes of an item and of a list, and an input for each query; another type has an
input variant. -/
def SchemaDoc.generated (d : SchemaDoc) : List String :=
  match d.body with
  | .table t =>
    ["Create" ++ d.name ++ "Input", "Update" ++ d.name ++ "Input", "Delete" ++ d.name ++ "Input",
     d.name ++ "Response", d.name ++ "ListResponse"] ++
      t.queried.map fun attributes =>
        d.name ++ "QueryBy" ++ "And".intercalate (attributes.map Naming.toPascal) ++ "Input"
  | .object _ _ => [d.name ++ "Input"]

namespace Corpus

variable {corpus : Corpus} {c : Catalog} {enums : NameMap (List String)} {owned : NameMap String}
  {documents : List SchemaDoc} {d : SchemaDoc} {n : String} {values : List String}

/-- An attribute of the corpus names the enum. -/
def Uses (corpus : Corpus) (n : String) : Prop :=
  ∃ d ∈ corpus.documents, ∃ a ∈ d.body.attributes, a.shape.enumName? = some n

/-- The corpus declares the values for the enum: the enum catalog has them, or an attribute that names the
enum lists them. -/
def Declares (corpus : Corpus) (n : String) (values : List String) : Prop :=
  (∃ e ∈ corpus.enums, e.name = n ∧ e.values = values) ∨
    ∃ d ∈ corpus.documents, ∃ a ∈ d.body.attributes,
      a.shape.enumName? = some n ∧ a.enumValues = some values

/-- No name is given to two things, and every enum has values. -/
structure ConflictFree (corpus : Corpus) : Prop where
  distinct : (corpus.documents.map SchemaDoc.name).Nodup
  unreserved : ∀ d ∈ corpus.documents, d.name ≠ "Query" ∧ d.name ≠ "Mutation"
  apart : ∀ d ∈ corpus.documents, ∀ values, ¬ corpus.Declares d.name values
  valued : ∀ n, corpus.Uses n → ∃ values, corpus.Declares n values
  agree : ∀ n values values', corpus.Declares n values → corpus.Declares n values' → values = values'
  owned : ∀ d ∈ corpus.documents, ∀ d' ∈ corpus.documents, d.name ≠ d'.name →
    ∀ n ∈ d.generated, n ∉ d'.generated
  free : ∀ d ∈ corpus.documents, ∀ n ∈ d.generated,
    (∀ d' ∈ corpus.documents, d'.name ≠ n) ∧ ∀ values, ¬ corpus.Declares n values

/-- What the catalog of a corpus holds: one entity for each document, the enums of its attributes with the
values that are declared for them, and one enum for each name that values are declared for. -/
structure Holds (corpus : Corpus) (c : Catalog) : Prop where
  entities : ∃ enums : NameMap (List String),
    (∀ n values, enums.get? n = some values ↔ corpus.Declares n values) ∧
      c.entityList.Perm (corpus.documents.map (toEntity enums))
  names : (c.entityList.map Entity.name).Perm (corpus.documents.map SchemaDoc.name)
  enums : ∀ e, e ∈ c.enumList ↔ corpus.Declares e.name e.values
  once : (c.enumList.map EnumType.name).Nodup

/-- The check of generated names goes through these, whatever the enums are. -/
theorem generatedNames_toEntity (enums : NameMap (List String)) (d : SchemaDoc) :
    generatedNames (toEntity enums d) = d.generated := by
  unfold SchemaDoc.generated toEntity
  cases d.body with
  | object origin attrs => rfl
  | table t =>
    have hkeys : ∀ table : Table, table.partition = t.partition → table.sort = t.sort →
        table.indexes = t.indexes.getD [] → table.queryKeys.map QueryKey.required = t.queried := by
      intro table hpartition hsort hindexes
      unfold Table.queryKeys TableDoc.queried
      rw [hpartition, hsort, hindexes, List.map_cons, List.map_append, List.map_map]
      cases t.sort <;> rfl
    dsimp only [generatedNames]
    rw [← hkeys ⟨d.name, t.version, d.description, t.attributes.map (toAttribute enums), t.partition, t.sort,
      t.indexes.getD []⟩ rfl rfl rfl, List.map_map]
    rfl

/-! ## Enums -/

/-- The entries of an enum catalog have different names. -/
theorem nodup_enums (hp : corpus.IsParsed) : (corpus.enums.map EnumDoc.name).Nodup := by
  rcases hp.enums with hnil | ⟨file, source, hparse⟩
  · rw [hnil]
    exact List.nodup_nil
  · unfold EnumDoc.parseAll at hparse
    split at hparse
    · next entries hentries =>
      have hordered : entries.Ordered := by
        unfold Draft.enumsOfSource? at hentries
        split at hentries
        · cases hentries
          exact NameMap.ordered_empty
        · simp only [Option.bind_eq_bind, Option.bind_eq_some_iff] at hentries
          obtain ⟨tree, -, pairs, -, hpairs⟩ := hentries
          cases hpairs
          exact NameMap.ordered_ofList pairs
      rw [(Rules.enumsFrom_eq_ok hparse).1]
      exact hordered.nodup_names
    · cases hparse

/-- The uses of an enum are the attributes that name it, with the values that they list. -/
theorem exists_enumUse_iff {listed : Option (List String)} :
    (∃ u ∈ enumUses d, u.name = n ∧ u.values = listed) ↔
      ∃ a ∈ d.body.attributes, a.shape.enumName? = some n ∧ a.enumValues = listed := by
  unfold enumUses
  constructor
  · rintro ⟨u, hu, rfl, rfl⟩
    obtain ⟨⟨a, i⟩, ha, huse⟩ := List.mem_filterMap.mp hu
    obtain ⟨name, hname, rfl⟩ := Option.map_eq_some_iff.mp huse
    exact ⟨a, List.fst_mem_of_mem_zipIdx ha, hname, rfl⟩
  · rintro ⟨a, ha, hname, rfl⟩
    obtain ⟨i, hi, rfl⟩ := List.getElem_of_mem ha
    have hm : (d.body.attributes[i], i) ∈ d.body.attributes.zipIdx :=
      List.mem_zipIdx_iff_getElem?.mpr (List.getElem?_eq_getElem hi)
    exact ⟨_, List.mem_filterMap.mpr ⟨_, hm, Option.map_eq_some_iff.mpr ⟨n, hname, rfl⟩⟩, rfl, rfl⟩

/-- What the enum catalog and the uses list is what the corpus declares. -/
theorem lists_iff_declares (hp : corpus.IsParsed) :
    Lists (NameMap.ofList (corpus.enums.map fun e => (e.name, e.values)))
      (corpus.documents.flatMap enumUses) n values ↔ corpus.Declares n values := by
  have hnodup : ((corpus.enums.map fun e => (e.name, e.values)).map Prod.fst).Nodup := by
    rw [List.map_map]
    exact nodup_enums hp
  unfold Lists Declares
  refine or_congr ?_ ?_
  · rw [NameMap.get?_ofList hnodup]
    simp only [List.mem_map, Prod.mk.injEq]
  · simp only [← exists_enumUse_iff, List.mem_flatMap]
    constructor
    · rintro ⟨u, ⟨d, hd, hu⟩, hnamed⟩
      exact ⟨d, hd, u, hu, hnamed⟩
    · rintro ⟨d, hd, u, hu, hnamed⟩
      exact ⟨u, ⟨d, hd, hu⟩, hnamed⟩

/-- The enums of a corpus have the values that are declared for them. -/
theorem get?_enumValues (hp : corpus.IsParsed) (h : corpus.enumValues = .ok enums) :
    enums.get? n = some values ↔ corpus.Declares n values :=
  ((enumValues_eq_ok_iff.mp h).1.2 n values).trans (lists_iff_declares hp)

/-- Values that do not disagree can be gathered. -/
theorem exists_foldlM_addUse {uses : List EnumUse} (ho : enums.Ordered)
    (hagree : ∀ n values values', Lists enums uses n values → Lists enums uses n values' →
      values = values') : ∃ enums', uses.foldlM addUse enums = .ok enums' := by
  induction uses generalizing enums with
  | nil => exact ⟨enums, rfl⟩
  | cons u rest ih =>
    rw [List.foldlM_cons]
    rcases addUse_spec ho u with ⟨enums₁, hadd, hone⟩ | ⟨-, known, values, hne, hknown, hvalues⟩
    · have hrest : ∃ enums', rest.foldlM addUse enums₁ = .ok enums' := by
        refine ih hone.1 fun n values values' h h' => ?_
        exact hagree n values values' ((lists_cons_iff hone).mp h) ((lists_cons_iff hone).mp h')
      obtain ⟨enums', hrest⟩ := hrest
      exact ⟨enums', bind_eq_ok.mpr ⟨enums₁, hadd, hrest⟩⟩
    · have hmore : ∀ values, Lists enums [u] u.name values → Lists enums (u :: rest) u.name values :=
        fun values => Or.imp_right fun ⟨v, hv, hn⟩ => ⟨v, List.mem_singleton.mp hv ▸ List.mem_cons_self, hn⟩
      exact absurd (hagree _ _ _ (hmore _ hknown) (hmore _ hvalues)) hne

theorem exists_enumValues (hp : corpus.IsParsed) (h : corpus.ConflictFree) :
    ∃ enums, corpus.enumValues = .ok enums := by
  have hfold : ∃ enums, (corpus.documents.flatMap enumUses).foldlM addUse
      (NameMap.ofList (corpus.enums.map fun e => (e.name, e.values))) = .ok enums := by
    refine exists_foldlM_addUse (NameMap.ordered_ofList _) fun n values values' hl hl' => ?_
    exact h.agree n values values' ((lists_iff_declares hp).mp hl) ((lists_iff_declares hp).mp hl')
  obtain ⟨enums, hfold⟩ := hfold
  have hgathers := (foldlM_addUse_eq_ok_iff (NameMap.ordered_ofList _)).mp hfold
  refine ⟨enums, enumValues_eq_ok_iff.mpr ⟨hgathers, fun u hu => ?_⟩⟩
  obtain ⟨d, hd, hu⟩ := List.mem_flatMap.mp hu
  obtain ⟨a, ha, hname⟩ := mem_enumUses hu
  obtain ⟨values, hvalues⟩ := h.valued u.name ⟨d, hd, a, ha, hname⟩
  have hget := (hgathers.2 u.name values).mpr ((lists_iff_declares hp).mpr hvalues)
  unfold checkUse
  rw [Rules.ensure_eq_ok_iff]
  unfold NameMap.contains
  rw [hget]
  rfl

/-! ## Owners -/

/-- The map holds these owners and those that were there. -/
def Adds (m : NameMap String) (P : String → String → Prop) (m' : NameMap String) : Prop :=
  ∀ n o, m'.get? n = some o ↔ m.get? n = some o ∨ P n o

theorem exists_addOwner (documents : List SchemaDoc) {owner name : String} {m : NameMap String}
    (h : ∀ o, m.get? name = some o → o = owner) :
    ∃ m', addOwner documents owner m name = .ok m' ∧ Adds m (fun n o => n = name ∧ o = owner) m' := by
  unfold addOwner
  cases hget : m.get? name with
  | some o =>
    obtain rfl := h o hget
    refine ⟨m, if_pos rfl, fun n o' => ⟨.inl, ?_⟩⟩
    rintro (hn | ⟨rfl, rfl⟩)
    · exact hn
    · exact hget
  | none =>
    refine ⟨m.insert name owner, rfl, fun n o => ?_⟩
    rw [NameMap.get?_insert]
    by_cases hn : n = name
    · subst hn
      simp [hget, eq_comm]
    · simp [hn]

theorem exists_foldlM_addOwner (documents : List SchemaDoc) {owner : String} {names : List String}
    {m : NameMap String}
    (h : ∀ n ∈ names, ∀ o, m.get? n = some o → o = owner) :
    ∃ m', names.foldlM (addOwner documents owner) m = .ok m' ∧
      Adds m (fun n o => n ∈ names ∧ o = owner) m' := by
  induction names generalizing m with
  | nil => exact ⟨m, rfl, fun n o => by simp⟩
  | cons name rest ih =>
    obtain ⟨hname, hrest⟩ := List.forall_mem_cons.mp h
    obtain ⟨m₁, hadd, hone⟩ := exists_addOwner documents hname
    have hfold : ∃ m', rest.foldlM (addOwner documents owner) m₁ = .ok m' ∧
        Adds m₁ (fun n o => n ∈ rest ∧ o = owner) m' := by
      refine ih fun n hn o ho => ?_
      rcases (hone n o).mp ho with ho | ⟨-, ho⟩
      · exact hrest n hn o ho
      · exact ho
    obtain ⟨m', hfold, hmore⟩ := hfold
    refine ⟨m', ?_, fun n o => ?_⟩
    · rw [List.foldlM_cons]
      exact bind_eq_ok.mpr ⟨m₁, hadd, hfold⟩
    · rw [hmore n o, hone n o]
      simp only [List.mem_cons, or_and_right, or_assoc]

theorem exists_foldlM_owners (documents : List SchemaDoc) {entities : List Entity} {m : NameMap String}
    (h : ∀ e ∈ entities, ∀ n ∈ generatedNames e, ∀ o, m.get? n = some o → o = e.name)
    (hapart : ∀ e ∈ entities, ∀ f ∈ entities, ∀ n ∈ generatedNames e, n ∈ generatedNames f →
      e.name = f.name) :
    ∃ m', entities.foldlM (fun owners e => (generatedNames e).foldlM (addOwner documents e.name) owners)
        m = .ok m' ∧ Adds m (fun n o => ∃ e ∈ entities, n ∈ generatedNames e ∧ o = e.name) m' := by
  induction entities generalizing m with
  | nil => exact ⟨m, rfl, fun n o => by simp⟩
  | cons e rest ih =>
    obtain ⟨he, hrest⟩ := List.forall_mem_cons.mp h
    obtain ⟨m₁, hadd, hone⟩ := exists_foldlM_addOwner documents he
    have hfold : ∃ m', rest.foldlM
        (fun owners e => (generatedNames e).foldlM (addOwner documents e.name) owners) m₁ = .ok m' ∧
          Adds m₁ (fun n o => ∃ e ∈ rest, n ∈ generatedNames e ∧ o = e.name) m' := by
      refine ih (fun f hf n hn o ho => ?_) fun f hf g hg =>
        hapart f (List.mem_cons_of_mem _ hf) g (List.mem_cons_of_mem _ hg)
      rcases (hone n o).mp ho with ho | ⟨hown, rfl⟩
      · exact hrest f hf n hn o ho
      · exact hapart e List.mem_cons_self f (List.mem_cons_of_mem _ hf) n hown hn
    obtain ⟨m', hfold, hmore⟩ := hfold
    refine ⟨m', ?_, fun n o => ?_⟩
    · rw [List.foldlM_cons]
      exact bind_eq_ok.mpr ⟨m₁, hadd, hfold⟩
    · rw [hmore n o, hone n o]
      simp only [List.exists_mem_cons_iff, or_assoc]

/-- What is generated for one entity alone has an owner, and nothing else has. -/
theorem exists_owners (documents : List SchemaDoc) (hapart : ∀ e ∈ c.entityList, ∀ f ∈ c.entityList,
    ∀ n ∈ generatedNames e, n ∈ generatedNames f → e.name = f.name) :
    ∃ owned, owners documents c = .ok owned ∧
      ∀ n o, owned.get? n = some o ↔ ∃ e ∈ c.entityList, n ∈ generatedNames e ∧ o = e.name := by
  have hempty : ∀ n o, (NameMap.empty : NameMap String).get? n ≠ some o := fun n o h => by cases h
  obtain ⟨owned, howners, hadds⟩ := exists_foldlM_owners documents
    (fun e _ n _ o ho => absurd ho (hempty n o)) hapart
  exact ⟨owned, howners, fun n o => (hadds n o).trans (or_iff_right (hempty n o))⟩

/-! ## Catalogs -/

/-- The entities of a catalog are those that the documents describe. -/
theorem mem_entityList_assemble_iff (hu : (documents.map SchemaDoc.name).Nodup) {e : Entity} :
    e ∈ (assemble enums documents).entityList ↔ ∃ d ∈ documents, toEntity enums d = e := by
  have ho : (assemble enums documents).entities.Ordered := by
    rw [entities_assemble]
    exact NameMap.ordered_foldl_insert _ _ _ NameMap.ordered_empty
  unfold Catalog.entityList
  rw [ho.mem_values_iff]
  constructor
  · rintro ⟨n, hn⟩
    obtain ⟨d, hd, -, he⟩ := (entity?_assemble enums hu n e).mp hn
    exact ⟨d, hd, he⟩
  · rintro ⟨d, hd, he⟩
    exact ⟨d.name, (entity?_assemble enums hu d.name e).mpr ⟨d, hd, rfl, he⟩⟩

namespace Assembled

variable (h : Assembled corpus c enums owned) (hp : corpus.IsParsed)

include h hp

/-- What a document declares is generated for it. -/
theorem get?_of_generated (hd : d ∈ corpus.documents) (hn : n ∈ d.generated) :
    owned.get? n = some d.name := by
  have hentity : c.entity? d.name = some (toEntity enums d) := by
    rw [h.catalog]
    exact (entity?_assemble enums h.distinct _ _).mpr ⟨d, hd, rfl, rfl⟩
  exact h.owner hp hentity (generatedNames_toEntity enums d ▸ hn)

/-- A corpus that makes a catalog has no conflicts. -/
theorem conflictFree : corpus.ConflictFree where
  distinct := h.distinct
  unreserved d hd := by
    have hnot := (notGenerated_eq_ok (h.documents d hd)).1
    simpa only [reservedNames, List.mem_cons, List.not_mem_nil, or_false, not_or] using hnot
  apart d hd values hdeclares := by
    have hnot := h.apart d hd
    unfold notEnum NameMap.contains at hnot
    rw [Rules.ensure_eq_ok_iff, (get?_enumValues hp h.values).mpr hdeclares] at hnot
    cases hnot
  valued n := by
    rintro ⟨d, hd, a, ha, hn⟩
    obtain ⟨values, hv⟩ := exists_values_of_enumValues h.values hd ha hn
    exact ⟨values, (get?_enumValues hp h.values).mp hv⟩
  agree n values values' hdeclares hdeclares' := by
    have hget := (get?_enumValues hp h.values).mpr hdeclares
    rw [(get?_enumValues hp h.values).mpr hdeclares'] at hget
    exact (Option.some.inj hget).symm
  owned d hd d' hd' hne n hn hn' := by
    have hget := h.get?_of_generated hp hd hn
    rw [h.get?_of_generated hp hd' hn'] at hget
    exact hne (Option.some.inj hget).symm
  free d hd n hn := by
    have hget := h.get?_of_generated hp hd hn
    refine ⟨fun d' hd' hname => ?_, fun values hdeclares => ?_⟩
    · rw [← hname, (notGenerated_eq_ok (h.documents d' hd')).2] at hget
      cases hget
    · have hnone := (h.free_of_owner hp hget).2
      rw [(h.enum?_iff hp ⟨n, values⟩).mpr ⟨values, (get?_enumValues hp h.values).mpr hdeclares, rfl⟩] at hnone
      cases hnone

/-- The catalog holds what the corpus declares. -/
theorem holds : corpus.Holds c := by
  have hc := isSound_of_catalog hp h.catalog_eq_ok
  have hnames : (corpus.documents.map (toEntity enums)).map Entity.name =
      corpus.documents.map SchemaDoc.name := by
    rw [List.map_map]
    exact List.map_congr_left fun d _ => name_toEntity enums d
  have hperm : c.entityList.Perm (corpus.documents.map (toEntity enums)) := by
    refine (List.perm_ext_iff_of_nodup ?_ ?_).mpr fun e => ?_
    · refine List.Nodup.of_map Entity.name ?_
      exact (h.ordered_entities.map_values hc.entity_name).symm ▸ h.ordered_entities.nodup_names
    · exact List.Nodup.of_map Entity.name (hnames ▸ h.distinct)
    · rw [h.catalog, mem_entityList_assemble_iff h.distinct, List.mem_map]
  constructor
  case entities => exact ⟨enums, fun n values => get?_enumValues hp h.values, hperm⟩
  case names =>
    rw [← hnames]
    exact hperm.map _
  case enums =>
    intro e
    unfold Catalog.enumList
    rw [h.ordered_enums.mem_values_iff, ← get?_enumValues hp h.values]
    constructor
    · rintro ⟨n, hn⟩
      obtain ⟨values, hvalues, rfl⟩ := (h.enum?_iff hp e).mp hn
      exact hvalues
    · exact fun hvalues => ⟨e.name, (h.enum?_iff hp e).mpr ⟨e.values, hvalues, rfl⟩⟩
  case once => exact (h.ordered_enums.map_values hc.enum_name).symm ▸ h.ordered_enums.nodup_names

end Assembled

namespace ConflictFree

/-- Without conflicts the generated names find their owners. Whatever has an owner is generated for a
document. -/
theorem exists_owners (h : corpus.ConflictFree) (enums : NameMap (List String)) :
    ∃ owned, owners corpus.documents (assemble enums corpus.documents) = .ok owned ∧
      ∀ n o, owned.get? n = some o → ∃ d ∈ corpus.documents, n ∈ d.generated := by
  have hentities : ∀ e ∈ (assemble enums corpus.documents).entityList,
      ∃ d ∈ corpus.documents, d.name = e.name ∧ d.generated = generatedNames e := by
    intro e he
    obtain ⟨d, hd, rfl⟩ := (mem_entityList_assemble_iff h.distinct).mp he
    exact ⟨d, hd, (name_toEntity enums d).symm, (generatedNames_toEntity enums d).symm⟩
  have hapart : ∀ e ∈ (assemble enums corpus.documents).entityList,
      ∀ f ∈ (assemble enums corpus.documents).entityList, ∀ n ∈ generatedNames e,
        n ∈ generatedNames f → e.name = f.name := by
    intro e he f hf n hn hn'
    obtain ⟨d, hd, hname, hgen⟩ := hentities e he
    obtain ⟨d', hd', hname', hgen'⟩ := hentities f hf
    by_contra hne
    refine h.owned d hd d' hd' ?_ n (hgen ▸ hn) (hgen' ▸ hn')
    rw [hname, hname']
    exact hne
  obtain ⟨owned, howners, howned⟩ := Corpus.exists_owners corpus.documents hapart
  refine ⟨owned, howners, fun n o ho => ?_⟩
  obtain ⟨e, he, hn, -⟩ := (howned n o).mp ho
  obtain ⟨d, hd, -, hgen⟩ := hentities e he
  exact ⟨d, hd, hgen ▸ hn⟩

/-- What passes where there are no conflicts, one check after the other. -/
theorem assembled (h : corpus.ConflictFree) (hp : corpus.IsParsed) (hvalues : corpus.enumValues = .ok enums)
    (howners : owners corpus.documents (assemble enums corpus.documents) = .ok owned)
    (hgenerated : ∀ n o, owned.get? n = some o → ∃ d ∈ corpus.documents, n ∈ d.generated) :
    Assembled corpus (assemble enums corpus.documents) enums owned := by
  constructor
  case catalog => rfl
  case distinct => exact h.distinct
  case values => exact hvalues
  case owners => exact howners
  case apart =>
    intro d hd
    unfold notEnum NameMap.contains
    rw [Rules.ensure_eq_ok_iff]
    cases hget : enums.get? d.name with
    | none => rfl
    | some values => exact absurd ((get?_enumValues hp hvalues).mp hget) (h.apart d hd values)
  case documents =>
    intro d hd
    have hreserved : reservedNames.contains d.name = false := by
      have hne := h.unreserved d hd
      simp [reservedNames, hne.1, hne.2]
    unfold notGenerated
    rw [hreserved]
    cases hget : owned.get? d.name with
    | none => rfl
    | some o =>
      obtain ⟨d', hd', hn⟩ := hgenerated _ _ hget
      exact absurd rfl ((h.free d' hd' _ hn).1 d hd)
  case enums =>
    intro e he
    unfold enumNotGenerated
    cases hget : owned.get? e.name with
    | none => rfl
    | some o =>
      obtain ⟨d', hd', hn⟩ := hgenerated _ _ hget
      have ho : (assemble enums corpus.documents).enums.Ordered := by
        rw [enums_assemble]
        exact NameMap.ordered_foldl_insert _ _ _ NameMap.ordered_empty
      obtain ⟨m, hm⟩ := ho.mem_values_iff.mp he
      obtain ⟨values, hv, rfl⟩ :=
        (enum?_assemble (enumValues_eq_ok hp hvalues).1 corpus.documents m e).mp hm
      exact absurd ((get?_enumValues hp hvalues).mp hv) ((h.free d' hd' _ hn).2 values)

/-- A corpus without conflicts passes every check. -/
theorem exists_catalog (h : corpus.ConflictFree) (hp : corpus.IsParsed) : ∃ c, corpus.catalog = .ok c := by
  obtain ⟨enums, hvalues⟩ := exists_enumValues hp h
  obtain ⟨owned, howners, hgenerated⟩ := h.exists_owners enums
  exact ⟨_, (h.assembled hp hvalues howners hgenerated).catalog_eq_ok⟩

end ConflictFree

/-- Parsed documents make a catalog exactly if they have no conflicts, and it holds what they declare. -/
theorem exists_catalog_iff (hp : corpus.IsParsed) :
    ((∃ c, corpus.catalog = .ok c) ↔ corpus.ConflictFree) ∧
      ∀ c, corpus.catalog = .ok c → corpus.Holds c := by
  refine ⟨⟨?_, fun h => h.exists_catalog hp⟩, fun c hc => ?_⟩
  · rintro ⟨c, hc⟩
    obtain ⟨enums, owned, h⟩ := assembled_of_catalog hc
    exact h.conflictFree hp
  · obtain ⟨enums, owned, h⟩ := assembled_of_catalog hc
    exact h.holds hp

end Corpus

/-- The sources of a table that lists the values of an enum, and of an object type that names it. -/
def ticketSources : List (Path × List String) :=
  [(⟨"Ticket.yml"⟩, ["name: Ticket", "kind: table", "version: 1", "model:",
      "  keys: {primary: {partition: id}}", "  attributes: [{name: id, type: string},",
      "    {name: status, enumType: Status, enumValues: [OPEN, CLOSED]}]"]),
    (⟨"Note.yml"⟩, ["name: Note", "kind: static",
      "attributes: [{name: status, enumType: Status}, {name: color, type: Color}]"])]

/-- The source of an enum catalog that agrees with the table. -/
def ticketEnums : List String := ["Status: [OPEN, CLOSED]", "Color: [RED]"]

/-- The documents that these sources are parsed to. -/
def tickets : Corpus :=
  ⟨[⟨⟨"Ticket.yml"⟩, "Ticket", none, .table ⟨"1", "id", none, none,
      [⟨"id", .scalar .string, false, none, none⟩,
        ⟨"status", .enum "Status" [], false, none, some ["OPEN", "CLOSED"]⟩]⟩⟩,
    ⟨⟨"Note.yml"⟩, "Note", none, .object .static
      [⟨"status", .enum "Status" [], false, none, none⟩, ⟨"color", .reference "Color", false, none, none⟩]⟩],
    [⟨⟨"enums.yml"⟩, "Color", ["RED"]⟩, ⟨⟨"enums.yml"⟩, "Status", ["OPEN", "CLOSED"]⟩]⟩

/-- The source of an enum catalog that does not agree with it. -/
def disputedEnums : List String := ["Status: [OPEN]", "Color: [RED]"]

/-- The same documents with that enum catalog. -/
def disputed : Corpus :=
  ⟨tickets.documents, [⟨⟨"enums.yml"⟩, "Color", ["RED"]⟩, ⟨⟨"enums.yml"⟩, "Status", ["OPEN"]⟩]⟩

theorem tickets_isParsed : tickets.IsParsed := by
  have henums : EnumDoc.parseAll ⟨"enums.yml"⟩ (Text.unlines ticketEnums) = .ok tickets.enums := by
    decide +kernel
  exact Corpus.isParsed_of_mapM (s := ticketSources) (by decide +kernel) (.inr ⟨_, _, henums⟩)

theorem disputed_isParsed : disputed.IsParsed := by
  have henums : EnumDoc.parseAll ⟨"enums.yml"⟩ (Text.unlines disputedEnums) = .ok disputed.enums := by
    decide +kernel
  exact ⟨tickets_isParsed.documents, .inr ⟨_, _, henums⟩⟩

theorem exists_catalog_iff_tickets : tickets.IsParsed ∧ tickets.ConflictFree ∧
    (∃ c, tickets.catalog = .ok c ∧ tickets.Holds c) ∧ disputed.IsParsed ∧ ¬ disputed.ConflictFree := by
  have hcatalog : ∃ c, tickets.catalog = .ok c :=
    ⟨tickets.catalog.toOption.getD .empty, by decide +kernel⟩
  have hnone : ∀ c, disputed.catalog ≠ .ok c := by
    intro c hc
    have hfault : disputed.catalog.toOption = none := by decide +kernel
    rw [hc] at hfault
    cases hfault
  obtain ⟨hiff, hholds⟩ := Corpus.exists_catalog_iff tickets_isParsed
  obtain ⟨c, hc⟩ := hcatalog
  refine ⟨tickets_isParsed, hiff.mp ⟨c, hc⟩, ⟨c, hc, hholds c hc⟩, disputed_isParsed, fun h => ?_⟩
  obtain ⟨c', hc'⟩ := (Corpus.exists_catalog_iff disputed_isParsed).1.mpr h
  exact hnone c' hc'

end SchemaGen
