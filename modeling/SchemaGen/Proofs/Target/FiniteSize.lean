import Mathlib.Logic.Relation
import SchemaGen.Proofs.Emission.Names
import SchemaGen.Proofs.Target.ModelFiles

/-!
# The size of the host models

A struct contains another one by value where a field has the other's name as its type, or is an option of
it; boxes and lists hold what they hold elsewhere. A value has finite size exactly if no struct contains
itself, be it through others. Which structs contain one another can be seen from the declared types, before
anything is written down (`Keeps`).

A field is boxed only if its own struct is what it refers to, so that an entity may hold itself, but entities
that hold one another make structs without a finite size. Nothing else does, as long as references name
entities, and no entity is called like the type of texts: a reference may also name a type that is generated
for an entity, and an entity of that name is what the texts of its own fields would be.

Results:
1. `text_fieldType_iff`: what a field holds by value.
2. `contains_iff`: structs contain one another as the declared types keep one another in place.
3. `keeps_of_holds`, `holds_of_keeps`: entities keep one another in place as they hold one another.
4. `finiteSize_structs`: when all host models have finite size.
-/

namespace SchemaGen

open Relation Emission

/-- An attribute of the first entity is an item of the second one. -/
def Catalog.Holds (c : Catalog) (e f : Entity) : Prop :=
  c.entity? f.name = some f ∧ ∃ a ∈ e.attributes, a.shape = .reference f.name

/-- What is held is an entity of the catalog. -/
theorem Catalog.Holds.mem {c : Catalog} {e f : Entity} (h : c.Holds e f) (hc : c.IsSound) :
    f ∈ c.entityList := hc.entities.mem_values_iff.mpr ⟨_, h.1⟩

theorem Catalog.mem_of_reflTransGen {c : Catalog} {e f : Entity} (hc : c.IsSound)
    (h : ReflTransGen c.Holds e f) (hne : f ≠ e) : f ∈ c.entityList := by
  rcases h.cases_tail with heq | ⟨g, -, hstep⟩
  · exact absurd heq hne
  · exact hstep.mem hc

/-- No two entities hold one another, be it through others. -/
def Catalog.IsLayered (c : Catalog) : Prop :=
  ∀ e f, ReflTransGen c.Holds e f → ReflTransGen c.Holds f e → e = f

namespace HostModel

variable {c : Catalog} {docs : Bool} {owner n : String} {e f : Entity}

/-! ## Files of entities -/

/-- The file of an entity: what it imports, and the structs that it declares. -/
structure EntityFile where
  entity : String
  imports : List Import
  structs : List Struct

/-- The text of the file. -/
def EntityFile.text (file : EntityFile) : String := modelText file.entity file.imports file.structs

/-- The file of an entity that declares those types. -/
def entityFile (docs : Bool) (c : Catalog) (e : Entity) (decls : List TypeDecl) : EntityFile :=
  ⟨e.name, imports c decls, decls.map (struct docs)⟩

/-- The files of the entities. -/
def entityFiles (docs : Bool) (c : Catalog) : Emit (List EntityFile) :=
  Emit.collect (fun e => do
    return [entityFile docs c e (Declaration.types (← Emit.fragment c .rust e .modelArtifact))]) c.entityList

/-- The structs that files declare. -/
def structsOf (files : List EntityFile) : List Struct := files.flatMap EntityFile.structs

/-- The struct called `a` has a field whose type is the struct called `b`, or an option of it. -/
def Contains (structs : List Struct) (a b : String) : Prop :=
  (∃ s ∈ structs, s.name = b) ∧ ∃ s ∈ structs, s.name = a ∧
    ∃ f ∈ s.fields, f.type.text = b ∨ f.type.text = "Option<" ++ b ++ ">"

/-- No struct contains itself by value, be it through others. -/
def FiniteSize (structs : List Struct) : Prop := ∀ n, ¬ TransGen (Contains structs) n n

/-! ## Written types -/

theorem ne_append_of_isIdentifier (h : IsIdentifier n) (text : String) : text ++ ">" ≠ n := by
  rintro rfl
  exact h.not_mem (by decide) ((Naming.suffix_append text ">").subset (List.mem_singleton.mpr rfl))

/-- The type of a field whether or not it may be absent. -/
def baseType (owner : String) (f : Field) : HostType :=
  match f.type with
  | .integer => .builtin Surface.host.integer
  | .shape shape => HostType.ofShape owner shape

theorem fieldType_eq (owner : String) (f : Field) : fieldType owner f =
    if f.required then baseType owner f else .optional (baseType owner f) := rfl

theorem ofShape_reference (owner name : String) : HostType.ofShape owner (.reference name) =
    if name = owner then .boxed name else .named name := rfl

/-- A field of the type `owner` keeps a value of the type `n` in place: it refers to one item of another type,
or it is a scalar that the host models write as this name. -/
def KeepsInPlace (owner : String) (f : Field) (n : String) : Prop :=
  ∃ shape, f.type = .shape shape ∧
    ((shape = .reference n ∧ n ≠ owner) ∨ ∃ s, shape = .scalar s ∧ Surface.host.scalar s = n)

/-- What a shape is written as, where it is a name that no enum has. -/
theorem text_ofShape_eq_iff {shape : Shape} (hn : IsIdentifier n) (henum : shape.enumName? ≠ some n) :
    (HostType.ofShape owner shape).text = n ↔
      (shape = .reference n ∧ n ≠ owner) ∨ ∃ s, shape = .scalar s ∧ Surface.host.scalar s = n := by
  cases shape with
  | scalar s => simp [HostType.ofShape, HostType.text]
  | enum name values =>
    have hne : name ≠ n := fun he => henum (congrArg some he)
    simp [HostType.ofShape, HostType.text, hne]
  | scalarArray s => exact iff_of_false (ne_append_of_isIdentifier hn _) (by simp)
  | referenceArray name => exact iff_of_false (ne_append_of_isIdentifier hn _) (by simp)
  | reference name =>
    rw [ofShape_reference]
    split
    · next howner =>
      refine iff_of_false (ne_append_of_isIdentifier hn _) ?_
      rintro (⟨⟨⟩, hne⟩ | ⟨_, ⟨⟩, -⟩)
      exact hne howner
    · next hne =>
      constructor
      · rintro rfl
        exact .inl ⟨rfl, hne⟩
      · rintro (⟨⟨⟩, -⟩ | ⟨_, ⟨⟩, -⟩)
        rfl

/-- No shape is written as an option. -/
theorem text_ofShape_ne_option {shape : Shape}
    (hnames : ∀ m, shape.enumName? = some m ∨ shape.referenced? = some m → IsIdentifier m) (text : String) :
    (HostType.ofShape owner shape).text ≠ "Option<" ++ text ++ ">" := by
  have hlist : ∀ element, "Vec<" ++ element ++ ">" ≠ "Option<" ++ text ++ ">" := by
    intro element
    rw [String.append_assoc, String.append_assoc]
    exact Naming.append_ne_of_head rfl rfl (by decide)
  have hbox : ∀ name, "Box<" ++ name ++ ">" ≠ "Option<" ++ text ++ ">" := by
    intro name
    rw [String.append_assoc, String.append_assoc]
    exact Naming.append_ne_of_head rfl rfl (by decide)
  cases shape with
  | scalar s =>
    intro h
    have hprefix : "Option<".toList <+: (Surface.host.scalar s).toList := by
      rw [show Surface.host.scalar s = _ from h, String.append_assoc, String.toList_append]
      exact List.prefix_append _ _
    revert hprefix
    cases s <;> decide
  | enum name values => exact fun h => ne_append_of_isIdentifier (hnames name (.inl rfl)) _ h.symm
  | scalarArray s => exact hlist _
  | referenceArray name => exact hlist _
  | reference name =>
    rw [ofShape_reference]
    split
    · exact hbox _
    · exact fun h => ne_append_of_isIdentifier (hnames name (.inr rfl)) _ h.symm

/-- A field is written as the name of a type that is no enum, or as an option of it, just where it keeps a value
of this type in place. -/
theorem text_fieldType_iff {f : Field} (hn : IsIdentifier n) (hinteger : n ≠ Surface.host.integer)
    (hf : f.WellNamed) (henum : ∀ shape, f.type = .shape shape → shape.enumName? ≠ some n) :
    (fieldType owner f).text = n ∨ (fieldType owner f).text = "Option<" ++ n ++ ">" ↔
      KeepsInPlace owner f n := by
  have hbase : (fieldType owner f).text = n ∨ (fieldType owner f).text = "Option<" ++ n ++ ">" ↔
      (baseType owner f).text = n ∨ (baseType owner f).text = "Option<" ++ n ++ ">" ∧ f.required = true := by
    rw [fieldType_eq]
    split
    · next hr => simp [hr]
    · next hr =>
      have hoption : (HostType.optional (baseType owner f)).text ≠ n := ne_append_of_isIdentifier hn _
      have hinner : (HostType.optional (baseType owner f)).text = "Option<" ++ n ++ ">" ↔
          (baseType owner f).text = n := by
        show "Option<" ++ (baseType owner f).text ++ ">" = _ ↔ _
        rw [String.append_left_inj, String.append_right_inj]
      simp [hoption, hinner, hr]
  rw [hbase]
  unfold baseType KeepsInPlace
  split
  · next htype =>
    refine iff_of_false ?_ (by simp [htype])
    rintro (h | ⟨h, -⟩)
    · exact hinteger h.symm
    · refine Naming.append_ne_of_head (s := "i32") (x := "") (t := "Option<") (y := n ++ ">") rfl rfl
        (by decide) ?_
      rw [← String.append_assoc, String.append_empty]
      exact h
  · next shape htype =>
    have hoption : (HostType.ofShape owner shape).text ≠ "Option<" ++ n ++ ">" :=
      text_ofShape_ne_option (hf.type shape htype) n
    rw [text_ofShape_eq_iff hn (henum shape htype), htype]
    simp [hoption]

/-! ## Fields of brought types -/

/-- Names that are not dangling are names of entities. -/
theorem exists_entity_of_dangling_eq_nil (hdangling : c.dangling = []) (he : e ∈ c.entityList)
    {a : Attribute} (ha : a ∈ e.attributes) (hn : a.shape.referenced? = some n) :
    ∃ f, c.entity? n = some f := by
  rw [← Option.isSome_iff_exists, ← Bool.not_eq_false]
  intro hnone
  have hmem : (⟨e.name, a.name, n⟩ : DanglingReference) ∈ c.dangling := by
    refine List.mem_flatMap.mpr ⟨e, he, List.mem_filterMap.mpr ⟨a, ha, ?_⟩⟩
    rw [hn, Option.filter_some, show c.entities.contains n = false from hnone]
    rfl
  rw [hdangling] at hmem
  cases hmem

section

variable {d : TypeDecl} {field : Field} (hc : c.IsSound) (he : e ∈ c.entityList) (hd : Belongs e d)
  (hf : field ∈ d.fields)

include hc he hd hf

/-- A field that refers to one item refers to the entity itself or to one that it holds. -/
theorem exists_entity_of_belongs (hdangling : c.dangling = []) (hs : field.type = .shape (.reference n)) :
    ∃ f, c.entity? n = some f ∧ (f = e ∨ c.Holds e f) := by
  rcases shape_of_belongs hd hf hs with ⟨a, ha, hshape⟩ | hshape | hshape | hshape
  · obtain ⟨f, hfound⟩ := exists_entity_of_dangling_eq_nil hdangling he ha (n := n) (by rw [hshape]; rfl)
    have hname := hc.entity_name n f hfound
    exact ⟨f, hfound, .inr ⟨hname.symm ▸ hfound, a, ha, hname.symm ▸ hshape⟩⟩
  · cases hshape
  · cases hshape
    exact ⟨e, hc.entity?_of_mem he, .inl rfl⟩
  · cases hshape

end

/-! ## Declared types -/

/-- The models declare the type: an entity brings it, and it is no input variant. -/
def IsModelType (c : Catalog) (d : TypeDecl) : Prop := ∃ e ∈ c.entityList, Brings e d ∧ d.name ∈ modelNames e

/-- A declared type has a field that keeps another declared type in place. -/
def Keeps (c : Catalog) (a b : String) : Prop :=
  (∃ d, IsModelType c d ∧ d.name = b) ∧ ∃ d, IsModelType c d ∧ d.name = a ∧ ∃ f ∈ d.fields, KeepsInPlace a f b

section

variable {a b : String} (hc : c.IsSound)

theorem isModelType_entityDecl (he : e ∈ c.entityList) : IsModelType c (entityDecl e) :=
  ⟨e, he, .inl (entityDecl_mem_ownDecls e), name_mem_modelNames e⟩

include hc

/-- Declared types are told from what the host models write for a scalar or an integer, apart from texts. -/
theorem name_of_isModelType {d : TypeDecl} (h : IsModelType c d) :
    d.name ≠ Surface.host.integer ∧ ∀ s, Surface.host.scalar s = d.name → d.name = "String" := by
  obtain ⟨e, he, hbrings, -⟩ := h
  have hname : isTypeName d.name.toList = true ∨ ApiSchema.EndsGenerated d.name :=
    (belongs_name hbrings.belongs).imp (fun hn => by rw [hn]; exact hc.isTypeName_entity he)
      ApiSchema.endsGenerated_of_mem
  refine ⟨fun hinteger => ?_, fun s hs => ?_⟩
  · rw [hinteger] at hname
    revert hname
    decide
  · rw [← hs] at hname ⊢
    revert hname
    cases s <;> decide

/-- What an entity holds, it keeps in place, apart from itself. -/
theorem keeps_of_holds (he : e ∈ c.entityList) (h : c.Holds e f) (hne : f ≠ e) : Keeps c e.name f.name := by
  have hfl := h.mem hc
  obtain ⟨hf, a, ha, hshape⟩ := h
  have hname : f.name ≠ e.name := by
    intro hn
    have he' := hc.entity?_of_mem he
    rw [← hn, hf] at he'
    exact hne (Option.some.inj he')
  exact ⟨⟨_, isModelType_entityDecl hfl, rfl⟩, _, isModelType_entityDecl he, rfl, _, List.mem_map_of_mem ha,
    a.shape, rfl, .inl ⟨hshape, hname⟩⟩

/-- Where references name entities, and no entity is called like the type of texts, what is kept in place is an
entity, and an entity that keeps it in place holds it. -/
theorem holds_of_keeps (hdangling : c.dangling = []) (hstring : c.entity? "String" = none)
    (h : Keeps c a b) : ∃ f, c.entity? b = some f ∧ ∀ e, c.entity? a = some e → c.Holds e f ∧ f ≠ e := by
  obtain ⟨⟨d, hd, rfl⟩, d', hd', rfl, field, hfield, shape, hs, ⟨rfl, hne⟩ | ⟨s, -, hwritten⟩⟩ := h
  · obtain ⟨g, hg, hbrings, -⟩ := hd'
    obtain ⟨f, hf, hholds⟩ := exists_entity_of_belongs hc hg hbrings.belongs hfield hdangling hs
    refine ⟨f, hf, fun e he => ?_⟩
    have hfe : f ≠ e := by
      rintro rfl
      exact hne ((hc.entity_name _ f hf).symm.trans (hc.entity_name _ f he))
    -- the type of that name is brought by the entity itself
    have heg : e = g := by
      have hen := hc.entity_name _ e he
      exact hc.eq_of_typeName (hen ▸ he) (hc.entity?_of_mem hg) (.inl hen.symm) (belongs_name hbrings.belongs)
    subst heg
    exact ⟨hholds.resolve_left hfe, hfe⟩
  · -- neither an entity nor what is generated for one is called so
    exfalso
    have hstr := (name_of_isModelType hc hd).2 s hwritten
    obtain ⟨g, hg, hbrings, -⟩ := hd
    rcases belongs_name hbrings.belongs with hname | hgenerated
    · rw [← hstr, hname, hc.entity?_of_mem hg] at hstring
      cases hstring
    · rw [hstr] at hgenerated
      exact absurd (ApiSchema.endsGenerated_of_mem hgenerated) (by decide)

/-! ## Cycles -/

/-- What an entity holds through others, it keeps in place through others; what holds itself is passed over. -/
theorem reflTransGen_keeps (he : e ∈ c.entityList) (h : ReflTransGen c.Holds e f) :
    f ∈ c.entityList ∧ ReflTransGen (Keeps c) e.name f.name := by
  induction h with
  | refl => exact ⟨he, .refl⟩
  | @tail g f _ hstep ih =>
    obtain ⟨hg, hpath⟩ := ih
    refine ⟨hstep.mem hc, ?_⟩
    by_cases hfg : f = g
    · exact hfg ▸ hpath
    · exact hpath.tail (keeps_of_holds hc hg hstep hfg)

/-- What is kept in place through others is an entity, and an entity that keeps it so holds it through different
ones. -/
theorem transGen_holds (hdangling : c.dangling = []) (hstring : c.entity? "String" = none)
    (h : TransGen (Keeps c) a b) : ∃ f, c.entity? b = some f ∧
      ∀ e, c.entity? a = some e → TransGen (fun e f => c.Holds e f ∧ f ≠ e) e f := by
  induction h with
  | single hstep =>
    obtain ⟨f, hf, hholds⟩ := holds_of_keeps hc hdangling hstring hstep
    exact ⟨f, hf, fun e he => .single (hholds e he)⟩
  | tail _ hstep ih =>
    obtain ⟨g, hg, hpath⟩ := ih
    obtain ⟨f, hf, hholds⟩ := holds_of_keeps hc hdangling hstring hstep
    exact ⟨f, hf, fun e he => (hpath e he).tail (hholds g hg)⟩

/-- No two entities hold one another where no declared type keeps itself in place through others. -/
theorem isLayered_of_keeps (h : ∀ n, ¬ TransGen (Keeps c) n n) : c.IsLayered := by
  intro e f hef hfe
  by_contra hne
  have he := Catalog.mem_of_reflTransGen hc hfe hne
  obtain ⟨hf, hto⟩ : f ∈ c.entityList ∧ ReflTransGen (Keeps c) e.name f.name := reflTransGen_keeps hc he hef
  have hback : ReflTransGen (Keeps c) f.name e.name := (reflTransGen_keeps hc hf hfe).2
  rcases reflTransGen_iff_eq_or_transGen.mp hto with hname | hcycle
  · have heq := hc.entity?_of_mem he
    rw [← hname, hc.entity?_of_mem hf] at heq
    exact hne (Option.some.inj heq).symm
  · exact h e.name (hcycle.trans_left hback)

theorem not_transGen_keeps (hdangling : c.dangling = []) (hstring : c.entity? "String" = none)
    (hlayered : c.IsLayered) (n : String) : ¬ TransGen (Keeps c) n n := by
  intro hcycle
  obtain ⟨e, he, hpath⟩ := transGen_holds hc hdangling hstring hcycle
  obtain ⟨f, ⟨hholds, hne⟩, hback⟩ := TransGen.head'_iff.mp (hpath e he)
  exact hne (hlayered e f (.single hholds) (ReflTransGen.mono (fun _ _ h => h.1) _ _ hback)).symm

end

/-! ## Containment -/

section

variable {decls : Entity → List TypeDecl} {a b : String}

/-- The structs of a catalog whose entities bring those types. -/
def structsFor (docs : Bool) (c : Catalog) (decls : Entity → List TypeDecl) : List Struct :=
  structsOf (c.entityList.map fun e => entityFile docs c e (decls e))

theorem mem_structsFor {s : Struct} :
    s ∈ structsFor docs c decls ↔ ∃ e ∈ c.entityList, ∃ d ∈ decls e, struct docs d = s := by
  unfold structsFor structsOf entityFile
  simp only [List.mem_flatMap, List.mem_map, exists_exists_and_eq_and]

variable (hc : c.IsSound) (hd : ∀ e ∈ c.entityList, Artifact e (decls e))

include hc hd

theorem nodup_names_structsFor : ((structsFor docs c decls).map Struct.name).Nodup := by
  have hnames : (structsFor docs c decls).map Struct.name =
      c.entityList.flatMap fun e => (decls e).map TypeDecl.name := by
    unfold structsFor structsOf entityFile
    rw [List.flatMap_map, List.map_flatMap]
    simp only [List.map_map]
    rfl
  rw [hnames]
  exact nodup_typeNames hc hd

variable (hb : ∀ e ∈ c.entityList, ∀ d ∈ decls e, Brings e d)

include hb

theorem isModelType_iff {d : TypeDecl} : IsModelType c d ↔ ∃ e ∈ c.entityList, d ∈ decls e := by
  constructor
  · rintro ⟨e, he, hbrings, hname⟩
    obtain ⟨d', hd', hsame⟩ := List.mem_map.mp (((hd e he).names _).mpr hname)
    have hentity := hc.entity?_of_mem he
    exact ⟨e, he, eq_of_brings hc hentity hentity (hb e he d' hd') hbrings hsame ▸ hd'⟩
  · rintro ⟨e, he, hmem⟩
    exact ⟨e, he, hb e he d hmem, ((hd e he).names _).mp (List.mem_map_of_mem hmem)⟩

theorem mem_structsFor_iff {s : Struct} : s ∈ structsFor docs c decls ↔ ∃ d, IsModelType c d ∧ struct docs d = s := by
  rw [mem_structsFor]
  simp only [isModelType_iff hc hd hb]
  grind

/-- The structs contain one another as the declared types keep one another in place. -/
theorem contains_iff (hn : c.IsNamed) : Contains (structsFor docs c decls) a b ↔ Keeps c a b := by
  have hfield : ∀ d, IsModelType c d → d.name = b → ∀ d', IsModelType c d' → ∀ f ∈ d'.fields,
      ((fieldType a f).text = b ∨ (fieldType a f).text = "Option<" ++ b ++ ">" ↔ KeepsInPlace a f b) := by
    rintro d htype rfl d' ⟨g', hg', hbrings', -⟩ f hf
    have hinteger := (name_of_isModelType hc htype).1
    obtain ⟨g, hg, hbrings, -⟩ := htype
    have hwell := wellNamed_of_belongs hc hn hg hbrings.belongs
    have hwell' := wellNamed_of_belongs hc hn hg' hbrings'.belongs
    refine text_fieldType_iff hwell.name hinteger (hwell'.fields f hf) ?_
    intro shape hs henum
    obtain ⟨enum, hfound⟩ := exists_enum_of_belongs hc hg' hbrings'.belongs hf hs henum
    rw [hc.enum?_eq_none (hc.entity?_of_mem hg) (belongs_name hbrings.belongs)] at hfound
    cases hfound
  unfold Contains Keeps
  simp only [mem_structsFor_iff hc hd hb]
  constructor
  · rintro ⟨⟨_, ⟨d, htype, rfl⟩, hname⟩, _, ⟨d', htype', rfl⟩, rfl, field, hm, htext⟩
    obtain ⟨f, hf, rfl⟩ := List.mem_map.mp hm
    exact ⟨⟨d, htype, hname⟩, d', htype', rfl, f, hf, (hfield d htype hname d' htype' f hf).mp htext⟩
  · rintro ⟨⟨d, htype, hname⟩, d', htype', rfl, f, hf, hkeeps⟩
    exact ⟨⟨_, ⟨d, htype, rfl⟩, hname⟩, _, ⟨d', htype', rfl⟩, rfl, _, List.mem_map_of_mem hf,
      (hfield d htype hname d' htype' f hf).mpr hkeeps⟩

/-- The structs have finite size just where no declared type keeps itself in place through others. -/
theorem finiteSize_iff (hn : c.IsNamed) :
    FiniteSize (structsFor docs c decls) ↔ ∀ n, ¬ TransGen (Keeps c) n n := by
  have hsame : Contains (structsFor docs c decls) = Keeps c :=
    funext fun a => funext fun b => propext (contains_iff hc hd hb hn)
  unfold FiniteSize
  rw [hsame]

end

/-! ## Files -/

variable {o : Options} {r : Registry}

/-- The files of the entities, with the types that the entities bring. -/
theorem entityFiles_eq_ok (hc : c.IsSound) (hr : r.IsFresh .rust) :
    ∃ (decls : Entity → List TypeDecl) (r' : Registry), (∀ e ∈ c.entityList, Artifact e (decls e)) ∧
      (∀ e ∈ c.entityList, ∀ d ∈ decls e, Brings e d) ∧
      entityFiles o.docs c r = (.ok (c.entityList.map fun e => entityFile o.docs c e (decls e)), r') ∧
        Emit.collect (modelFile o c) c.entityList r = (.ok (c.entityList.map fun e =>
          (Naming.modelFile e.name "rs", (entityFile o.docs c e (decls e)).text)), r') := by
  obtain ⟨decls, r', hartifacts, hrun⟩ := exists_artifacts hc hr
  refine ⟨decls, r', hartifacts, brings_of_collected hc hartifacts (hrun Prod.mk), ?_, ?_⟩
  · exact hrun (entityFile o.docs c)
  · exact hrun fun e ds => (Naming.modelFile e.name "rs", (entityFile o.docs c e ds).text)

/-- When the host models have finite size: exactly if no declared type keeps itself in place through others. So
they have only if no two entities hold one another; and if so, as long as references name entities, and no entity
is called like the type of texts. -/
theorem finiteSize_structs {p : Corpus} (hp : p.IsParsed) (h : p.catalog = .ok c) (o : Options)
    (hr : r.IsFresh .rust) : ∃ files r', entityFiles o.docs c r = (.ok files, r') ∧
      (∀ printed r'', HostModel.generate o c r = (.ok printed, r'') →
        ∀ file ∈ files, printed.get? (Naming.modelFile file.entity "rs") = some file.text) ∧
      ((structsOf files).map Struct.name).Nodup ∧
      (FiniteSize (structsOf files) ↔ ∀ n, ¬ TransGen (Keeps c) n n) ∧
      (FiniteSize (structsOf files) → c.IsLayered) ∧
      (c.dangling = [] → c.entity? "String" = none → c.IsLayered → FiniteSize (structsOf files)) := by
  have hc := Corpus.isSound_of_catalog hp h
  obtain ⟨decls, r', hd, hb, hfiles, hmodels⟩ := entityFiles_eq_ok (o := o) hc hr
  have hiff : FiniteSize (structsFor o.docs c decls) ↔ ∀ n, ¬ TransGen (Keeps c) n n :=
    finiteSize_iff hc hd hb (Corpus.isNamed_of_catalog hp h)
  refine ⟨_, r', hfiles, fun printed r'' hgenerate file hfile => ?_, nodup_names_structsFor hc hd, hiff,
    fun hfinite => isLayered_of_keeps hc (hiff.mp hfinite), fun hdangling hstring hlayered =>
      hiff.mpr (not_transGen_keeps hc hdangling hstring hlayered)⟩
  obtain ⟨-, models, hran, hprinted⟩ := (generate_endsIf hc hr).2 printed r'' hgenerate
  rw [hmodels] at hran
  cases hran
  obtain ⟨e, he, rfl⟩ := List.mem_map.mp hfile
  exact hprinted _ _ (List.mem_map_of_mem he)

/-- The sources of two object types that list each other, one of which holds itself. -/
def linkedSources : List (Path × List String) :=
  [(⟨"Node.yml"⟩, ["name: Node", "kind: static",
      "attributes: [{name: parent, type: Node}, {name: links, type: array<Link>}]"]),
    (⟨"Link.yml"⟩, ["name: Link", "kind: static", "attributes: [{name: nodes, type: array<Node>}]"])]

/-- The documents that these sources are parsed to. -/
def linked : Corpus :=
  ⟨[⟨⟨"Node.yml"⟩, "Node", none, .object .static [⟨"parent", .reference "Node", false, none, none⟩,
      ⟨"links", .referenceArray "Link", false, none, none⟩]⟩,
    ⟨⟨"Link.yml"⟩, "Link", none, .object .static [⟨"nodes", .referenceArray "Node", false, none, none⟩]⟩], []⟩

theorem linked_isParsed : linked.IsParsed :=
  Corpus.isParsed_of_mapM (s := linkedSources) (by decide +kernel) (.inl rfl)

/-- The catalog of these documents. -/
def linkedCatalog : Catalog := linked.catalog.toOption.getD .empty

theorem catalog_linked : linked.catalog = .ok linkedCatalog := by decide +kernel

theorem finiteSize_structs_linked : linked.IsParsed ∧ linked.catalog = .ok linkedCatalog ∧
    Registry.IsFresh .rust .empty ∧ ∀ o : Options, ∃ files r',
      entityFiles o.docs linkedCatalog .empty = (.ok files, r') ∧ FiniteSize (structsOf files) := by
  refine ⟨linked_isParsed, catalog_linked, Registry.isFresh_empty _, fun o => ?_⟩
  obtain ⟨files, r', hfiles, -, -, -, -, hfinite⟩ :=
    finiteSize_structs linked_isParsed catalog_linked o (Registry.isFresh_empty _)
  refine ⟨files, r', hfiles, hfinite (by decide +kernel) (by decide +kernel) ?_⟩
  have hself : ∀ e ∈ linkedCatalog.entityList, ∀ f ∈ linkedCatalog.entityList, ∀ a ∈ e.attributes,
      a.shape = .reference f.name → f = e := by decide +kernel
  have hc := Corpus.isSound_of_catalog linked_isParsed catalog_linked
  intro e f hef hfe
  by_contra hne
  have he := Catalog.mem_of_reflTransGen hc hfe hne
  have hstay : ∀ g, ReflTransGen linkedCatalog.Holds e g → g = e := by
    intro g hpath
    induction hpath with
    | refl => rfl
    | tail _ hstep ih =>
      subst ih
      obtain ⟨a, ha, hshape⟩ := hstep.2
      exact hself _ he _ (hstep.mem hc) a ha hshape
  exact hne (hstay f hef).symm

/-- The sources of two object types that hold each other. -/
def nestedSources : List (Path × List String) :=
  [(⟨"A.yml"⟩, ["name: A", "kind: static", "attributes: [{name: b, type: B}]"]),
    (⟨"B.yml"⟩, ["name: B", "kind: static", "attributes: [{name: a, type: A}]"])]

/-- The documents that these sources are parsed to. -/
def nested : Corpus :=
  ⟨[⟨⟨"A.yml"⟩, "A", none, .object .static [⟨"b", .reference "B", false, none, none⟩]⟩,
    ⟨⟨"B.yml"⟩, "B", none, .object .static [⟨"a", .reference "A", false, none, none⟩]⟩], []⟩

theorem nested_isParsed : nested.IsParsed :=
  Corpus.isParsed_of_mapM (s := nestedSources) (by decide +kernel) (.inl rfl)

/-- The catalog of these documents. -/
def nestedCatalog : Catalog := nested.catalog.toOption.getD .empty

theorem catalog_nested : nested.catalog = .ok nestedCatalog := by decide +kernel

/-- An object type of these: its one attribute holds another type. -/
def holder (name key held : String) : Entity :=
  .object ⟨name, none, [⟨key, .reference held, false, none⟩], .static⟩

/-- The structs of two object types that hold each other contain each other by value, and have no finite
size. -/
theorem exists_contained_cycle : nested.IsParsed ∧ nested.catalog = .ok nestedCatalog ∧
    ∀ o : Options, ∃ files r', entityFiles o.docs nestedCatalog .empty = (.ok files, r') ∧
      Contains (structsOf files) "A" "B" ∧ Contains (structsOf files) "B" "A" ∧
        ¬ FiniteSize (structsOf files) := by
  refine ⟨nested_isParsed, catalog_nested, fun o => ?_⟩
  have hc := Corpus.isSound_of_catalog nested_isParsed catalog_nested
  obtain ⟨decls, r', hd, hb, hfiles, -⟩ := entityFiles_eq_ok (o := o) hc (Registry.isFresh_empty .rust)
  have hiff : ∀ {a b}, Contains (structsFor o.docs nestedCatalog decls) a b ↔ Keeps nestedCatalog a b :=
    contains_iff hc hd hb (Corpus.isNamed_of_catalog nested_isParsed catalog_nested)
  have hab : Contains (structsFor o.docs nestedCatalog decls) "A" "B" :=
    hiff.mpr (keeps_of_holds hc (e := holder "A" "b" "B") (f := holder "B" "a" "A") (by decide +kernel)
      ⟨by decide +kernel, _, List.mem_singleton.mpr rfl, rfl⟩ (by decide))
  have hba : Contains (structsFor o.docs nestedCatalog decls) "B" "A" :=
    hiff.mpr (keeps_of_holds hc (e := holder "B" "a" "A") (f := holder "A" "b" "B") (by decide +kernel)
      ⟨by decide +kernel, _, List.mem_singleton.mpr rfl, rfl⟩ (by decide))
  exact ⟨_, r', hfiles, hab, hba, fun h => h "A" (.tail (.single hab) hba)⟩

end HostModel

end SchemaGen
