import SchemaGen.Proofs.Naming.Modules
import SchemaGen.Proofs.Target.Rendering

/-!
# What does not render

The checks that a run can fail while it renders are those of variants, of modules and of reserved values.
The values of an enum have variants exactly when none of them lacks one and their variants differ; files
are modules of different names exactly when no two entities, and no two enums, share the snake case of
their names. So whatever does not render has one of five defects, and every fault of a run names the place
of such a defect.

Results:
1. `verdict_variantsFrom_iff`, `of_variantsFrom_eq_error`: the variants of values.
2. `verdict_moduleNames_iff`, `of_moduleNames_eq_error`: the modules of files.
3. `nodup_modules_iff`: when the files of the host models are modules of different names.
4. `checks_iff_not_refused`: the checks of a run, by the defects that they find.
5. `renderAll_eq_error_iff`: what does not render.
-/

namespace SchemaGen

variable {c : Catalog} {fault : RenderFault}

namespace HostModel

/-! ## Variants -/

variable {enum : String} {seen values : List String}

/-- The Pascal case of such a value is empty or starts with a digit. -/
theorem lacksVariant_iff {value : String} : lacksVariant value = true ↔
    Naming.toPascal value = "" ∨ ∃ d ∈ (Naming.toPascal value).toList.head?, d.isDigit = true := by
  unfold lacksVariant
  cases h : (Naming.toPascal value).toList with
  | nil => simp [String.toList_eq_nil_iff.mp h]
  | cons d rest =>
    have hne : Naming.toPascal value ≠ "" := by
      intro he
      rw [he] at h
      cases h
    simp [hne]

/-- Values have variants if each of them has one, and no two of them the same. -/
theorem verdict_variantsFrom_iff : verdict (variantsFrom enum seen values) = .ok () ↔
    (∀ v ∈ values, lacksVariant v = false) ∧ (values.map variantName).Nodup ∧
      ∀ v ∈ values, variantName v ∉ seen := by
  induction values generalizing seen with
  | nil => simp [variantsFrom, verdict, Except.map]
  | cons value rest ih =>
    unfold variantsFrom
    rw [List.map_cons, List.nodup_cons, List.forall_mem_cons, List.forall_mem_cons]
    split
    · next h => simp [h, verdict, Except.map]
    · next h =>
      split
      · next hs => simp [List.contains_iff_mem.mp hs, verdict, Except.map]
      · next hs =>
        rw [List.contains_iff_mem] at hs
        rw [verdict_map, ih]
        simp only [List.mem_cons, not_or, List.mem_map, not_exists, not_and]
        constructor
        · rintro ⟨hall, hnodup, hseen⟩
          exact ⟨⟨Bool.eq_false_iff.mpr h, hall⟩, ⟨fun v hv => (hseen v hv).1, hnodup⟩, hs,
            fun v hv => (hseen v hv).2⟩
        · rintro ⟨⟨-, hall⟩, ⟨hfirst, hnodup⟩, -, hseen⟩
          exact ⟨hall, hnodup, fun v hv => ⟨hfirst v hv, hseen v hv⟩⟩

/-- A value without a variant, or one with the variant of a value before it, is where a fault comes from. -/
theorem of_variantsFrom_eq_error (h : verdict (variantsFrom enum seen values) = .error fault) :
    (∃ v ∈ values, lacksVariant v = true ∧ fault = .noVariant enum v) ∨
      ∃ before v after, values = before ++ v :: after ∧
        (variantName v ∈ seen ∨ variantName v ∈ before.map variantName) ∧
          fault = .sharedVariant enum (variantName v) v := by
  induction values generalizing seen with
  | nil => cases h
  | cons value rest ih =>
    unfold variantsFrom at h
    split at h
    · next hlacks =>
      cases h
      exact .inl ⟨value, List.mem_cons_self, hlacks, rfl⟩
    · split at h
      · next hs =>
        cases h
        exact .inr ⟨[], value, rest, rfl, .inl (List.contains_iff_mem.mp hs), rfl⟩
      · rw [verdict_map] at h
        rcases ih h with ⟨v, hv, hlacks, rfl⟩ | ⟨before, v, after, rfl, hshared, rfl⟩
        · exact .inl ⟨v, List.mem_cons_of_mem _ hv, hlacks, rfl⟩
        · refine .inr ⟨value :: before, v, after, rfl, ?_, rfl⟩
          rw [List.map_cons, List.mem_cons]
          rw [List.mem_cons] at hshared
          exact or_assoc.mp (hshared.imp_left Or.symm)

/-! ## Modules -/

/-- The module of a file. -/
def moduleOf (file : String) : String := Naming.hostModule (fileStem file)

variable {files : List String}

theorem moduleNames_cons (seen : List (String × String)) (file : String) :
    moduleNames seen (file :: files) =
      match seen.lookup (moduleOf file) with
      | some other => .error (.sharedModule (fileStem file) (moduleOf file) other file)
      | none => (moduleNames ((moduleOf file, file) :: seen) files).map fun more =>
        (file, moduleOf file) :: more := rfl

theorem verdict_moduleNames_iff {seen : List (String × String)} :
    verdict (moduleNames seen files) = .ok () ↔
      (files.map moduleOf).Nodup ∧ ∀ file ∈ files, moduleOf file ∉ seen.map Prod.fst := by
  induction files generalizing seen with
  | nil => simp [moduleNames, verdict, Except.map]
  | cons file rest ih =>
    rw [moduleNames_cons, List.map_cons, List.nodup_cons, List.forall_mem_cons]
    cases hl : seen.lookup (moduleOf file) with
    | some other =>
      have hm : moduleOf file ∈ seen.map Prod.fst := by
        by_contra hm
        rw [(lookup_eq_none_iff_not_mem seen _).mpr hm] at hl
        cases hl
      simp [hm, verdict, Except.map]
    | none =>
      rw [lookup_eq_none_iff_not_mem] at hl
      rw [verdict_map, ih]
      simp only [List.map_cons, List.mem_cons, not_or, List.mem_map (f := moduleOf), not_exists, not_and]
      constructor
      · rintro ⟨hnodup, hseen⟩
        exact ⟨⟨fun f hf => (hseen f hf).1, hnodup⟩, hl, fun f hf => (hseen f hf).2⟩
      · rintro ⟨⟨hfirst, hnodup⟩, -, hseen⟩
        exact ⟨hnodup, fun f hf => ⟨hfirst f hf, hseen f hf⟩⟩

/-- A file whose module is that of a file before it is where a fault comes from. -/
theorem of_moduleNames_eq_error {seen : List (String × String)} (hseen : ∀ p ∈ seen, p.1 = moduleOf p.2)
    (h : verdict (moduleNames seen files) = .error fault) :
    ∃ before file after other, files = before ++ file :: after ∧ (other ∈ seen.map Prod.snd ∨ other ∈ before) ∧
      moduleOf other = moduleOf file ∧
        fault = .sharedModule (fileStem file) (moduleOf file) other file := by
  induction files generalizing seen with
  | nil => cases h
  | cons file rest ih =>
    rw [moduleNames_cons] at h
    cases hl : seen.lookup (moduleOf file) with
    | some other =>
      rw [hl] at h
      cases h
      obtain ⟨before, after, hsplit, -⟩ := List.lookup_eq_some_iff.mp hl
      have hm : (moduleOf file, other) ∈ seen := by
        rw [hsplit]
        exact List.mem_append_right _ List.mem_cons_self
      exact ⟨[], file, rest, other, rfl, .inl (List.mem_map_of_mem hm), (hseen _ hm).symm, rfl⟩
    | none =>
      rw [hl] at h
      have hnext : ∀ p ∈ (moduleOf file, file) :: seen, p.1 = moduleOf p.2 :=
        List.forall_mem_cons.mpr ⟨rfl, hseen⟩
      obtain ⟨before, file', after, other, rfl, hother, hmodule, rfl⟩ :=
        ih hnext ((verdict_map _ _).symm.trans h)
      refine ⟨file :: before, file', after, other, rfl, ?_, hmodule, rfl⟩
      rw [List.map_cons, List.mem_cons] at hother
      rw [List.mem_cons]
      exact or_assoc.mp (hother.imp_left Or.symm)

/-! ## Files -/

theorem fileStem_append (stem : String) {ext : String} (hext : ext.length = 3) :
    fileStem (stem ++ ext) = stem := by
  unfold fileStem
  have hlength : (stem ++ ext).length - 3 = stem.toList.length := by
    rw [String.length_append, String.length_toList, hext]
    exact Nat.add_sub_cancel _ 3
  rw [hlength, String.toList_append, List.take_left, String.ofList_toList]

theorem moduleOf_modelFile {name : String} (h : isTypeName name.toList = true) :
    moduleOf (Naming.modelFile name "rs") = Naming.toSnake name ++ "_" ++ "model" := by
  have hfile : Naming.modelFile name "rs" = name ++ "." ++ "model" ++ ".rs" := by
    unfold Naming.modelFile
    simp only [String.append_assoc]
    rfl
  unfold moduleOf
  rw [hfile, fileStem_append _ rfl]
  exact Naming.hostModule_append h (by decide)

theorem moduleOf_enumFile {name : String} (h : isTypeName name.toList = true) :
    moduleOf (Naming.enumFile name "rs") = Naming.toSnake name ++ "_" ++ "enum" := by
  have hfile : Naming.enumFile name "rs" = name ++ "." ++ "enum" ++ ".rs" := by
    unfold Naming.enumFile
    simp only [String.append_assoc]
    rfl
  unfold moduleOf
  rw [hfile, fileStem_append _ rfl]
  exact Naming.hostModule_append h (by decide)

/-- Two of the members share the snake case of their names. -/
def SharesSnake {α : Type} (name : α → String) (members : List α) : Prop :=
  ∃ a ∈ members, ∃ b ∈ members, a ≠ b ∧ Naming.toSnake (name a) = Naming.toSnake (name b)

/-- Files of one kind are modules of different names unless two of them share the snake case. -/
theorem nodup_map_iff_not_sharesSnake {α : Type} {name : α → String} {members : List α} {kind : String}
    (hu : members.Nodup) : (members.map fun a => Naming.toSnake (name a) ++ "_" ++ kind).Nodup ↔
      ¬ SharesSnake name members := by
  rw [List.nodup_map_iff_inj_on hu]
  unfold SharesSnake
  push Not
  refine forall₄_congr fun a _ b _ => ?_
  rw [String.append_left_inj, String.append_left_inj, ne_eq]
  exact not_imp_not.symm

theorem toSnake_model_ne_toSnake_enum (a b : String) :
    Naming.toSnake a ++ "_" ++ "model" ≠ Naming.toSnake b ++ "_" ++ "enum" := by
  intro he
  have hmodel := Naming.suffix_append (Naming.toSnake a ++ "_") "model"
  rw [he] at hmodel
  have henum := Naming.suffix_append (Naming.toSnake b ++ "_") "enum"
  exact absurd (List.suffix_of_suffix_length_le henum hmodel (by decide)) (by decide)

/-- Files of different kinds are never one module, so that the kinds can be looked at by themselves. -/
theorem nodup_modules_iff (hc : c.IsSound) : ((moduleFiles c).map moduleOf).Nodup ↔
    ¬ SharesSnake Entity.name c.entityList ∧ ¬ SharesSnake EnumType.name c.enumList := by
  let models := c.entityList.map fun e => Naming.modelFile e.name "rs"
  let enums := c.enumList.map fun e => Naming.enumFile e.name "rs"
  have hmodels : models.map moduleOf =
      c.entityList.map fun e => Naming.toSnake e.name ++ "_" ++ "model" := by
    rw [List.map_map]
    exact List.map_congr_left fun e he => moduleOf_modelFile (hc.isTypeName_entity he)
  have henums : enums.map moduleOf =
      c.enumList.map fun e => Naming.toSnake e.name ++ "_" ++ "enum" := by
    rw [List.map_map]
    exact List.map_congr_left fun e he => moduleOf_enumFile (hc.isTypeName_enum he)
  have hdisjoint : ∀ m ∈ models.map moduleOf, ∀ n ∈ enums.map moduleOf, m ≠ n := by
    rw [hmodels, henums]
    intro m hm n hn
    obtain ⟨e, -, rfl⟩ := List.mem_map.mp hm
    obtain ⟨f, -, rfl⟩ := List.mem_map.mp hn
    exact toSnake_model_ne_toSnake_enum _ _
  have hentities := nodup_names_entityList hc
  have hnames := nodup_names_enumList hc
  have hfiles : (models ++ enums).Nodup :=
    List.nodup_append.mpr ⟨Naming.nodup_files hentities _ _, Naming.nodup_files hnames _ _,
      fun m hm n hn he =>
        hdisjoint _ (List.mem_map_of_mem hm) _ (List.mem_map_of_mem hn) (congrArg moduleOf he)⟩
  have hperm := (sortedNames_perm hfiles).map moduleOf
  show ((sortedNames (models ++ enums)).map moduleOf).Nodup ↔ _
  rw [hperm.nodup_iff, List.map_append, List.nodup_append, hmodels, henums,
    nodup_map_iff_not_sharesSnake hentities.of_map,
    nodup_map_iff_not_sharesSnake hnames.of_map, ← hmodels, ← henums]
  exact ⟨fun h => ⟨h.1, h.2.1⟩, fun h => ⟨h.1, h.2, hdisjoint⟩⟩

end HostModel

/-! ## Reserved values -/

theorem ApiSchema.verdict_enum_iff {e : EnumType} :
    verdict (ApiSchema.enum e) = .ok () ↔ ∀ v ∈ e.values, v ∉ ApiSchema.reservedValues := by
  unfold ApiSchema.enum
  cases h : e.values.find? ApiSchema.reservedValues.contains with
  | none =>
    rw [List.find?_eq_none] at h
    simp only [List.contains_iff_mem] at h
    exact iff_of_true rfl h
  | some value =>
    have hreserved := List.find?_some h
    rw [List.contains_iff_mem] at hreserved
    refine iff_of_false (fun he => ?_) fun hall => ?_
    · cases he
    · exact absurd hreserved (hall value (List.mem_of_find?_eq_some h))

theorem ApiSchema.of_enum_eq_error {e : EnumType} (h : verdict (ApiSchema.enum e) = .error fault) :
    ∃ v ∈ e.values, v ∈ ApiSchema.reservedValues ∧ fault = .reservedValue e.name v := by
  unfold ApiSchema.enum at h
  split at h
  · next value hfind =>
    cases h
    exact ⟨value, List.mem_of_find?_eq_some hfind, List.contains_iff_mem.mp (List.find?_some hfind), rfl⟩
  · cases h

/-! ## Runs -/

/-- What keeps a catalog from being rendered. -/
inductive Catalog.Refused (c : Catalog) : Prop where
  | entities (h : HostModel.SharesSnake Entity.name c.entityList)
  | enums (h : HostModel.SharesSnake EnumType.name c.enumList)
  | noVariant (e : EnumType) (he : e ∈ c.enumList) (v : String) (hv : v ∈ e.values)
    (h : Naming.toPascal v = "" ∨ ∃ d ∈ (Naming.toPascal v).toList.head?, d.isDigit = true)
  | sharedVariant (e : EnumType) (he : e ∈ c.enumList) (h : ¬ (e.values.map HostModel.variantName).Nodup)
  | reservedValue (e : EnumType) (he : e ∈ c.enumList) (v : String) (hv : v ∈ e.values)
    (h : v ∈ ["true", "false", "null"])

/-- The fault names what keeps the catalog from being rendered. -/
def Catalog.Explains (c : Catalog) : RenderFault → Prop
  | .sharedModule stem module first second =>
    first ∈ HostModel.expectedFiles c ∧ second ∈ HostModel.expectedFiles c ∧ first ≠ second ∧
      HostModel.moduleOf first = module ∧ HostModel.moduleOf second = module ∧
        HostModel.fileStem second = stem
  | .noVariant enum value =>
    ∃ e ∈ c.enumList, e.name = enum ∧ value ∈ e.values ∧ HostModel.lacksVariant value = true
  | .sharedVariant enum variant value => ∃ e ∈ c.enumList, e.name = enum ∧ ∃ before after,
    e.values = before ++ value :: after ∧ HostModel.variantName value = variant ∧
      variant ∈ before.map HostModel.variantName
  | .reservedValue enum value =>
    ∃ e ∈ c.enumList, e.name = enum ∧ value ∈ e.values ∧ value ∈ ["true", "false", "null"]
  | _ => False

theorem HostModel.check_iff {docs : Bool} (hc : c.IsSound) : HostModel.check docs c = .ok () ↔
    (∀ e ∈ c.enumList, (∀ v ∈ e.values, lacksVariant v = false) ∧ (e.values.map variantName).Nodup) ∧
      ¬ SharesSnake Entity.name c.entityList ∧ ¬ SharesSnake EnumType.name c.enumList := by
  have henum : ∀ e, verdict (HostModel.enum docs e) = .ok () ↔
      (∀ v ∈ e.values, lacksVariant v = false) ∧ (e.values.map variantName).Nodup := by
    intro e
    unfold HostModel.enum
    rw [verdict_map, verdict_variantsFrom_iff]
    simp
  have hmodules : verdict (moduleNames [] (moduleFiles c)) = .ok () ↔
      ¬ SharesSnake Entity.name c.entityList ∧ ¬ SharesSnake EnumType.name c.enumList := by
    rw [verdict_moduleNames_iff, nodup_modules_iff hc]
    simp
  unfold HostModel.check
  rw [bind_eq_ok]
  constructor
  · rintro ⟨u, henums, hfiles⟩
    exact ⟨fun e he => (henum e).mp (forM_eq_ok.mp henums e he), hmodules.mp hfiles⟩
  · rintro ⟨henums, hfiles⟩
    exact ⟨(), forM_eq_ok.mpr fun e he => (henum e).mpr (henums e he), hmodules.mpr hfiles⟩

/-- A catalog passes the checks unless it is refused. -/
theorem Catalog.checks_iff_not_refused (docs : Bool) (hc : c.IsSound) :
    HostModel.check docs c = .ok () ∧ ApiSchema.check c = .ok () ↔ ¬ c.Refused := by
  rw [HostModel.check_iff hc]
  unfold ApiSchema.check
  rw [forM_eq_ok]
  simp only [ApiSchema.verdict_enum_iff]
  constructor
  · rintro ⟨⟨hvariants, hentities, henums⟩, hvalues⟩ hrefused
    cases hrefused with
    | entities h => exact hentities h
    | enums h => exact henums h
    | noVariant e he v hv h =>
      rw [← HostModel.lacksVariant_iff, (hvariants e he).1 v hv] at h
      cases h
    | sharedVariant e he h => exact h (hvariants e he).2
    | reservedValue e he v hv h => exact hvalues e he v hv h
  · intro h
    refine ⟨⟨fun e he => ⟨fun v hv => ?_, ?_⟩, fun hs => h (.entities hs), fun hs => h (.enums hs)⟩,
      fun e he v hv hs => h (.reservedValue e he v hv hs)⟩
    · rw [Bool.eq_false_iff]
      exact fun hlacks => h (.noVariant e he v hv (HostModel.lacksVariant_iff.mp hlacks))
    · by_contra hs
      exact h (.sharedVariant e he hs)

theorem HostModel.explains_of_check {docs : Bool} (h : HostModel.check docs c = .error fault) :
    c.Explains fault := by
  unfold HostModel.check at h
  rcases bind_eq_error.mp h with h | ⟨u, -, h⟩
  · obtain ⟨e, he, h⟩ := exists_of_forM_eq_error h
    unfold HostModel.enum at h
    rw [verdict_map] at h
    rcases of_variantsFrom_eq_error h with ⟨v, hv, hlacks, rfl⟩ | ⟨before, v, after, hvalues, hshared, rfl⟩
    · exact ⟨e, he, rfl, hv, hlacks⟩
    · refine ⟨e, he, rfl, before, after, hvalues, rfl, ?_⟩
      exact hshared.resolve_left List.not_mem_nil
  · have hseen : ∀ p ∈ ([] : List (String × String)), p.1 = moduleOf p.2 := fun p hp => by cases hp
    obtain ⟨before, file, after, other, hfiles, hother, hmodule, rfl⟩ := of_moduleNames_eq_error hseen h
    have hother := hother.resolve_left List.not_mem_nil
    have hexpected : ∀ f ∈ moduleFiles c, f ∈ HostModel.expectedFiles c := fun f hf =>
      List.mem_append_left _ ((mem_sortedNames _ f).mp hf)
    have hnodup : (moduleFiles c).Nodup := nodup_sortedNames _
    rw [hfiles] at hexpected hnodup
    refine ⟨hexpected _ (List.mem_append_left _ hother),
      hexpected _ (List.mem_append_right _ List.mem_cons_self), ?_, hmodule, rfl, rfl⟩
    exact (List.nodup_append.mp hnodup).2.2 _ hother _ List.mem_cons_self

theorem ApiSchema.explains_of_check (h : ApiSchema.check c = .error fault) : c.Explains fault := by
  obtain ⟨e, he, h⟩ := exists_of_forM_eq_error h
  obtain ⟨v, hv, hreserved, rfl⟩ := ApiSchema.of_enum_eq_error h
  exact ⟨e, he, rfl, hv, hreserved⟩

/-- What does not render has one of the five defects, and the fault names the place of one. In particular
no fault is about a fragment, a key, a resolver, or the files as a whole. -/
theorem renderAll_eq_error_iff {corpus : Corpus} (hp : corpus.IsParsed) (h : corpus.catalog = .ok c)
    (s : Settings) (o : Options) :
    ((∃ fault, Run.renderAll s o c Target.all .empty = .error fault) ↔ c.Refused) ∧
      ∀ fault, Run.renderAll s o c Target.all .empty = .error fault → c.Explains fault := by
  have hc := Corpus.isSound_of_catalog hp h
  constructor
  · rw [← not_iff_not, ← Catalog.checks_iff_not_refused o.docs hc,
      ← Run.exists_renderAll_iff (s := s) hc]
    cases Run.renderAll s o c Target.all .empty <;> simp
  · intro fault hrun
    have hfresh : ∀ t ∈ Target.all, Registry.IsFresh t .empty := fun t _ => Registry.isFresh_empty t
    rw [← verdict_eq_error, Run.verdict_renderAll hc (by decide) hfresh] at hrun
    obtain ⟨t, -, hcheck⟩ := exists_of_forM_eq_error hrun
    cases t with
    | rust => exact HostModel.explains_of_check hcheck
    | graphql => exact ApiSchema.explains_of_check hcheck
    | typescript => cases hcheck
    | infra => cases hcheck

/-- The sources of two object types whose names are told apart by case alone. -/
def casedSources : List (Path × List String) :=
  [(⟨"XMLDoc.yml"⟩, ["name: XMLDoc", "kind: static", "attributes: [{name: text, type: string}]"]),
    (⟨"XmlDoc.yml"⟩, ["name: XmlDoc", "kind: static", "attributes: [{name: text, type: string}]"])]

/-- The documents that these sources are parsed to. -/
def cased : Corpus :=
  let document (name : String) : SchemaDoc :=
    ⟨⟨name ++ ".yml"⟩, name, none, .object .static [⟨"text", .scalar .string, false, none, none⟩]⟩
  ⟨[document "XMLDoc", document "XmlDoc"], []⟩

theorem cased_isParsed : cased.IsParsed :=
  Corpus.isParsed_of_mapM (s := casedSources) (by decide +kernel) (.inl rfl)

/-- The catalog of these documents. -/
def casedCatalog : Catalog := cased.catalog.toOption.getD .empty

theorem catalog_cased : cased.catalog = .ok casedCatalog := by decide +kernel

theorem renderAll_eq_error_cased : cased.IsParsed ∧ cased.catalog = .ok casedCatalog ∧
    ∀ s o, ∃ fault, Run.renderAll s o casedCatalog Target.all .empty = .error fault ∧
      casedCatalog.Refused ∧ casedCatalog.Explains fault := by
  refine ⟨cased_isParsed, catalog_cased, fun s o => ?_⟩
  obtain ⟨hfails, hexplains⟩ := renderAll_eq_error_iff cased_isParsed catalog_cased s o
  let entity (name : String) : Entity :=
    .object ⟨name, none, [⟨"text", .scalar .string, false, none⟩], .static⟩
  have hrefused : casedCatalog.Refused := by
    refine .entities ⟨entity "XMLDoc", by decide +kernel, entity "XmlDoc", by decide +kernel, ?_, ?_⟩
    · decide
    · decide +kernel
  obtain ⟨fault, hfault⟩ := hfails.mpr hrefused
  exact ⟨fault, hfault, hrefused, hexplains fault hfault⟩

end SchemaGen
