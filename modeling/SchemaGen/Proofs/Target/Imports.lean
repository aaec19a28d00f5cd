import SchemaGen.Proofs.Target.ModelFiles

/-!
# Imports of the models

A field may name an enum or an entity, by itself or as the element of a list. The module of an entity
imports the enums that its fields name by themselves, and the entities that they name in either way unless
it declares them. Whatever is imported comes from the one module that exports it. An enum that is the element
of a list is not imported on that account, though it is written there like any other name; so the module has
it only if some other field names it by itself.

Results:
1. `Field.import?_eq_some_iff`: the import that a field calls for.
2. `exists_module_of_mem_imports`, `leadsTo_of_mem_imports`: an import leads to the module that exports the
   name.
3. `supplied_iff`, `imports_supply`: when the module has the name that a field calls for.
-/

namespace SchemaGen

open Emission

variable {c : Catalog} {o : Options} {t : Target} {r r' : Registry} {files : Files}
  {decls : Entity → List TypeDecl} {e : Entity} {d : TypeDecl} {f : Field} {i : Import} {n : String}

/-! ## What is imported -/

/-- The imported name. -/
def Import.name : Import → String
  | .enum name => name
  | .model name => name

/-- What the name of the file that the import is meant for starts with. -/
def Import.stem : Import → String
  | .enum name => name ++ ".enum"
  | .model name => name ++ ".model"

/-- The file that the import is meant for. -/
def Import.file (ext : String) : Import → String
  | .enum name => Naming.enumFile name ext
  | .model name => Naming.modelFile name ext

theorem Import.file_eq (i : Import) (ext : String) : i.file ext = i.stem ++ ("." ++ ext) := by
  cases i with
  | enum name =>
    unfold file stem Naming.enumFile
    rw [show ".enum." = ".enum" ++ "." from rfl]
    simp only [String.append_assoc]
  | model name =>
    unfold file stem Naming.modelFile
    rw [show ".model." = ".model" ++ "." from rfl]
    simp only [String.append_assoc]

/-- The field names the enum by itself. -/
def Field.NamesEnum (f : Field) (n : String) : Prop :=
  ∃ shape, f.type = .shape shape ∧ shape.enumName? = some n

/-- The field names the type, be it as the element of a list. -/
def Field.Names (f : Field) (n : String) : Prop :=
  ∃ shape, f.type = .shape shape ∧ (shape.enumName? = some n ∨ shape.referenced? = some n)

theorem Field.import?_eq_some_iff {declared : List String} : f.import? c declared = some i ↔
    ∃ shape, f.type = .shape shape ∧
      ((∃ n, shape.enumName? = some n ∧ .enum n = i) ∨
        ∃ n, shape.referenced? = some n ∧ n ∉ declared ∧ (c.entity? n).isSome = true ∧ .model n = i) := by
  have hmodel : ∀ n, (if !declared.contains n && (c.entity? n).isSome then some (Import.model n) else none) =
      some i ↔ n ∉ declared ∧ (c.entity? n).isSome = true ∧ .model n = i := by
    intro n
    rw [Option.ite_none_right_eq_some, Bool.and_eq_true, Bool.not_eq_true', ← Bool.not_eq_true,
      List.contains_iff_mem, Option.some.injEq, and_assoc]
  unfold Field.import?
  cases f.type with
  | integer => simp
  | shape shape =>
    simp only [FieldType.shape.injEq, exists_eq_left']
    cases shape with
    | enum name values => simp [Shape.enumName?, Shape.referenced?]
    | reference name => exact (hmodel name).trans (by simp [Shape.enumName?, Shape.referenced?])
    | referenceArray name => exact (hmodel name).trans (by simp [Shape.enumName?, Shape.referenced?])
    | _ => simp [Shape.enumName?, Shape.referenced?]

theorem mem_imports_iff {ds : List TypeDecl} : i ∈ imports c ds ↔
    ∃ d ∈ ds, ∃ f ∈ d.fields, f.import? c (ds.map TypeDecl.name) = some i := by
  unfold imports
  simp only [List.mem_filterMap, List.mem_flatMap]
  constructor
  · rintro ⟨f, ⟨d, hd, hf⟩, hi⟩
    exact ⟨d, hd, f, hf, hi⟩
  · rintro ⟨d, hd, f, hf, hi⟩
    exact ⟨f, ⟨d, hd, hf⟩, hi⟩

/-- What is imported is an enum that a field names by itself, or an entity that the module does not
declare. -/
theorem of_mem_imports {ds : List TypeDecl} (h : i ∈ imports c ds) :
    (∃ d ∈ ds, ∃ f ∈ d.fields, f.NamesEnum i.name ∧ i = .enum i.name) ∨
      ((c.entity? i.name).isSome = true ∧ i = .model i.name) := by
  obtain ⟨d, hd, f, hf, hi⟩ := mem_imports_iff.mp h
  obtain ⟨shape, hs, ⟨n, hn, rfl⟩ | ⟨n, -, -, hentity, rfl⟩⟩ := Field.import?_eq_some_iff.mp hi
  · exact .inl ⟨d, hd, f, hf, ⟨shape, hs, hn⟩, rfl⟩
  · exact .inr ⟨hentity, rfl⟩

/-! ## Where imports lead -/

/-- The line of the import is about that file: it names the module under which the last file declares this
file alone, or the file itself without its extension. -/
def LeadsTo (c : Catalog) (t : Target) (i : Import) (file : String) : Prop :=
  match t with
  | .rust => ∃ module, (∀ other, (other, module) ∈ HostModel.declaredModules c ↔ other = file) ∧
    HostModel.importLine i = "use super::" ++ module ++ "::" ++ i.name ++ ";"
  | .typescript => ∃ stem, file = stem ++ ".ts" ∧
    ClientModel.importLine i = "import type \x7b " ++ i.name ++ " \x7d from './" ++ stem ++ "';"
  | _ => False

/-- The module of the entity has the name: it declares it, or imports it from the module that exports it. -/
def Supplied (c : Catalog) (t : Target) (decls : Entity → List TypeDecl) (e : Entity) (n : String) : Prop :=
  n ∈ (decls e).map TypeDecl.name ∨ ∃ i ∈ imports c (decls e), i.name = n ∧
    ∃ m ∈ t.modelModules c decls, LeadsTo c t i (m.file t.extension) ∧ n ∈ m.exports

theorem HostModel.importLine_eq (i : Import) : importLine i =
    "use super::" ++ moduleOf (i.file "rs") ++ "::" ++ i.name ++ ";" := by
  unfold moduleOf
  rw [i.file_eq, show "." ++ "rs" = ".rs" from rfl, fileStem_append _ rfl]
  cases i <;> rfl

theorem ClientModel.importLine_eq (i : Import) : importLine i =
    "import type \x7b " ++ i.name ++ " \x7d from './" ++ i.stem ++ "';" := by
  cases i with
  | enum name =>
    unfold importLine Import.name Import.stem
    rw [show ".enum';" = ".enum" ++ "';" from rfl]
    simp only [String.append_assoc]
  | model name =>
    unfold importLine Import.name Import.stem
    rw [show ".model';" = ".model" ++ "';" from rfl]
    simp only [String.append_assoc]

/-- The files of the host models that render are modules of different names. -/
theorem HostModel.nodup_modules_of_render (hc : c.IsSound) (hr : r.IsFresh .rust)
    (h : Target.render o c .rust r = (.ok files, r')) : ((moduleFiles c).map moduleOf).Nodup := by
  have hcheck := Target.verdict_render (o := o) hc .rust hr
  rw [h] at hcheck
  obtain ⟨_, -, hmodules⟩ := bind_eq_ok.mp (show HostModel.check o.docs c = .ok () from hcheck.symm)
  exact (verdict_moduleNames_iff.mp hmodules).1

/-- An import leads to the file that it is meant for, if that is a file of the models. -/
theorem HostModel.leadsTo_file (hmodules : ((moduleFiles c).map moduleOf).Nodup)
    (hfile : i.file "rs" ∈ moduleFiles c) : LeadsTo c .rust i (i.file "rs") := by
  refine ⟨moduleOf (i.file "rs"), fun other => ?_, importLine_eq i⟩
  unfold declaredModules
  rw [List.mem_map]
  constructor
  · rintro ⟨file, hother, heq⟩
    obtain ⟨rfl, hmodule⟩ := Prod.mk.inj heq
    exact List.inj_on_of_nodup_map hmodules hother hfile hmodule
  · rintro rfl
    exact ⟨_, hfile, rfl⟩

theorem ClientModel.leadsTo_file (c : Catalog) (i : Import) : LeadsTo c .typescript i (i.file "ts") :=
  ⟨i.stem, i.file_eq "ts", importLine_eq i⟩

/-- An import leads to the file that it is meant for, if that is a file of the models. -/
theorem leadsTo_file (hc : c.IsSound) (ht : t ∈ Target.models) (hr : r.IsFresh t)
    (h : t.render o c r = (.ok files, r')) (hfile : i.file "rs" ∈ HostModel.moduleFiles c) :
    LeadsTo c t i (i.file t.extension) := by
  simp only [Target.models, List.mem_cons, List.not_mem_nil, or_false] at ht
  rcases ht with rfl | rfl
  · exact HostModel.leadsTo_file (HostModel.nodup_modules_of_render hc hr h) hfile
  · exact ClientModel.leadsTo_file c i

/-! ## Names that are there -/

theorem mem_imports_of_namesEnum {ds : List TypeDecl} (hd : d ∈ ds) (hf : f ∈ d.fields)
    (hn : f.NamesEnum n) : .enum n ∈ imports c ds := by
  obtain ⟨shape, hs, henum⟩ := hn
  exact mem_imports_iff.mpr ⟨d, hd, f, hf, Field.import?_eq_some_iff.mpr ⟨shape, hs, .inl ⟨n, henum, rfl⟩⟩⟩

/-- An item is no enum: a reference to an enum is made one of its values. -/
theorem enum?_eq_none_of_reference (hc : c.IsSound) (he : e ∈ c.entityList) (hd : Belongs e d)
    (hf : f ∈ d.fields) (hs : f.type = .shape (.reference n)) : c.enum? n = none := by
  rcases shape_of_belongs hd hf hs with ⟨a, ha, hshape⟩ | hshape | hshape | hshape
  · exact hc.resolved _ e (hc.entity?_of_mem he) a ha n hshape
  · cases hshape
  · cases hshape
    exact hc.apart _ e (hc.entity?_of_mem he)
  · cases hshape

/-- There is a module of the file that an import is meant for, and it exports the name. -/
theorem exists_module_of_mem_imports (hc : c.IsSound) (hd : ∀ e ∈ c.entityList, Artifact e (decls e))
    (he : e ∈ c.entityList) (hi : i ∈ imports c (decls e)) : ∃ m ∈ t.modelModules c decls,
      (∀ ext, m.file ext = i.file ext) ∧ i.name ∈ m.exports ∧ i.file "rs" ∈ HostModel.moduleFiles c := by
  rcases of_mem_imports hi with ⟨d, hdm, f, hf, ⟨shape, hs, hn⟩, himport⟩ | ⟨hentity, himport⟩
  · obtain ⟨enum, henum⟩ := exists_enum_of_belongs hc he ((hd e he).belongs d hdm) hf hs hn
    have hname := hc.enum_name _ enum henum
    have hmem : enum ∈ c.enumList := hc.enums.mem_values_iff.mpr ⟨_, henum⟩
    have hfile : ∀ ext, i.file ext = Naming.enumFile enum.name ext := by
      rw [himport, hname]
      exact fun _ => rfl
    refine ⟨.enum enum, List.mem_append_right _ (List.mem_map_of_mem hmem), fun ext => (hfile ext).symm,
      List.mem_singleton.mpr hname.symm, ?_⟩
    rw [hfile, HostModel.moduleFiles, mem_sortedNames]
    exact List.mem_append_right _ (List.mem_map_of_mem hmem)
  · obtain ⟨g, hg⟩ := Option.isSome_iff_exists.mp hentity
    have hname := hc.entity_name _ g hg
    have hmem : g ∈ c.entityList := hc.entities.mem_values_iff.mpr ⟨_, hg⟩
    have hfile : ∀ ext, i.file ext = Naming.modelFile g.name ext := by
      rw [himport, hname]
      exact fun _ => rfl
    refine ⟨.types g (decls g), List.mem_append_left _ (List.mem_append_left _ (List.mem_map_of_mem hmem)),
      fun ext => (hfile ext).symm, hname ▸ List.mem_map_of_mem (hd g hmem).own, ?_⟩
    rw [hfile, HostModel.moduleFiles, mem_sortedNames]
    exact List.mem_append_left _ (List.mem_map_of_mem hmem)

section

variable (hc : c.IsSound) (hd : ∀ e ∈ c.entityList, Artifact e (decls e))
  (hlead : ∀ i : Import, i.file "rs" ∈ HostModel.moduleFiles c → LeadsTo c t i (i.file t.extension))
  (he : e ∈ c.entityList)

include hc hd hlead he

theorem leadsTo_of_mem_imports (hi : i ∈ imports c (decls e)) :
    ∃ m ∈ t.modelModules c decls, LeadsTo c t i (m.file t.extension) ∧ i.name ∈ m.exports := by
  obtain ⟨m, hm, hfile, hexported, hmodule⟩ := exists_module_of_mem_imports hc hd he hi
  exact ⟨m, hm, hfile t.extension ▸ hlead i hmodule, hexported⟩

/-- The module has the name of an entity or of an enum that a field names, unless it is an enum that no
field of the module names otherwise than as the element of a list. -/
theorem supplied_iff (hdm : d ∈ decls e) (hf : f ∈ d.fields) (hn : f.Names n)
    (hknown : (c.entity? n).isSome = true ∨ (c.enum? n).isSome = true) : Supplied c t decls e n ↔
      (f.type = .shape (.referenceArray n) → (c.enum? n).isSome = true →
        ∃ d ∈ decls e, ∃ f ∈ d.fields, f.NamesEnum n) := by
  constructor
  · rintro (hdeclared | ⟨i, hi, rfl, -⟩) - henum
    · have hown := of_mem_modelNames (((hd e he).names n).mp hdeclared)
      rw [hc.enum?_eq_none (hc.entity?_of_mem he) hown] at henum
      cases henum
    · rcases of_mem_imports hi with ⟨d, hdm, f, hf, hnames, -⟩ | ⟨hentity, -⟩
      · exact ⟨d, hdm, f, hf, hnames⟩
      · obtain ⟨g, hg⟩ := Option.isSome_iff_exists.mp hentity
        rw [hc.apart _ g hg] at henum
        cases henum
  · intro hlist
    suffices hthere : n ∈ (decls e).map TypeDecl.name ∨ ∃ i ∈ imports c (decls e), i.name = n by
      refine hthere.imp_right fun ⟨i, hi, hname⟩ => ⟨i, hi, hname, ?_⟩
      exact hname ▸ leadsTo_of_mem_imports hc hd hlead he hi
    obtain ⟨shape, hs, henum | href⟩ := hn
    · exact .inr ⟨_, mem_imports_of_namesEnum hdm hf ⟨shape, hs, henum⟩, rfl⟩
    by_cases hentity : (c.entity? n).isSome = true
    · by_cases hdeclared : n ∈ (decls e).map TypeDecl.name
      · exact .inl hdeclared
      · refine .inr ⟨.model n, mem_imports_iff.mpr ⟨d, hdm, f, hf, ?_⟩, rfl⟩
        exact Field.import?_eq_some_iff.mpr ⟨shape, hs, .inr ⟨n, href, hdeclared, hentity, rfl⟩⟩
    · have henum := hknown.resolve_left hentity
      have harray : f.type = .shape (.referenceArray n) := by
        cases shape with
        | referenceArray name => rw [hs, Option.some.inj href]
        | reference name =>
          cases href
          rw [enum?_eq_none_of_reference hc he ((hd e he).belongs d hdm) hf hs] at henum
          cases henum
        | _ => cases href
      obtain ⟨d', hdm', f', hf', hnames⟩ := hlist harray henum
      exact .inr ⟨_, mem_imports_of_namesEnum hdm' hf' hnames, rfl⟩

end

/-- What the modules of the models import. Each import leads to the module that exports the name, and a
module has every entity and every enum that one of its fields names, except for an enum that is the element
of a list and that no field of the module names by itself. -/
structure Supplies (c : Catalog) (t : Target) (decls : Entity → List TypeDecl) : Prop where
  imports : ∀ e ∈ c.entityList, ∀ i ∈ imports c (decls e),
    ∃ m ∈ t.modelModules c decls, LeadsTo c t i (m.file t.extension) ∧ i.name ∈ m.exports
  fields : ∀ e ∈ c.entityList, ∀ d ∈ decls e, ∀ f ∈ d.fields, ∀ n, f.Names n →
    ((c.entity? n).isSome = true ∨ (c.enum? n).isSome = true) →
      (Supplied c t decls e n ↔ (f.type = .shape (.referenceArray n) → (c.enum? n).isSome = true →
        ∃ d ∈ decls e, ∃ f ∈ d.fields, f.NamesEnum n))

/-- What the modules import that a target renders for a catalog made from parsed documents. -/
theorem imports_supply {corpus : Corpus} (hp : corpus.IsParsed) (h : corpus.catalog = .ok c)
    (ht : t ∈ Target.models) (hr : r.IsFresh t) (hrender : t.render o c r = (.ok files, r')) :
    ∃ decls, Printed o c t decls files ∧ Supplies c t decls := by
  have hc := Corpus.isSound_of_catalog hp h
  obtain ⟨decls, hprinted⟩ := printed_of_render hc ht hr hrender
  have hlead : ∀ i : Import, i.file "rs" ∈ HostModel.moduleFiles c → LeadsTo c t i (i.file t.extension) :=
    fun i => leadsTo_file hc ht hr hrender
  refine ⟨decls, hprinted, fun e he i => leadsTo_of_mem_imports hc hprinted.artifacts hlead he, ?_⟩
  exact fun e he d hd f hf n => supplied_iff hc hprinted.artifacts hlead he hd hf

/-- The sources of an object type that names an enum and another type, also as elements of lists. -/
def garageSources : List (Path × List String) :=
  [(⟨"Car.yml"⟩, ["name: Car", "kind: static", "attributes: [{name: plate, type: string}]"]),
    (⟨"Garage.yml"⟩, ["name: Garage", "kind: static",
      "attributes: [{name: door, type: Color}, {name: doors, type: array<Color>},",
      "  {name: cars, type: array<Car>}]"])]

/-- The source of the enum. -/
def garageEnums : List String := ["Color: [RED, BLUE]"]

/-- The documents that these sources are parsed to. -/
def garage : Corpus :=
  let object (name : String) (attributes : List (String × Shape)) : SchemaDoc :=
    ⟨⟨name ++ ".yml"⟩, name, none,
      .object .static (attributes.map fun a => ⟨a.1, a.2, false, none, none⟩)⟩
  ⟨[object "Car" [("plate", .scalar .string)],
    object "Garage" [("door", .reference "Color"), ("doors", .referenceArray "Color"),
      ("cars", .referenceArray "Car")]],
    [⟨⟨"enums.yml"⟩, "Color", ["RED", "BLUE"]⟩]⟩

theorem garage_isParsed : garage.IsParsed := by
  have henums : EnumDoc.parseAll ⟨"enums.yml"⟩ (Text.unlines garageEnums) = .ok garage.enums := by
    decide +kernel
  exact Corpus.isParsed_of_mapM (s := garageSources) (by decide +kernel) (.inr ⟨_, _, henums⟩)

/-- The catalog of these documents. -/
def garageCatalog : Catalog := garage.catalog.toOption.getD .empty

theorem catalog_garage : garage.catalog = .ok garageCatalog := by decide +kernel

theorem imports_supply_garage : garage.IsParsed ∧ garage.catalog = .ok garageCatalog ∧
    ∀ t ∈ Target.models, Registry.IsFresh t .empty ∧ ∀ o : Options, ∃ files r',
      t.render o garageCatalog .empty = (.ok files, r') ∧
        ∃ decls, Printed o garageCatalog t decls files ∧ Supplies garageCatalog t decls := by
  refine ⟨garage_isParsed, catalog_garage, fun t ht => ⟨Registry.isFresh_empty t, fun o => ?_⟩⟩
  have hcheck : ∀ docs, ∀ t ∈ Target.models, t.check docs garageCatalog = .ok () := by decide +kernel
  obtain ⟨files, r', hrender⟩ := Target.exists_render_of_check
    (Corpus.isSound_of_catalog garage_isParsed catalog_garage) (Registry.isFresh_empty t) (hcheck o.docs t ht)
  exact ⟨files, r', hrender,
    imports_supply garage_isParsed catalog_garage ht (Registry.isFresh_empty t) hrender⟩

/-- The source of an object type that names an enum as the element of a list alone. -/
def paletteSources : List (Path × List String) :=
  [(⟨"Palette.yml"⟩, ["name: Palette", "kind: static", "attributes: [{name: colors, type: array<Color>}]"])]

/-- The documents that this source and that of the enum are parsed to. -/
def palette : Corpus :=
  ⟨[⟨⟨"Palette.yml"⟩, "Palette", none,
      .object .static [⟨"colors", .referenceArray "Color", false, none, none⟩]⟩],
    [⟨⟨"enums.yml"⟩, "Color", ["RED", "BLUE"]⟩]⟩

theorem palette_isParsed : palette.IsParsed := by
  have henums : EnumDoc.parseAll ⟨"enums.yml"⟩ (Text.unlines garageEnums) = .ok palette.enums := by
    decide +kernel
  exact Corpus.isParsed_of_mapM (s := paletteSources) (by decide +kernel) (.inr ⟨_, _, henums⟩)

/-- The catalog of these documents. -/
def paletteCatalog : Catalog := palette.catalog.toOption.getD .empty

theorem catalog_palette : palette.catalog = .ok paletteCatalog := by decide +kernel

/-- In both models the list is written with the name of the enum, which its module neither declares nor
imports. -/
theorem exists_name_not_imported : palette.IsParsed ∧ palette.catalog = .ok paletteCatalog ∧
    ∀ t ∈ Target.models, ∀ o : Options, ∃ files r', t.render o paletteCatalog .empty = (.ok files, r') ∧
      ∃ decls, Printed o paletteCatalog t decls files ∧
        ∃ e ∈ paletteCatalog.entityList, ∃ d ∈ decls e, ∃ f ∈ d.fields,
          f.Names "Color" ∧ (paletteCatalog.enum? "Color").isSome = true ∧
            (HostModel.fieldType d.name f).text = "Option<Vec<Color>>" ∧
              ClientModel.fieldType f.type = "Color[]" ∧ ¬ Supplied paletteCatalog t decls e "Color" := by
  refine ⟨palette_isParsed, catalog_palette, fun t ht o => ?_⟩
  have hc := Corpus.isSound_of_catalog palette_isParsed catalog_palette
  have hfresh := Registry.isFresh_empty t
  have hcheck : ∀ docs, ∀ t ∈ Target.models, t.check docs paletteCatalog = .ok () := by decide +kernel
  obtain ⟨files, r', hrender⟩ := Target.exists_render_of_check hc hfresh (hcheck o.docs t ht)
  obtain ⟨decls, hprinted⟩ := printed_of_render hc ht hfresh hrender
  let e : Entity := .object ⟨"Palette", none, [⟨"colors", .referenceArray "Color", false, none⟩], .static⟩
  let f : Field := ⟨"colors", .shape (.referenceArray "Color"), false, none⟩
  have he : e ∈ paletteCatalog.entityList := by decide +kernel
  have henum : (paletteCatalog.enum? "Color").isSome = true := by decide +kernel
  have hown : entityDecl e ∈ decls e := (hprinted.artifacts e he).own
  have hf : f ∈ (entityDecl e).fields := List.mem_singleton.mpr rfl
  have hnames : f.Names "Color" := ⟨_, rfl, .inr rfl⟩
  refine ⟨files, r', hrender, decls, hprinted, e, he, entityDecl e, hown, f, hf, hnames, henum, rfl,
    by decide, fun hsupplied => ?_⟩
  -- no field names the enum by itself
  have hlead : ∀ i : Import, i.file "rs" ∈ HostModel.moduleFiles paletteCatalog →
      LeadsTo paletteCatalog t i (i.file t.extension) := fun i => leadsTo_file hc ht hfresh hrender
  obtain ⟨d', hd', f', hf', shape, hs, hn⟩ :=
    (supplied_iff hc hprinted.artifacts hlead he hown hf hnames (.inr henum)).mp hsupplied rfl henum
  have hbelongs := (hprinted.artifacts e he).belongs d' hd'
  rcases shape_of_belongs hbelongs hf' hs with ⟨a, ha, rfl⟩ | rfl | rfl | rfl
  · rw [List.mem_singleton.mp ha] at hn
    cases hn
  all_goals cases hn

end SchemaGen
