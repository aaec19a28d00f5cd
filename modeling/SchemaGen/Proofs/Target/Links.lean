import SchemaGen.Proofs.Target.ClientLines
import SchemaGen.Proofs.Target.HostLines
import SchemaGen.Proofs.Target.ModelTypes

/-!
# Links between the files of the models

The texts of the models refer to one another. The last file lists all other files, each once, under places
that tell them apart; and what a module imports is defined by the file that stands at the place which its import
names. All of this is read from the texts themselves.

Results:
1. `readBack_of_text?`, `reads_modelIndex`: what is read from the texts.
2. `exists_definition`: what a module imports is exported by another one.
3. `links_resolve`: lists and imports of the files that a target renders.
-/

namespace SchemaGen

open Emission

variable {c : Catalog} {o : Options} {t : Target} {r r' : Registry} {files : Files}
  {decls : Entity → List TypeDecl} {m : ModelModule} {text : String}

/-! ## Files -/

/-- The last file of the models. -/
def Target.indexFile : Target → String
  | .rust => HostModel.indexFile
  | _ => ClientModel.indexFile

/-- The other files of the models. -/
def Target.moduleFiles (c : Catalog) : Target → List String
  | .rust => HostModel.moduleFiles c
  | _ => ClientModel.exportedFiles c

theorem Target.moduleFiles_eq (ht : t ∈ Target.models) (decls : Entity → List TypeDecl) :
    t.moduleFiles c = sortedNames ((t.modelModules c decls).map (ModelModule.file t.extension)) := by
  simp only [Target.models, List.mem_cons, List.not_mem_nil, or_false] at ht
  rcases ht with rfl | rfl
  all_goals
    simp only [Target.modelModules, Target.operationTables, List.map_append, List.map_map, List.map_nil,
      List.append_nil]
    rfl

theorem Target.mem_moduleFiles_iff (ht : t ∈ Target.models) (decls : Entity → List TypeDecl) {file : String} :
    file ∈ t.moduleFiles c ↔ ∃ m ∈ t.modelModules c decls, m.file t.extension = file := by
  rw [Target.moduleFiles_eq ht decls, mem_sortedNames, List.mem_map]

theorem Target.nodup_moduleFiles (c : Catalog) (t : Target) : (t.moduleFiles c).Nodup := by
  cases t <;> exact nodup_sortedNames _

theorem mem_sortedNames_iff_of_nodup {names : List String} {last file : String}
    (h : (names ++ [last]).Nodup) : file ∈ sortedNames names ↔ file ∈ sortedNames (names ++ [last]) ∧ file ≠ last := by
  obtain ⟨-, -, hapart⟩ := List.nodup_append.mp h
  rw [mem_sortedNames, mem_sortedNames, List.mem_append, List.mem_singleton]
  constructor
  · exact fun hfile => ⟨.inl hfile, hapart file hfile last (List.mem_singleton.mpr rfl)⟩
  · exact fun ⟨hfile, hne⟩ => hfile.resolve_right hne

/-- The last file is none of the others. -/
theorem Target.mem_moduleFiles_iff_expected (hc : c.IsSound) (ht : t ∈ Target.models) {file : String} :
    file ∈ t.moduleFiles c ↔ file ∈ t.expectedFiles c ∧ file ≠ t.indexFile := by
  simp only [Target.models, List.mem_cons, List.not_mem_nil, or_false] at ht
  rcases ht with rfl | rfl
  · exact mem_sortedNames_iff_of_nodup (HostModel.nodup_expectedFiles hc)
  · exact mem_sortedNames_iff_of_nodup (ClientModel.nodup_expectedFiles hc)

theorem mem_entityList_of_operationTables {table : Table} (h : table ∈ t.operationTables c) :
    .table table ∈ c.entityList := by
  have htable : table ∈ c.tables := by
    cases t with
    | typescript => exact h
    | _ => cases h
  exact Catalog.mem_entityList_of_mem_tables htable

/-- The name of a file is an identifier with what tells the kind of file, and the extension. -/
theorem exists_stem (hc : c.IsSound) (hm : m ∈ t.modelModules c decls) :
    ∃ stem, (∀ ext, m.file ext = stem ++ ("." ++ ext)) ∧
      Text.IsLine stem ∧ '\'' ∉ stem.toList ∧ '"' ∉ stem.toList := by
  have hfile : ∀ (n ext mark dotted : String), mark ++ "." = dotted →
      n ++ dotted ++ ext = n ++ mark ++ ("." ++ ext) := by
    rintro n ext mark _ rfl
    simp only [String.append_assoc]
  simp only [Target.modelModules, List.mem_append, List.mem_map] at hm
  rcases hm with (⟨e, he, rfl⟩ | ⟨table, htable, rfl⟩) | ⟨e, he, rfl⟩
  · exact ⟨_, fun ext => hfile e.name ext ".model" _ rfl, isLine_stem (isIdentifier_entity hc he) (by decide)⟩
  · have hname : IsIdentifier table.name := isIdentifier_entity hc (mem_entityList_of_operationTables htable)
    exact ⟨_, fun ext => hfile table.name ext ".graphql" _ rfl, isLine_stem hname (by decide)⟩
  · exact ⟨_, fun ext => hfile e.name ext ".enum" _ rfl,
      isLine_stem (isIdentifier_of_isTypeName (hc.isTypeName_enum he)) (by decide)⟩

/-! ## Texts -/

theorem readBack_of_text? (hc : c.IsSound) (hn : c.IsNamed) (hd : ∀ e ∈ c.entityList, Artifact e (decls e))
    (ht : t ∈ Target.models) (hm : m ∈ t.modelModules c decls) (htext : m.text? o c t = some text) :
    ReadBack c t m text := by
  simp only [Target.models, List.mem_cons, List.not_mem_nil, or_false] at ht
  rcases ht with rfl | rfl
  · exact HostModel.readBack_of_text? hc hn hd hm htext
  · exact ClientModel.readBack_of_text? hc hn hd hm htext

/-- The last file lists all other files, and imports nothing. -/
theorem reads_modelIndex (hc : c.IsSound) (ht : t ∈ Target.models) :
    t.listing (t.modelIndex c).2 = ((t.moduleFiles c).map fun file => (file, t.place file)) ∧
      t.importsOf (t.modelIndex c).2 = [] := by
  have hstem : ∀ file ∈ t.moduleFiles c, ∃ stem, file = stem ++ ("." ++ t.extension) ∧
      Text.IsLine stem ∧ '\'' ∉ stem.toList ∧ '"' ∉ stem.toList := by
    intro file hfile
    obtain ⟨m, hm, rfl⟩ := (Target.mem_moduleFiles_iff ht fun _ => []).mp hfile
    obtain ⟨stem, hname, hline⟩ := exists_stem hc hm
    exact ⟨stem, hname _, hline⟩
  simp only [Target.models, List.mem_cons, List.not_mem_nil, or_false] at ht
  rcases ht with rfl | rfl
  · have hmodules : HostModel.declaredModules c =
        (Target.rust.moduleFiles c).map fun file => (file, Target.rust.place file) := rfl
    unfold Target.modelIndex
    dsimp only
    rw [hmodules]
    refine HostModel.reads_indexText (List.forall_mem_map.mpr fun file hfile => ?_)
    obtain ⟨stem, rfl, hline, -, hquote⟩ := hstem file hfile
    refine ⟨hline.append (by decide), ?_, Naming.isIdentifier_toSnake _⟩
    rw [String.toList_append, List.mem_append, not_or]
    exact ⟨hquote, by decide⟩
  · refine ClientModel.reads_indexText fun file hfile => ?_
    obtain ⟨stem, rfl, hline, hquote, -⟩ := hstem file hfile
    exact ⟨stem, rfl, hline, hquote⟩

/-! ## Imports -/

/-- What a module imports is exported by the module whose file stands at the place. -/
theorem exists_definition (hc : c.IsSound) (hd : ∀ e ∈ c.entityList, Artifact e (decls e))
    (hm : m ∈ t.modelModules c decls) {n place : String} (h : (n, place) ∈ m.imported c t) :
    ∃ other ∈ t.modelModules c decls, t.place (other.file t.extension) = place ∧ n ∈ other.exports := by
  simp only [Target.modelModules, List.mem_append, List.mem_map] at hm
  rcases hm with (⟨e, he, rfl⟩ | ⟨table, htable, rfl⟩) | ⟨e, he, rfl⟩
  · obtain ⟨i, hi, heq⟩ := List.mem_map.mp h
    obtain ⟨rfl, rfl⟩ := Prod.mk.inj heq
    obtain ⟨other, hother, hfile, hexported, -⟩ := exists_module_of_mem_imports hc hd he hi
    exact ⟨other, hother, congrArg t.place (hfile t.extension), hexported⟩
  · obtain ⟨n, hn, heq⟩ := List.mem_map.mp h
    obtain ⟨rfl, rfl⟩ := Prod.mk.inj heq
    obtain ⟨op, hop, hn⟩ := List.mem_flatMap.mp hn
    have hentity := mem_entityList_of_operationTables htable
    have hgenerated : n ∈ Corpus.generatedNames (.table table) := by
      obtain ⟨hinput, hresult⟩ := types_of_mem_candidates (mem_kept_iff.mp hop).1
      simp only [List.mem_cons, List.not_mem_nil, or_false] at hn
      rcases hn with rfl | rfl
      · exact hinput
      · exact hresult
    refine ⟨.types (.table table) (decls (.table table)),
      List.mem_append_left _ (List.mem_append_left _ (List.mem_map_of_mem hentity)), rfl, ?_⟩
    exact ((hd _ hentity).names n).mpr (List.mem_cons_of_mem _ hgenerated)
  · cases h

/-! ## Links -/

/-- The files that the last file lists, each with the place that imports name. -/
def Target.listed (t : Target) (files : Files) : List (String × String) :=
  (files.get? t.indexFile).elim [] t.listing

/-- The last file lists each of the other files once, at places that tell them apart; and what any file
imports is defined by the file that stands at the place which the import names. -/
structure Linked (t : Target) (files : Files) : Prop where
  listed : ∀ file, file ∈ (t.listed files).map Prod.fst ↔ file ∈ files.names ∧ file ≠ t.indexFile
  once : ((t.listed files).map Prod.fst).Nodup
  places : ((t.listed files).map Prod.snd).Nodup
  imports : ∀ file text, files.get? file = some text → ∀ n place, (n, place) ∈ t.importsOf text →
    ∃ other defining, (other, place) ∈ t.listed files ∧ files.get? other = some defining ∧
      n ∈ t.definitions defining

theorem Printed.listed_eq (hc : c.IsSound) (ht : t ∈ Target.models) (h : Printed o c t decls files) :
    t.listed files = (t.moduleFiles c).map fun file => (file, t.place file) := by
  have hindex : files.get? t.indexFile = some (t.modelIndex c).2 := by
    cases t <;> exact h.index
  unfold Target.listed
  rw [hindex]
  exact (reads_modelIndex hc ht).1

/-- The places of the files of the models tell them apart. -/
theorem nodup_places (hc : c.IsSound) (ht : t ∈ Target.models) (hr : r.IsFresh t)
    (h : t.render o c r = (.ok files, r')) : ((t.moduleFiles c).map t.place).Nodup := by
  have hstem : ∀ file ∈ t.moduleFiles c, ∃ stem, file = stem ++ ("." ++ t.extension) := by
    intro file hfile
    obtain ⟨m, hm, rfl⟩ := (Target.mem_moduleFiles_iff ht fun _ => []).mp hfile
    obtain ⟨stem, hname, -⟩ := exists_stem hc hm
    exact ⟨stem, hname _⟩
  simp only [Target.models, List.mem_cons, List.not_mem_nil, or_false] at ht
  rcases ht with rfl | rfl
  · exact HostModel.nodup_modules_of_render hc hr h
  · refine List.Nodup.map_on (fun file hfile other hother heq => ?_) (nodup_sortedNames _)
    obtain ⟨stem, rfl⟩ := hstem file hfile
    obtain ⟨stem', rfl⟩ := hstem other hother
    rw [show stem = stem' from
      (HostModel.fileStem_append stem rfl).symm.trans (heq.trans (HostModel.fileStem_append stem' rfl))]

/-- The files that are printed are linked if their places tell them apart. -/
theorem Printed.linked (hc : c.IsSound) (hn : c.IsNamed) (ht : t ∈ Target.models)
    (hplaces : ((t.moduleFiles c).map t.place).Nodup) (h : Printed o c t decls files) : Linked t files := by
  have hlisted := h.listed_eq hc ht
  have hnames : (t.listed files).map Prod.fst = t.moduleFiles c := by
    rw [hlisted, List.map_map]
    exact List.map_id _
  refine ⟨fun file => ?_, ?_, ?_, fun file text hfile n place himport => ?_⟩
  · rw [hnames, h.names]
    exact Target.mem_moduleFiles_iff_expected hc ht
  · rw [hnames]
    exact Target.nodup_moduleFiles c t
  · rw [hlisted, List.map_map]
    exact hplaces
  · by_cases hindex : file = t.indexFile
    · have htext : files.get? t.indexFile = some (t.modelIndex c).2 := by cases t <;> exact h.index
      rw [hindex, htext] at hfile
      rw [← Option.some.inj hfile, (reads_modelIndex hc ht).2] at himport
      cases himport
    · have hmem : file ∈ files.names :=
        List.mem_map_of_mem (NameMap.mem_pairs_of_lookupPair hfile)
      rw [h.names] at hmem
      obtain ⟨m, hm, rfl⟩ := (Target.mem_moduleFiles_iff ht decls).mp
        ((Target.mem_moduleFiles_iff_expected hc ht).mpr ⟨hmem, hindex⟩)
      obtain ⟨text', htext, hget⟩ := h.modules m hm
      cases hget.symm.trans hfile
      have hread := readBack_of_text? hc hn h.artifacts ht hm htext
      obtain ⟨other, hother, rfl, hexported⟩ := exists_definition hc h.artifacts hm ((hread.imports _).mp himport)
      obtain ⟨defining, hdefining, hget'⟩ := h.modules other hother
      refine ⟨_, defining, ?_, hget', ?_⟩
      · rw [hlisted]
        exact List.mem_map_of_mem ((Target.mem_moduleFiles_iff ht decls).mpr ⟨other, hother, rfl⟩)
      · rwa [(readBack_of_text? hc hn h.artifacts ht hother hdefining).definitions]

/-- The links of the files that a target renders for a catalog made from parsed documents: what a module
exports and imports is read from its text, the last file lists all modules, and imports lead to definitions. -/
theorem links_resolve {corpus : Corpus} (hp : corpus.IsParsed) (h : corpus.catalog = .ok c)
    (ht : t ∈ Target.models) (hr : r.IsFresh t) (hrender : t.render o c r = (.ok files, r')) :
    ∃ decls, Printed o c t decls files ∧
      (∀ m ∈ t.modelModules c decls, ∀ text, m.text? o c t = some text → ReadBack c t m text) ∧
        Linked t files := by
  have hc := Corpus.isSound_of_catalog hp h
  have hn := Corpus.isNamed_of_catalog hp h
  obtain ⟨decls, hprinted⟩ := printed_of_render hc ht hr hrender
  exact ⟨decls, hprinted, fun m hm text => readBack_of_text? hc hn hprinted.artifacts ht hm,
    hprinted.linked hc hn ht (nodup_places hc ht hr hrender)⟩

/-- The sources of a table whose items hold a list of objects, each of which names an enum. -/
def stallSources : List (Path × List String) :=
  [(⟨"Fruit.yml"⟩, ["name: Fruit", "kind: static", "attributes: [{name: sort, type: Sort}]"]),
    (⟨"Sale.yml"⟩, ["name: Sale", "kind: table", "version: 1", "model:", "  keys: {primary: {partition: id}}",
      "  attributes: [{name: id, type: string}, {name: fruits, type: array<Fruit>}]"])]

/-- The source of the enum. -/
def stallEnums : List String := ["Sort: [APPLE, PEAR]"]

/-- The documents that these sources are parsed to. -/
def stall : Corpus :=
  ⟨[⟨⟨"Fruit.yml"⟩, "Fruit", none,
      .object .static [⟨"sort", .reference "Sort", false, none, none⟩]⟩,
    ⟨⟨"Sale.yml"⟩, "Sale", none, .table ⟨"1", "id", none, none,
      [⟨"id", .scalar .string, false, none, none⟩, ⟨"fruits", .referenceArray "Fruit", false, none, none⟩]⟩⟩],
    [⟨⟨"enums.yml"⟩, "Sort", ["APPLE", "PEAR"]⟩]⟩

theorem stall_isParsed : stall.IsParsed := by
  have henums : EnumDoc.parseAll ⟨"enums.yml"⟩ (Text.unlines stallEnums) = .ok stall.enums := by
    decide +kernel
  exact Corpus.isParsed_of_mapM (s := stallSources) (by decide +kernel) (.inr ⟨_, _, henums⟩)

/-- The catalog of these documents. -/
def stallCatalog : Catalog := stall.catalog.toOption.getD .empty

theorem catalog_stall : stall.catalog = .ok stallCatalog := by decide +kernel

theorem links_resolve_stall : stall.IsParsed ∧ stall.catalog = .ok stallCatalog ∧
    ∀ t ∈ Target.models, Registry.IsFresh t .empty ∧ ∀ o : Options, ∃ files r',
      t.render o stallCatalog .empty = (.ok files, r') ∧ ∃ decls, Printed o stallCatalog t decls files ∧
        (∀ m ∈ t.modelModules stallCatalog decls, ∀ text, m.text? o stallCatalog t = some text →
          ReadBack stallCatalog t m text) ∧ Linked t files := by
  refine ⟨stall_isParsed, catalog_stall, fun t ht => ⟨Registry.isFresh_empty t, fun o => ?_⟩⟩
  have hcheck : ∀ docs, ∀ t ∈ Target.models, t.check docs stallCatalog = .ok () := by decide +kernel
  obtain ⟨files, r', hrender⟩ := Target.exists_render_of_check
    (Corpus.isSound_of_catalog stall_isParsed catalog_stall) (Registry.isFresh_empty t) (hcheck o.docs t ht)
  exact ⟨files, r', hrender, links_resolve stall_isParsed catalog_stall ht (Registry.isFresh_empty t) hrender⟩

end SchemaGen
