import SchemaGen.Proofs.Target.Reading

/-!
# Lines of the host models

A module of the host models is read back block by block: a header, the imports, and then the structs or the
enum. Descriptions, attributes and fields stand on lines that start with a blank or a mark of their own, so
that nothing is read from them, whatever a description says.

Results:
1. `reads_struct`, `reads_enumLines`: the definitions of a type and of an enum.
2. `reads_imports`: the imports.
3. `readBack_of_text?`: what is read from a module.
4. `reads_indexText`: what is read from the last file.
-/

namespace SchemaGen.HostModel

open Emission Text Target

variable {c : Catalog} {e : Entity} {d : TypeDecl} {f : Field} {n indent : String}

/-! ## Descriptions -/

/-- The indents of descriptions. -/
def indents : List String := ["", "    "]

theorem isLineFrom_docLines {starts : List Char} (hmarks : ∀ mark ∈ ["///", "/// "],
    IsLineFrom starts (indent ++ mark) ∧ indent ++ mark ≠ "") (text : String) :
    ∀ l ∈ docLines indent text, IsLineFrom starts l := by
  intro l hl
  obtain ⟨line, hline, rfl⟩ := List.mem_map.mp hl
  unfold docLine
  split
  · exact (hmarks "///" (by decide)).1
  · have hmark := hmarks "/// " (by decide)
    exact hmark.1.append (isLine_trimEnd (newline_not_mem_lines hline)) hmark.2

theorem isLineFrom_typeDoc (hn : IsIdentifier n) (docs : Bool) (description : Option String) :
    ∀ l ∈ typeDoc docs n description, IsLineFrom ['/'] l := by
  unfold typeDoc
  split
  · split
    · exact isLineFrom_docLines (by decide) _
    · exact List.forall_mem_singleton.mpr (IsLineFrom.append (.of_chars rfl rfl) hn.isLine (by decide))
  · exact fun l hl => absurd hl List.not_mem_nil

/-! ## Types -/

/-- The lines in which nothing is read. -/
theorem reads_plain {lines : List String} (h : ∀ l ∈ lines, IsLineFrom ['/', ' ', '#', '\x7d', 'i'] l) :
    Reads .rust lines [] [] :=
  .of_plain (by decide) (by decide) h

theorem isLine_text_ofShape {shape : Shape} (owner : String)
    (h : ∀ n, shape.enumName? = some n ∨ shape.referenced? = some n → IsIdentifier n) :
    IsLine (HostType.ofShape owner shape).text := by
  have hscalar : ∀ s, IsLine (Surface.host.scalar s) := by
    intro s
    cases s <;> exact .of_chars rfl
  have hlist : ∀ inner, IsLine inner → IsLine ("Vec<" ++ inner ++ ">") := fun _ h =>
    (IsLine.append (.of_chars rfl) h).append (.of_chars rfl)
  cases shape with
  | scalar s => exact hscalar s
  | enum name values => exact (h name (.inl rfl)).isLine
  | scalarArray s => exact hlist _ (hscalar s)
  | referenceArray name => exact hlist _ (h name (.inr rfl)).isLine
  | reference name =>
    have hname := (h name (.inr rfl)).isLine
    show IsLine (if name = owner then HostType.boxed name else HostType.named name).text
    split
    · exact (IsLine.append (.of_chars rfl) hname).append (.of_chars rfl)
    · exact hname

theorem isLine_text_fieldType (h : f.WellNamed) (owner : String) : IsLine (fieldType owner f).text := by
  have hoptional : ∀ type : HostType, IsLine type.text →
      IsLine (if f.required then type else .optional type).text := by
    intro type htype
    split
    · exact htype
    · exact (IsLine.append (.of_chars rfl) htype).append (.of_chars rfl)
  unfold fieldType
  cases hf : f.type with
  | integer =>
    have hinteger : IsLine Surface.host.integer := by decide
    exact hoptional (.builtin Surface.host.integer) hinteger
  | shape shape => exact hoptional _ (isLine_text_ofShape owner (h.type shape hf))

/-! ## Structs -/

theorem isLineFrom_fieldLines {field : HostField} (hdoc : ∀ l ∈ field.doc, IsLineFrom ['/', ' '] l)
    (hname : IsLine field.name) (htype : IsLine field.type.text)
    (hrename : ∀ n ∈ field.rename, IsLine n) : ∀ l ∈ fieldLines field, IsLineFrom ['/', ' '] l := by
  have hoptional : ∀ optional : Bool, ∀ l ∈ (if optional then
      ["    #[serde(default, skip_serializing_if = \"Option::is_none\")]"] else []),
      IsLineFrom ['/', ' '] l := by
    intro optional
    cases optional with
    | true => exact List.forall_mem_singleton.mpr (.of_chars rfl rfl)
    | false => exact fun l hl => absurd hl List.not_mem_nil
  have hline : IsLineFrom ['/', ' '] ("    pub " ++ field.name ++ ": " ++ field.type.text ++ ",") := by
    simp only [String.append_assoc]
    refine IsLineFrom.append (.of_chars rfl rfl) (hname.append (IsLine.append (.of_chars rfl) ?_)) (by decide)
    exact htype.append (.of_chars rfl)
  unfold fieldLines
  refine List.forall_mem_append.mpr ⟨List.forall_mem_append.mpr ⟨List.forall_mem_append.mpr
    ⟨hdoc, hoptional _⟩, ?_⟩, List.forall_mem_singleton.mpr hline⟩
  split
  · next name hn =>
    rw [String.append_assoc]
    exact List.forall_mem_singleton.mpr
      (IsLineFrom.append (.of_chars rfl rfl) ((hrename name hn).append (.of_chars rfl)) (by decide))
  · exact fun l hl => absurd hl List.not_mem_nil

theorem isLineFrom_fieldDoc (docs : Bool) (f : Field) : ∀ l ∈ fieldDoc docs f, IsLineFrom ['/', ' '] l := by
  unfold fieldDoc
  split
  · split
    · exact isLineFrom_docLines (by decide) _
    · exact fun l hl => absurd hl List.not_mem_nil
  · exact fun l hl => absurd hl List.not_mem_nil

theorem isLine_hostField (n : String) : IsLine (Naming.hostField n) := by
  have hsnake := (Naming.isIdentifier_toSnake n).isLine
  unfold Naming.hostField
  split
  · exact IsLine.append (.of_chars rfl) hsnake
  · exact hsnake

theorem isLine_rename (h : f.WellNamed) (docs : Bool) (owner : String) :
    ∀ n ∈ (field docs owner f).rename, IsLine n := by
  intro n hn
  unfold field at hn
  dsimp only at hn
  split at hn
  · cases hn
  · exact Option.some.inj hn ▸ h.name.isLine

theorem isLineFrom_field (h : f.WellNamed) (docs : Bool) (owner : String) :
    ∀ l ∈ fieldLines (field docs owner f), IsLineFrom ['/', ' '] l := by
  refine isLineFrom_fieldLines ?_ ?_ ?_ (isLine_rename h docs owner) <;> dsimp only [field]
  · exact isLineFrom_fieldDoc docs f
  · exact isLine_hostField f.name
  · exact isLine_text_fieldType h owner

theorem isLineFrom_header {title : String} (h : IsLine title) : ∀ l ∈ header title, IsLineFrom ['/'] l := by
  have hbanner : IsLine banner := .of_chars rfl
  unfold header
  simp only [List.forall_mem_cons]
  exact ⟨IsLineFrom.append (.of_chars rfl rfl) h (by decide), .of_chars rfl rfl,
    IsLineFrom.append (.of_chars rfl rfl) hbanner (by decide), .of_chars rfl rfl, by simp⟩

theorem reads_header (title : String) (h : IsLine title) : Reads .rust (header title) [] [] :=
  reads_plain fun l hl => (isLineFrom_header h l hl).mono (by simp)

/-- A type is defined under its name. -/
theorem reads_struct (h : d.WellNamed) (docs : Bool) : Reads .rust (structLines (struct docs d)) [d.name] [] := by
  have hdoc : Reads .rust (typeDoc docs d.name d.description ++
      ["#[derive(Debug, Clone, PartialEq, Serialize, Deserialize)]",
        "#[serde(rename_all = \"camelCase\")]"]) [] [] := by
    refine reads_plain (List.forall_mem_append.mpr ⟨fun l hl => ?_, List.forall_mem_cons.mpr
      ⟨.of_chars rfl rfl, List.forall_mem_singleton.mpr (.of_chars rfl rfl)⟩⟩)
    exact (isLineFrom_typeDoc h.name docs d.description l hl).mono (by simp)
  have hstart : Reads .rust ["pub struct " ++ d.name ++ " \x7b"] [d.name] [] :=
    .definition "struct" "\x7b" (by decide) (h.name.not_mem (by decide)) rfl rfl
      ((IsLine.append (.of_chars rfl) h.name.isLine).append (.of_chars rfl))
  have hfields : Reads .rust ((d.fields.map (field docs d.name)).flatMap fieldLines ++ ["\x7d"]) [] [] := by
    refine reads_plain (List.forall_mem_append.mpr ⟨fun l hl => ?_, by decide⟩)
    rw [List.flatMap_map] at hl
    obtain ⟨f, hf, hl⟩ := List.mem_flatMap.mp hl
    exact (isLineFrom_field (h.fields f hf) docs d.name l hl).mono (by simp)
  have hall := (hdoc.append hstart).append hfields
  unfold structLines struct
  simpa only [List.append_assoc, List.cons_append, List.nil_append] using hall

/-! ## Enums -/

/-- Every value has its variant. -/
theorem variantsFrom_eq_ok {enum : String} {seen values : List String} {variants : List (String × String)}
    (h : variantsFrom enum seen values = .ok variants) :
    variants = values.map fun value => (variantName value, value) := by
  induction values generalizing seen variants with
  | nil =>
    cases h
    rfl
  | cons value rest ih =>
    unfold variantsFrom at h
    split at h
    · cases h
    · split at h
      · cases h
      · obtain ⟨more, hmore, rfl⟩ := map_eq_ok.mp h
        rw [ih hmore, List.map_cons]

theorem isIdentifier_variantName (value : String) : IsIdentifier (variantName value) := by
  have hvariant := Naming.isIdentifier_toPascal value
  unfold variantName
  dsimp only
  split
  · exact hvariant.append (by decide)
  · exact hvariant

/-- The lines of an enum after the one that defines it. -/
def enumBody (e : Enum) : List String :=
  (e.variants.flatMap fun v => ["    #[serde(rename = \"" ++ v.2 ++ "\")]", "    " ++ v.1 ++ ","]) ++
    ["\x7d", "", "impl " ++ e.name ++ " \x7b",
      "    pub const ALL: [" ++ e.name ++ "; " ++ toString e.variants.length ++ "] = ["] ++
    (e.variants.map fun v => "        " ++ e.name ++ "::" ++ v.1 ++ ",") ++
    ["    ];", "", "    pub fn as_str(&self) -> &'static str \x7b", "        match self \x7b"] ++
    (e.variants.map fun v => "            " ++ e.name ++ "::" ++ v.1 ++ " => \"" ++ v.2 ++ "\",") ++
    ["        \x7d", "    \x7d", "\x7d"]

theorem enumLines_eq (e : Enum) : enumLines e =
    e.doc ++ ["#[derive(Debug, Clone, Copy, PartialEq, Eq, Hash, Serialize, Deserialize)]"] ++
      ["pub enum " ++ e.name ++ " \x7b"] ++ enumBody e := by
  unfold enumLines enumBody
  simp only [List.append_assoc, List.cons_append, List.nil_append]

section

variable {e : Enum} (hname : IsIdentifier e.name)
  (hvariants : ∀ v ∈ e.variants, IsIdentifier v.1 ∧ IsIdentifier v.2)

include hname hvariants

theorem isLineFrom_enumBody : ∀ l ∈ enumBody e, IsLineFrom ['\x7d', ' ', 'i'] l := by
  have hlist : ∀ l ∈ e.variants.flatMap fun v => ["    #[serde(rename = \"" ++ v.2 ++ "\")]", "    " ++ v.1 ++ ","],
      IsLineFrom ['\x7d', ' ', 'i'] l := by
    intro l hl
    obtain ⟨v, hv, hl⟩ := List.mem_flatMap.mp hl
    obtain ⟨hvariant, hvalue⟩ := hvariants v hv
    simp only [List.mem_cons, List.not_mem_nil, or_false, String.append_assoc] at hl
    rcases hl with rfl | rfl
    · exact IsLineFrom.append (.of_chars rfl rfl) (hvalue.isLine.append (.of_chars rfl)) (by decide)
    · exact IsLineFrom.append (.of_chars rfl rfl) (hvariant.isLine.append (.of_chars rfl)) (by decide)
  have himpl : IsLineFrom ['\x7d', ' ', 'i'] ("impl " ++ e.name ++ " \x7b") := by
    rw [String.append_assoc]
    exact IsLineFrom.append (.of_chars rfl rfl) (hname.isLine.append (.of_chars rfl)) (by decide)
  have hlength : IsLineFrom ['\x7d', ' ', 'i']
      ("    pub const ALL: [" ++ e.name ++ "; " ++ toString e.variants.length ++ "] = [") := by
    simp only [String.append_assoc]
    refine IsLineFrom.append (.of_chars rfl rfl) (hname.isLine.append (IsLine.append (.of_chars rfl) ?_)) (by decide)
    exact (isIdentifier_toString _).isLine.append (.of_chars rfl)
  have hall : ∀ l ∈ e.variants.map fun v => "        " ++ e.name ++ "::" ++ v.1 ++ ",",
      IsLineFrom ['\x7d', ' ', 'i'] l := by
    refine List.forall_mem_map.mpr fun v hv => ?_
    simp only [String.append_assoc]
    refine IsLineFrom.append (.of_chars rfl rfl) (hname.isLine.append (IsLine.append (.of_chars rfl) ?_)) (by decide)
    exact (hvariants v hv).1.isLine.append (.of_chars rfl)
  have hvalues : ∀ l ∈ e.variants.map fun v =>
      "            " ++ e.name ++ "::" ++ v.1 ++ " => \"" ++ v.2 ++ "\",", IsLineFrom ['\x7d', ' ', 'i'] l := by
    refine List.forall_mem_map.mpr fun v hv => ?_
    obtain ⟨hvariant, hvalue⟩ := hvariants v hv
    simp only [String.append_assoc]
    refine IsLineFrom.append (.of_chars rfl rfl) (hname.isLine.append (IsLine.append (.of_chars rfl) ?_)) (by decide)
    exact hvariant.isLine.append (IsLine.append (.of_chars rfl) (hvalue.isLine.append (.of_chars rfl)))
  unfold enumBody
  simp only [List.forall_mem_append]
  refine ⟨⟨⟨⟨⟨hlist, ?_⟩, hall⟩, ?_⟩, hvalues⟩, ?_⟩
  all_goals simp only [List.forall_mem_cons]
  · exact ⟨.of_chars rfl rfl, .of_chars rfl rfl, himpl, hlength, by simp⟩
  · exact ⟨.of_chars rfl rfl, .of_chars rfl rfl, .of_chars rfl rfl, .of_chars rfl rfl, by simp⟩
  · exact ⟨.of_chars rfl rfl, .of_chars rfl rfl, .of_chars rfl rfl, by simp⟩

/-- An enum is defined under its name. -/
theorem reads_enumLines (hdoc : ∀ l ∈ e.doc, IsLineFrom ['/'] l) :
    Reads .rust (enumLines e) [e.name] [] := by
  have hbefore : Reads .rust (e.doc ++
      ["#[derive(Debug, Clone, Copy, PartialEq, Eq, Hash, Serialize, Deserialize)]"]) [] [] := by
    refine reads_plain (List.forall_mem_append.mpr
      ⟨fun l hl => ?_, List.forall_mem_singleton.mpr (.of_chars rfl rfl)⟩)
    exact (hdoc l hl).mono (by simp)
  have hstart : Reads .rust ["pub enum " ++ e.name ++ " \x7b"] [e.name] [] :=
    .definition "enum" "\x7b" (by decide) (hname.not_mem (by decide)) rfl rfl
      ((IsLine.append (.of_chars rfl) hname.isLine).append (.of_chars rfl))
  have hbody : Reads .rust (enumBody e) [] [] :=
    reads_plain fun l hl => (isLineFrom_enumBody hname hvariants l hl).mono (by simp)
  rw [enumLines_eq]
  exact (hbefore.append hstart).append hbody

end

/-! ## Imports -/

/-- An import that is named by an identifier is read from its line. -/
theorem import?_importLine {i : Import} (h : IsIdentifier i.name) :
    Target.rust.import? (importLine i) = some (i.name, moduleOf (i.file "rs")) := by
  have hline : importLine i =
      "use super::" ++ moduleOf (i.file "rs") ++ ("::" ++ i.name ++ ";") := by
    rw [importLine_eq]
    simp only [String.append_assoc]
  have hmodule : IsIdentifier (moduleOf (i.file "rs")) := Naming.isIdentifier_toSnake _
  have hhead : ("::" ++ i.name ++ ";").toList.head? = some ':' := by
    rw [String.append_assoc]
    exact head?_append (by decide)
  show hostImport? _ = _
  unfold hostImport?
  rw [hline, field?_append (hmodule.not_mem (by decide)) hhead, Option.bind_some,
    field?_append (h.not_mem (by decide)) rfl, Option.map_some]

theorem isLineFrom_importLine {i : Import} (h : IsIdentifier i.name) : IsLineFrom ['u'] (importLine i) := by
  have hmodule : IsIdentifier (moduleOf (i.file "rs")) := Naming.isIdentifier_toSnake _
  rw [importLine_eq]
  simp only [String.append_assoc]
  refine IsLineFrom.append (.of_chars rfl rfl) (hmodule.isLine.append (IsLine.append (.of_chars rfl) ?_)) (by decide)
  exact h.isLine.append (.of_chars rfl)

theorem isLineFrom_imports {is : List Import} (h : ∀ i ∈ is, IsIdentifier i.name) :
    ∀ l ∈ [deriveImport] ++ sortedNames (is.map importLine), IsLineFrom ['u'] l := by
  refine List.forall_mem_append.mpr ⟨List.forall_mem_singleton.mpr (.of_chars rfl rfl), fun l hl => ?_⟩
  rw [mem_sortedNames, List.mem_map] at hl
  obtain ⟨i, hi, rfl⟩ := hl
  exact isLineFrom_importLine (h i hi)

/-- The imports of a module are read; nothing is read from that of the derived traits. -/
theorem reads_imports {is : List Import} (h : ∀ i ∈ is, IsIdentifier i.name) :
    ∃ imported, Reads .rust ([deriveImport] ++ sortedNames (is.map importLine)) [] imported ∧
      ∀ p, p ∈ imported ↔ ∃ i ∈ is, p = (i.name, moduleOf (i.file "rs")) := by
  have hall : ∀ line, line ∈ sortedNames (is.map importLine) ↔ ∃ i ∈ is, importLine i = line := fun line => by
    rw [mem_sortedNames, List.mem_map]
  have hlines := isLineFrom_imports h
  refine ⟨_, .importLines (fun line hline => (hlines line hline).line) ?_ ?_, fun p => ?_⟩
  · rintro line hline rfl
    have hstart := (hlines _ hline).start 'i' rfl
    exact absurd hstart (by decide)
  · exact fun line hline => defined?_eq_none fun hm => absurd ((hlines line hline).start _ hm) (by decide)
  · have hnone : Target.rust.import? deriveImport = none := by decide
    rw [List.singleton_append, List.filterMap_cons_none hnone, List.mem_filterMap]
    simp only [hall]
    constructor
    · rintro ⟨line, ⟨i, hi, rfl⟩, hp⟩
      rw [import?_importLine (h i hi)] at hp
      exact ⟨i, hi, (Option.some.inj hp).symm⟩
    · rintro ⟨i, hi, rfl⟩
      exact ⟨_, ⟨i, hi, rfl⟩, import?_importLine (h i hi)⟩

/-! ## Modules -/

variable {o : Options} {decls : Entity → List TypeDecl} {m : ModelModule} {text : String}

theorem reads_modelText {ds : List TypeDecl} (he : IsIdentifier e.name) (hds : ∀ d ∈ ds, d.WellNamed)
    (docs : Bool) : ReadBack c .rust (.types e ds) (modelText e.name (imports c ds) (ds.map (struct docs))) := by
  obtain ⟨imported, himports, hmem⟩ := reads_imports fun i hi => isIdentifier_of_mem_imports (c := c) hds hi
  have hstructs : Reads .rust (if (ds.map (struct docs)).isEmpty then [""]
      else spaced ((ds.map (struct docs)).map structLines)) (ds.flatMap fun d => [d.name]) [] := by
    cases ds with
    | nil => exact .empty _
    | cons d rest =>
      rw [List.map_map]
      exact .spaced fun d hd => reads_struct (hds d hd) docs
  have hall := (((reads_header (e.name ++ " model") (he.isLine.append (.of_chars rfl))).append himports).append
    (.empty _)).append hstructs
  rw [List.nil_append, List.nil_append, List.append_nil, List.append_nil, ← List.map_eq_flatMap,
    ← List.append_assoc (header _)] at hall
  refine hall.readBack fun p => (hmem p).trans ?_
  unfold ModelModule.imported
  rw [List.mem_map]
  exact exists_congr fun i => and_congr_right' eq_comm

theorem reads_enumText {enum : EnumType} {made : Enum} (hname : IsIdentifier enum.name)
    (hvalues : ∀ v ∈ enum.values, IsIdentifier v) {docs : Bool} (h : HostModel.enum docs enum = .ok made) :
    ReadBack c .rust (.enum enum) (enumText made) := by
  obtain ⟨variants, hvariants, rfl⟩ := map_eq_ok.mp h
  have hpairs : ∀ v ∈ variants, IsIdentifier v.1 ∧ IsIdentifier v.2 := by
    rw [variantsFrom_eq_ok hvariants]
    exact List.forall_mem_map.mpr fun v hv => ⟨isIdentifier_variantName v, hvalues v hv⟩
  obtain ⟨imported, himports, hmem⟩ := reads_imports fun i (hi : i ∈ ([] : List Import)) => by cases hi
  have henum : Reads .rust (enumLines ⟨typeDoc docs enum.name none, enum.name, variants⟩) [enum.name] [] :=
    reads_enumLines hname hpairs (isLineFrom_typeDoc hname docs none)
  have hall := ((reads_header (enum.name ++ " enum") (hname.isLine.append (.of_chars rfl))).append
    (himports.append (.empty _))).append henum
  refine hall.readBack fun p => ?_
  simpa [ModelModule.imported] using hmem p

/-- The module of an enum is written where the enum can be. -/
theorem enum_of_text? {enum : EnumType} (h : (ModelModule.enum enum).text? o c .rust = some text) :
    ∃ made, HostModel.enum o.docs enum = .ok made ∧ enumText made = text := by
  obtain ⟨made, hmade, htext⟩ := Option.map_eq_some_iff.mp h
  refine ⟨made, ?_, htext⟩
  cases hworked : HostModel.enum o.docs enum with
  | error fault =>
    rw [hworked] at hmade
    cases hmade
  | ok other =>
    rw [hworked] at hmade
    cases hmade
    rfl

/-- A module of the host models is read back. -/
theorem readBack_of_text? (hc : c.IsSound) (hn : c.IsNamed) (hd : ∀ e ∈ c.entityList, Artifact e (decls e))
    (hm : m ∈ Target.rust.modelModules c decls) (htext : m.text? o c .rust = some text) :
    ReadBack c .rust m text := by
  unfold Target.modelModules at hm
  simp only [Target.operationTables, List.map_nil, List.append_nil, List.mem_append, List.mem_map] at hm
  rcases hm with ⟨e, he, rfl⟩ | ⟨enum, henum, rfl⟩
  · cases htext
    exact reads_modelText (isIdentifier_entity hc he)
      (fun d hdm => wellNamed_of_belongs hc hn he ((hd e he).belongs d hdm)) o.docs
  · obtain ⟨made, hmade, rfl⟩ := enum_of_text? htext
    exact reads_enumText (isIdentifier_of_isTypeName (hc.isTypeName_enum henum)) (hn.values enum henum) hmade

/-! ## The last file -/

theorem hostListing_cons {path : String} (h : field? "#[path = \"" '"' path.toList = none)
    (lines : List String) : hostListing (path :: lines) = hostListing lines := by
  cases lines with
  | nil => rfl
  | cons module rest => rw [hostListing, h]

theorem hostListing_append {lines : List String} (h : ∀ l ∈ lines, field? "#[path = \"" '"' l.toList = none)
    (rest : List String) : hostListing (lines ++ rest) = hostListing rest := by
  induction lines with
  | nil => rfl
  | cons l more ih =>
    obtain ⟨hl, hmore⟩ := List.forall_mem_cons.mp h
    rw [List.cons_append, hostListing_cons hl, ih hmore]

section

variable {modules : List (String × String)}
  (h : ∀ m ∈ modules, IsLine m.1 ∧ '"' ∉ m.1.toList ∧ IsIdentifier m.2)

include h

/-- Modules are read from the lines that declare them. -/
theorem hostListing_declared (rest : List String) :
    hostListing ((modules.flatMap fun m => ["#[path = \"" ++ m.1 ++ "\"]", "pub mod " ++ m.2 ++ ";"]) ++ rest) =
      modules ++ hostListing rest := by
  induction modules with
  | nil => rfl
  | cons m more ih =>
    obtain ⟨⟨-, hfile, hmodule⟩, hmore⟩ := List.forall_mem_cons.mp h
    rw [List.flatMap_cons, List.append_assoc, List.cons_append, List.cons_append, List.nil_append, hostListing,
      field?_append hfile rfl, field?_append (hmodule.not_mem (by decide)) rfl]
    exact congrArg (m :: ·) (ih hmore)

theorem isLineFrom_declared : ∀ l ∈ modules.flatMap fun m =>
    ["#[path = \"" ++ m.1 ++ "\"]", "pub mod " ++ m.2 ++ ";"], IsLineFrom ['/', 'p', '#'] l := by
  intro l hl
  obtain ⟨m, hm, hl⟩ := List.mem_flatMap.mp hl
  obtain ⟨hfile, -, hmodule⟩ := h m hm
  simp only [List.mem_cons, List.not_mem_nil, or_false, String.append_assoc] at hl
  rcases hl with rfl | rfl
  · exact IsLineFrom.append (.of_chars rfl rfl) (hfile.append (.of_chars rfl)) (by decide)
  · exact IsLineFrom.append (.of_chars rfl rfl) (hmodule.isLine.append (.of_chars rfl)) (by decide)

theorem isLineFrom_used :
    ∀ l ∈ ["", "// Re-export all types"] ++ modules.map fun m => "pub use " ++ m.2 ++ "::*;",
      IsLineFrom ['/', 'p'] l := by
  refine List.forall_mem_append.mpr ⟨List.forall_mem_cons.mpr ⟨.of_chars rfl rfl,
    List.forall_mem_singleton.mpr (.of_chars rfl rfl)⟩, List.forall_mem_map.mpr fun m hm => ?_⟩
  rw [String.append_assoc]
  exact IsLineFrom.append (.of_chars rfl rfl) ((h m hm).2.2.isLine.append (.of_chars rfl)) (by decide)

/-- The last file lists the files with the modules that it declares, and imports nothing. -/
theorem reads_indexText : Target.rust.listing (indexText modules) = modules ∧
    Target.rust.importsOf (indexText modules) = [] := by
  have hheader : ∀ l ∈ header "Generated host models", IsLineFrom ['/', 'p'] l := fun l hl =>
    (isLineFrom_header (.of_chars rfl) l hl).mono (by simp)
  have hused := isLineFrom_used h
  have hlines : ∀ l ∈ header "Generated host models" ++
      (modules.flatMap fun m => ["#[path = \"" ++ m.1 ++ "\"]", "pub mod " ++ m.2 ++ ";"]) ++
      (["", "// Re-export all types"] ++ modules.map fun m => "pub use " ++ m.2 ++ "::*;"),
      IsLineFrom ['/', 'p', '#'] l := by
    simp only [List.forall_mem_append]
    exact ⟨⟨fun l hl => (hheader l hl).mono (by simp), isLineFrom_declared h⟩,
      List.forall_mem_append.mp fun l hl => (hused l hl).mono (by simp)⟩
  have hpath : ∀ {lines : List String}, (∀ l ∈ lines, IsLineFrom ['/', 'p'] l) →
      ∀ l ∈ lines, field? "#[path = \"" '"' l.toList = none := fun hplain l hl =>
    field?_eq_none (hplain l hl).start ⟨'#', rfl, by decide⟩
  unfold indexText
  rw [List.append_assoc _ ["", "// Re-export all types"]]
  constructor
  · have hend := hostListing_append (hpath hused) []
    rw [List.append_nil] at hend
    show hostListing (lines (unlines _)) = modules
    rw [lines_unlines fun l hl => (hlines l hl).line, List.append_assoc, hostListing_append (hpath hheader),
      hostListing_declared h, hend]
    exact List.append_nil modules
  · exact (Reads.of_not_marked (fun line hline => (hlines line hline).line) rfl fun line hline hm =>
      absurd ((hlines line hline).start _ hm) (by decide)).text.2

end

end SchemaGen.HostModel
