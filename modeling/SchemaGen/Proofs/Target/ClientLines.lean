import SchemaGen.Proofs.Emission.Names
import SchemaGen.Proofs.Target.Imports
import SchemaGen.Proofs.Target.Reading

/-!
# Lines of the client models

A module of the client models is read back block by block: a header, the imports, and then the interfaces, the
enum or the operations. Comments, members and documents stand on lines that start with a blank or a mark of
their own, so that nothing is read from them, whatever a description says.

Results:
1. `reads_interface`, `reads_enum`, `reads_operation`: the definitions of types, enums and operations.
2. `reads_imports`, `reads_operationImports`: the imports.
3. `readBack_of_text?`: what is read from a module.
4. `reads_indexText`: what is read from the last file.
-/

namespace SchemaGen.ClientModel

open Emission Text Target

variable {c : Catalog} {e : Entity} {d : TypeDecl} {f : Field} {op : Operation} {n indent : String}

/-! ## Comments -/

/-- The indents of comments. -/
def indents : List String := ["", "  "]

theorem isLineFrom_commentLines (h : indent ∈ indents) (text : String) :
    ∀ l ∈ commentLines indent text, IsLineFrom ['/', ' '] l := by
  have hfixed : ∀ mark ∈ ["/**", " * ", " */", "/** "], IsLineFrom ['/', ' '] (indent ++ mark) ∧
      indent ++ mark ≠ "" := by
    revert indent
    decide
  intro l hl
  unfold commentLines at hl
  dsimp only at hl
  split at hl
  · rw [List.mem_append, List.mem_append, List.mem_singleton, List.mem_singleton] at hl
    rcases hl with (rfl | hl) | rfl
    · exact (hfixed "/**" (by decide)).1
    · obtain ⟨line, hline, rfl⟩ := List.mem_map.mp hl
      have hmark := hfixed " * " (by decide)
      exact hmark.1.append (isLine_trimEnd (newline_not_mem_lines hline)) hmark.2
    · exact (hfixed " */" (by decide)).1
  · next hone =>
    rw [List.mem_singleton.mp hl]
    have hmark := hfixed "/** " (by decide)
    have htext : '\n' ∉ (commentText text).toList := by simpa using hone
    rw [String.append_assoc]
    exact hmark.1.append (isLine_append htext (by decide) (by decide)) hmark.2

theorem isLineFrom_commentIf (h : indent ∈ indents) (text : Option String) :
    ∀ l ∈ commentIf indent text, IsLineFrom ['/', ' '] l := by
  cases text with
  | none => exact fun l hl => absurd hl List.not_mem_nil
  | some text => exact isLineFrom_commentLines h text

/-! ## Types -/

theorem isLine_listOf {element : String} (h : IsLine element) : IsLine (Surface.client.listOf element) := by
  show IsLine (if Surface.isCompound element then "Array<" ++ element ++ ">" else element ++ "[]")
  split
  · exact (IsLine.append (.of_chars rfl) h).append (.of_chars rfl)
  · exact h.append (.of_chars rfl)

theorem isLine_fieldType (h : f.WellNamed) : IsLine (fieldType f.type) := by
  have hscalar : ∀ s, IsLine (Surface.client.scalar s) := by
    intro s
    cases s <;> decide
  unfold fieldType
  cases htype : f.type with
  | integer => decide
  | shape shape =>
    have hname := h.type shape htype
    cases shape with
    | scalar s => exact hscalar s
    | enum name values => exact (hname name (.inl rfl)).isLine
    | scalarArray s => exact isLine_listOf (hscalar s)
    | referenceArray name => exact isLine_listOf (hname name (.inr rfl)).isLine
    | reference name => exact (hname name (.inr rfl)).isLine

theorem isLineFrom_memberLines (h : f.WellNamed) (docs : Bool) :
    ∀ l ∈ memberLines (member docs f), IsLineFrom ['/', ' '] l := by
  have hoptional : IsLine (if (member docs f).optional then "?" else "") := by
    split <;> decide
  have hline : IsLineFrom ['/', ' '] ("  " ++ f.name ++ (if (member docs f).optional then "?" else "") ++
      ": " ++ fieldType f.type ++ ";") := by
    simp only [String.append_assoc]
    refine IsLineFrom.append (.of_chars rfl rfl) (h.name.isLine.append (hoptional.append ?_)) (by decide)
    exact IsLine.append (.of_chars rfl) ((isLine_fieldType h).append (.of_chars rfl))
  unfold memberLines
  exact List.forall_mem_append.mpr
    ⟨isLineFrom_commentIf (by decide) _, List.forall_mem_singleton.mpr hline⟩

theorem reads_plain {lines : List String} (h : ∀ l ∈ lines, IsLineFrom ['/', ' ', '`', '\x7d'] l) :
    Reads .typescript lines [] [] :=
  .of_plain (by decide) (by decide) h

theorem isLineFrom_header : ∀ l ∈ header, IsLineFrom ['/'] l := by
  have hbanner : IsLine banner := .of_chars rfl
  unfold header
  simp only [List.forall_mem_cons]
  exact ⟨IsLineFrom.append (.of_chars rfl rfl) hbanner (by decide), .of_chars rfl rfl, by simp⟩

theorem reads_header : Reads .typescript header [] [] :=
  reads_plain fun l hl => (isLineFrom_header l hl).mono (by simp)

theorem reads_interface (h : d.WellNamed) (docs : Bool) :
    Reads .typescript (interfaceLines (interface docs d)) [d.name] [] := by
  have hmono : ∀ {l : String}, IsLineFrom ['/', ' '] l → IsLineFrom ['/', ' ', '`', '\x7d'] l := fun hl =>
    hl.mono (by simp)
  have hcomment : Reads .typescript (commentIf "" (interface docs d).doc) [] [] :=
    reads_plain fun l hl => hmono (isLineFrom_commentIf (by decide) _ l hl)
  have hstart : Reads .typescript ["export interface " ++ d.name ++ " \x7b"] [d.name] [] :=
    .definition "interface" "\x7b" (by decide) (h.name.not_mem (by decide)) rfl rfl
      ((IsLine.append (.of_chars rfl) h.name.isLine).append (.of_chars rfl))
  have hmembers : Reads .typescript ((interface docs d).members.flatMap memberLines) [] [] := by
    refine reads_plain fun l hl => ?_
    obtain ⟨m, hm, hl⟩ := List.mem_flatMap.mp hl
    obtain ⟨f, hf, rfl⟩ := List.mem_map.mp hm
    exact hmono (isLineFrom_memberLines (h.fields f hf) docs l hl)
  have hend : Reads .typescript ["\x7d"] [] [] := reads_plain (by decide)
  exact ((hcomment.append hstart).append hmembers).append hend

/-! ## Enums -/

theorem reads_enum {e : EnumType} (hname : IsIdentifier e.name) (hvalues : ∀ v ∈ e.values, IsIdentifier v) :
    Reads .typescript (header ++ ["export enum " ++ e.name ++ " \x7b"] ++
      (e.values.map fun v => "  " ++ v ++ " = '" ++ v ++ "',") ++ ["\x7d"]) [e.name] [] := by
  have hstart : Reads .typescript ["export enum " ++ e.name ++ " \x7b"] [e.name] [] :=
    .definition "enum" "\x7b" (by decide) (hname.not_mem (by decide)) rfl rfl
      ((IsLine.append (.of_chars rfl) hname.isLine).append (.of_chars rfl))
  have hlines : Reads .typescript (e.values.map fun v => "  " ++ v ++ " = '" ++ v ++ "',") [] [] := by
    refine reads_plain fun l hl => ?_
    obtain ⟨v, hv, rfl⟩ := List.mem_map.mp hl
    have hvalue := (hvalues v hv).isLine
    simp only [String.append_assoc]
    refine IsLineFrom.append (.of_chars rfl rfl) (hvalue.append (IsLine.append (.of_chars rfl) ?_)) (by decide)
    exact hvalue.append (.of_chars rfl)
  have hend : Reads .typescript ["\x7d"] [] [] := reads_plain (by decide)
  exact ((reads_header.append hstart).append hlines).append hend

/-! ## Imports -/

theorem isLine_importStem {i : Import} (h : IsIdentifier i.name) : IsLine i.stem ∧ '\'' ∉ i.stem.toList := by
  cases i with
  | enum name => exact (isLine_stem h (by decide)).imp_right And.left
  | model name => exact (isLine_stem h (by decide)).imp_right And.left

/-- An import that is named by an identifier is read from its line. -/
theorem import?_importLine {i : Import} (h : IsIdentifier i.name) :
    Target.typescript.import? (importLine i) = some (i.name, i.stem) := by
  have hline : importLine i = "import type \x7b " ++ i.name ++ (" \x7d from './" ++ i.stem ++ "';") := by
    rw [importLine_eq]
    simp only [String.append_assoc]
  have hhead : (" \x7d from './" ++ i.stem ++ "';").toList.head? = some ' ' := by
    rw [String.append_assoc]
    exact head?_append (by decide)
  show clientImport? _ = _
  unfold clientImport?
  rw [hline, field?_append (h.not_mem (by decide)) hhead, Option.bind_some,
    field?_append (isLine_importStem h).2 rfl, Option.map_some]

theorem isLineFrom_importLine {i : Import} (h : IsIdentifier i.name) : IsLineFrom ['i'] (importLine i) := by
  rw [importLine_eq]
  simp only [String.append_assoc]
  refine IsLineFrom.append (.of_chars rfl rfl) (h.isLine.append (IsLine.append (.of_chars rfl) ?_)) (by decide)
  exact (isLine_importStem h).1.append (.of_chars rfl)

theorem isLineFrom_imports {is : List Import} (h : ∀ i ∈ is, IsIdentifier i.name) :
    ∀ l ∈ sortedNames (is.map importLine), IsLineFrom ['i'] l := by
  intro l hl
  rw [mem_sortedNames, List.mem_map] at hl
  obtain ⟨i, hi, rfl⟩ := hl
  exact isLineFrom_importLine (h i hi)

theorem reads_imports {is : List Import} (h : ∀ i ∈ is, IsIdentifier i.name) :
    ∃ imported, Reads .typescript (sortedNames (is.map importLine)) [] imported ∧
      ∀ p, p ∈ imported ↔ ∃ i ∈ is, p = (i.name, i.stem) := by
  have hall : ∀ line, line ∈ sortedNames (is.map importLine) ↔ ∃ i ∈ is, importLine i = line := fun line => by
    rw [mem_sortedNames, List.mem_map]
  have hlines := isLineFrom_imports h
  refine ⟨_, .importLines (fun line hline => (hlines line hline).line) ?_ ?_, fun p => ?_⟩
  · intro line hline hopen
    have hnone : Target.typescript.import? "import type \x7b" = none := by decide
    obtain ⟨i, hi, rfl⟩ := (hall line).mp hline
    rw [← hopen, import?_importLine (h i hi)] at hnone
    cases hnone
  · exact fun line hline => defined?_eq_none fun hm => absurd ((hlines line hline).start _ hm) (by decide)
  · rw [List.mem_filterMap]
    simp only [hall]
    constructor
    · rintro ⟨line, ⟨i, hi, rfl⟩, hp⟩
      rw [import?_importLine (h i hi)] at hp
      exact ⟨i, hi, (Option.some.inj hp).symm⟩
    · rintro ⟨i, hi, rfl⟩
      exact ⟨_, ⟨i, hi, rfl⟩, import?_importLine (h i hi)⟩

/-- Reads the names of a list. -/
theorem foldl_readImport_names {names : List String} (h : ∀ n ∈ names, IsIdentifier n)
    (before : List String) (read : List (String × String)) :
    (names.map fun n => "  " ++ n ++ ",").foldl (readImport .typescript) (some before, read) =
      (some (before ++ names), read) := by
  induction names generalizing before with
  | nil => simp
  | cons n rest ih =>
    obtain ⟨hn, hrest⟩ := List.forall_mem_cons.mp h
    have hstart : ∀ c ∈ ("  " ++ n ++ ",").toList.head?, c ∈ [' '] := by
      rw [String.append_assoc, head?_append (by decide)]
      rintro c ⟨⟩
      exact List.mem_singleton.mpr rfl
    have hclose : field? "\x7d from './" '\'' ("  " ++ n ++ ",").toList = none :=
      field?_eq_none hstart ⟨'\x7d', rfl, by decide⟩
    have hname : field? "  " ',' ("  " ++ n ++ ",").toList = some (n, ",".toList) :=
      field?_append (hn.not_mem (by decide)) rfl
    rw [List.map_cons, List.foldl_cons, readImport, hclose, hname]
    refine (ih hrest _).trans ?_
    rw [List.append_assoc]
    rfl

theorem reads_operationImports {entity : String} {ops : List Operation} (he : IsIdentifier entity)
    (h : ∀ op ∈ ops, op.WellNamed) : Reads .typescript (operationImports entity ops) []
      ((sortedNames (ops.flatMap fun op => [op.inputType, op.resultType])).map fun n =>
        (n, entity ++ ".model")) := by
  have hnames : ∀ n ∈ sortedNames (ops.flatMap fun op => [op.inputType, op.resultType]), IsIdentifier n := by
    intro n hn
    rw [mem_sortedNames, List.mem_flatMap] at hn
    obtain ⟨op, hop, hn⟩ := hn
    simp only [List.mem_cons, List.not_mem_nil, or_false] at hn
    rcases hn with rfl | rfl
    · exact (h op hop).inputType
    · exact (h op hop).resultType
  unfold operationImports
  dsimp only
  generalize sortedNames (ops.flatMap fun op => [op.inputType, op.resultType]) = names at hnames
  split
  · next hempty =>
    rw [List.isEmpty_iff.mp hempty]
    exact .nil _
  · have hlast : "\x7d from './" ++ entity ++ ".model';" = "\x7d from './" ++ (entity ++ ".model") ++ "';" := by
      rw [show ".model';" = ".model" ++ "';" from rfl]
      simp only [String.append_assoc]
    have hstem : IsLine (entity ++ ".model") ∧ '\'' ∉ (entity ++ ".model").toList :=
      (isLine_stem he (by decide)).imp_right And.left
    have hentry : ∀ n ∈ names, IsLineFrom [' '] ("  " ++ n ++ ",") := fun n hn => by
      rw [String.append_assoc]
      exact IsLineFrom.append (.of_chars rfl rfl) ((hnames n hn).isLine.append (.of_chars rfl)) (by decide)
    have hclose : IsLineFrom ['\x7d'] ("\x7d from './" ++ (entity ++ ".model") ++ "';") := by
      rw [String.append_assoc]
      exact IsLineFrom.append (.of_chars rfl rfl) (hstem.1.append (.of_chars rfl)) (by decide)
    have hstarts : ∀ line ∈ ["import type \x7b"] ++ (names.map fun n => "  " ++ n ++ ",") ++
        ["\x7d from './" ++ (entity ++ ".model") ++ "';"], IsLineFrom ['i', ' ', '\x7d'] line := by
      intro line hline
      rw [List.mem_append, List.mem_append, List.mem_singleton, List.mem_singleton, List.mem_map] at hline
      rcases hline with (rfl | ⟨n, hn, rfl⟩) | rfl
      · decide
      · exact (hentry n hn).mono (by simp)
      · exact hclose.mono (by simp)
    rw [hlast]
    refine ⟨fun line hline => (hstarts line hline).line, ?_, fun read => ?_⟩
    · refine List.filterMap_eq_nil_iff.mpr fun line hline => defined?_eq_none fun hm => ?_
      exact absurd ((hstarts line hline).start _ hm) (by decide)
    · have hopened : readImport .typescript (none, read) "import type \x7b" = (some [], read) := by
        rw [readImport, if_pos ⟨rfl, rfl⟩]
      have hread : field? "\x7d from './" '\'' ("\x7d from './" ++ (entity ++ ".model") ++ "';").toList =
          some (entity ++ ".model", "';".toList) := field?_append hstem.2 rfl
      have hended : readImport .typescript (some names, read) ("\x7d from './" ++ (entity ++ ".model") ++ "';") =
          (none, read ++ names.map fun n => (n, entity ++ ".model")) := by
        rw [readImport, hread]
      simp only [List.foldl_append, List.foldl_cons, List.foldl_nil]
      rw [hopened, foldl_readImport_names hnames, List.nil_append, hended]

/-! ## Selections -/

theorem mem_linesAll {l : String} {width : Nat} {parts : List Selection} :
    l ∈ Selection.linesAll width parts ↔ ∃ part ∈ parts, l ∈ Selection.lines width part := by
  induction parts with
  | nil => simp [Selection.linesAll]
  | cons part rest ih => rw [Selection.linesAll, List.mem_append, ih, List.exists_mem_cons_iff]

theorem isLineFrom_spaces (width : Nat) : IsLineFrom [' '] (Text.spaces (width + 1)) := by
  refine ⟨Text.isLine_spaces _, fun c hc => ?_⟩
  exact List.mem_singleton.mpr (Text.eq_of_mem_spaces (List.mem_of_mem_head? hc))

theorem isLineFrom_spaces_append (width : Nat) {text : String} (h : IsLine text) :
    IsLineFrom [' '] (Text.spaces (width + 1) ++ text) := by
  refine (isLineFrom_spaces width).append h ?_
  rw [ne_eq, ← String.toList_eq_nil_iff, Text.spaces, String.toList_ofList]
  exact List.cons_ne_nil _ _

/-- What is selected is written on indented lines. -/
theorem isLineFrom_selectFrom (hc : c.IsSound) (depth width : Nat) (path : List String)
    (he : e ∈ c.entityList) :
    ∀ l ∈ Selection.linesAll (width + 1) (Selection.selectFrom c depth path e), IsLineFrom [' '] l := by
  induction depth generalizing width path e with
  | zero => exact fun l hl => absurd hl List.not_mem_nil
  | succ depth ih =>
    intro l hl
    obtain ⟨part, hpart, hl⟩ := mem_linesAll.mp hl
    obtain ⟨a, ha, hselected⟩ := List.mem_filterMap.mp hpart
    have hname : IsLine a.name :=
      (isIdentifier_of_isCamelName (hc.camel _ e (hc.entity?_of_mem he) a ha)).isLine
    split at hselected
    · cases hselected
      rw [Selection.lines, List.mem_singleton] at hl
      exact hl ▸ isLineFrom_spaces_append width hname
    · next target htarget =>
      obtain ⟨n, -, hn⟩ := Option.bind_eq_some_iff.mp htarget
      have hmem : target ∈ c.entityList := hc.entities.mem_values_iff.mpr ⟨n, hn⟩
      split at hselected
      · cases hselected
      · dsimp only at hselected
        split at hselected
        · cases hselected
        · cases hselected
          rw [Selection.lines, List.mem_append, List.mem_append, List.mem_singleton,
            List.mem_singleton] at hl
          rcases hl with (rfl | hl) | rfl
          · rw [String.append_assoc]
            exact isLineFrom_spaces_append width (hname.append (.of_chars rfl))
          · exact ih (width + 2) _ hmem l hl
          · exact isLineFrom_spaces_append width (by decide)

theorem isLineFrom_ofName (hc : c.IsSound) (name : String) :
    ∀ l ∈ Selection.linesAll 8 (Selection.ofName c name), IsLineFrom [' '] l := by
  unfold Selection.ofName
  split
  · next e he => exact isLineFrom_selectFrom hc _ 7 [] (hc.entities.mem_values_iff.mpr ⟨name, he⟩)
  · exact fun l hl => absurd hl List.not_mem_nil

/-! ## Operations -/

/-- The lines between the one that defines an operation and those of its types. -/
def documentLines (selection : List Selection) (op : Operation) : List String :=
  let data := Selection.linesAll 8 selection
  ["  " ++ op.kind.keyword ++ " " ++ Naming.toPascal op.name ++ "($input: " ++ op.inputType ++ "!) \x7b",
    "    " ++ op.name ++ "(input: $input) \x7b", "      statusCode", "      message"] ++
    (if data.isEmpty then ["      data"] else ["      data \x7b"] ++ data ++ ["      \x7d"]) ++
    ["    \x7d", "  \x7d", "`;", ""]

theorem operationLines_eq (selection : List Selection) (op : Operation) : operationLines selection op =
    ["export const " ++ op.name ++ " = /* GraphQL */ `"] ++ documentLines selection op ++
      ["export type " ++ (Naming.toPascal op.name ++ "Variables") ++ (" = \x7b " ++
          ("input: " ++ op.inputType ++ " \x7d;"))] ++
        ["export type " ++ (Naming.toPascal op.name ++ "Result") ++ (" = \x7b " ++
          (op.name ++ (": " ++ op.resultType ++ " \x7d;")))] := by
  unfold operationLines documentLines
  dsimp only
  rw [show "Variables = \x7b input: " = "Variables" ++ " = \x7b " ++ "input: " from rfl,
    show "Result = \x7b " = "Result" ++ " = \x7b " from rfl]
  simp only [List.append_assoc, List.cons_append, List.nil_append, String.append_assoc]

theorem isLineFrom_documentLines {selection : List Selection}
    (hselection : ∀ l ∈ Selection.linesAll 8 selection, IsLineFrom [' '] l) (h : op.WellNamed) :
    ∀ l ∈ documentLines selection op, IsLineFrom [' ', '`'] l := by
  have hkeyword : IsLine op.kind.keyword := by cases op.kind <;> decide
  have hquery : IsLineFrom [' ', '`'] ("  " ++ op.kind.keyword ++ " " ++ Naming.toPascal op.name ++
      "($input: " ++ op.inputType ++ "!) \x7b") := by
    simp only [String.append_assoc]
    refine IsLineFrom.append (.of_chars rfl rfl) (hkeyword.append (IsLine.append (.of_chars rfl) ?_)) (by decide)
    exact (Naming.isIdentifier_toPascal op.name).isLine.append
      (IsLine.append (.of_chars rfl) (h.inputType.isLine.append (.of_chars rfl)))
  have hcall : IsLineFrom [' ', '`'] ("    " ++ op.name ++ "(input: $input) \x7b") := by
    rw [String.append_assoc]
    exact IsLineFrom.append (.of_chars rfl rfl) (h.name.isLine.append (.of_chars rfl)) (by decide)
  have hdata : ∀ l ∈ (if (Selection.linesAll 8 selection).isEmpty then ["      data"]
      else ["      data \x7b"] ++ Selection.linesAll 8 selection ++ ["      \x7d"]),
      IsLineFrom [' ', '`'] l := by
    split
    · decide
    · refine List.forall_mem_append.mpr ⟨List.forall_mem_append.mpr ⟨by decide, fun l hl => ?_⟩, by decide⟩
      exact (hselection l hl).mono (by simp)
  unfold documentLines
  refine List.forall_mem_append.mpr ⟨List.forall_mem_append.mpr ⟨?_, hdata⟩, by decide⟩
  exact List.forall_mem_cons.mpr ⟨hquery, List.forall_mem_cons.mpr ⟨hcall, by decide⟩⟩

/-- The line of a type that goes with an operation. -/
theorem reads_alias {body : String} (h : IsIdentifier n) (hbody : IsLine body) :
    Reads .typescript ["export type " ++ n ++ (" = \x7b " ++ body)] [n] [] := by
  refine .definition "type" ("= \x7b " ++ body) (by decide) (h.not_mem (by decide)) rfl ?_ ?_
  · rw [← String.append_assoc]
    rfl
  · exact (IsLine.append (.of_chars rfl) h.isLine).append (IsLine.append (.of_chars rfl) hbody)

/-- An operation is defined with its types. -/
theorem reads_operation {selection : List Selection}
    (hselection : ∀ l ∈ Selection.linesAll 8 selection, IsLineFrom [' '] l) (h : op.WellNamed) :
    Reads .typescript (operationLines selection op) (op.name :: op.clientTypes) [] := by
  have htitle : IsIdentifier (Naming.toPascal op.name) := Naming.isIdentifier_toPascal op.name
  have hconst : Reads .typescript ["export const " ++ op.name ++ " = /* GraphQL */ `"] [op.name] [] :=
    .definition "const" "= /* GraphQL */ `" (by decide) (h.name.not_mem (by decide)) rfl rfl
      ((IsLine.append (.of_chars rfl) h.name.isLine).append (.of_chars rfl))
  have hdocument : Reads .typescript (documentLines selection op) [] [] :=
    reads_plain fun l hl => (isLineFrom_documentLines hselection h l hl).mono (by simp)
  have hinput : IsLine ("input: " ++ op.inputType ++ " \x7d;") :=
    (IsLine.append (.of_chars rfl) h.inputType.isLine).append (.of_chars rfl)
  have hresult : IsLine (op.name ++ (": " ++ op.resultType ++ " \x7d;")) :=
    h.name.isLine.append ((IsLine.append (.of_chars rfl) h.resultType.isLine).append (.of_chars rfl))
  have hvariables : IsIdentifier (Naming.toPascal op.name ++ "Variables") := htitle.append (by decide)
  have hanswer : IsIdentifier (Naming.toPascal op.name ++ "Result") := htitle.append (by decide)
  rw [operationLines_eq]
  exact ((hconst.append hdocument).append (reads_alias hvariables hinput)).append (reads_alias hanswer hresult)

/-! ## Modules -/

variable {o : Options} {decls : Entity → List TypeDecl} {m : ModelModule} {text : String}

/-- Imports name the stem of a file. -/
theorem place_file (i : Import) : Target.typescript.place (i.file "ts") = i.stem := by
  rw [i.file_eq]
  exact HostModel.fileStem_append _ rfl

theorem reads_modelText {ds : List TypeDecl} (hds : ∀ d ∈ ds, d.WellNamed) (docs : Bool) :
    ReadBack c .typescript (.types e ds) (modelText (imports c ds) (ds.map (interface docs))) := by
  obtain ⟨imported, himports, hmem⟩ := reads_imports fun i hi => isIdentifier_of_mem_imports (c := c) hds hi
  have hblock : Reads .typescript
      (if (sortedNames ((imports c ds).map importLine)).isEmpty then []
        else sortedNames ((imports c ds).map importLine) ++ [""]) [] imported := by
    split
    · next hempty => exact List.isEmpty_iff.mp hempty ▸ himports
    · simpa only [List.append_nil] using himports.append (.empty _)
  have hinterfaces : Reads .typescript (spaced ((ds.map (interface docs)).map interfaceLines))
      (ds.flatMap fun d => [d.name]) [] := by
    rw [List.map_map]
    exact .spaced fun d hd => reads_interface (hds d hd) docs
  have hall := (reads_header.append hblock).append hinterfaces
  rw [List.nil_append, List.nil_append, List.nil_append, List.append_nil, ← List.map_eq_flatMap] at hall
  refine hall.readBack fun p => (hmem p).trans ?_
  unfold ModelModule.imported
  rw [List.mem_map]
  refine exists_congr fun i => and_congr_right' ?_
  rw [show Target.typescript.extension = "ts" from rfl, place_file]
  exact eq_comm

theorem reads_operationsText (hc : c.IsSound) {table : Table} {ops : List Operation}
    (ht : IsIdentifier table.name) (hops : ∀ op ∈ ops, op.WellNamed) :
    ReadBack c .typescript (.operations table ops)
      (operationsText table.name (Selection.ofName c table.name) ops) := by
  have hoperations : Reads .typescript
      (ops.flatMap fun op => "" :: operationLines (Selection.ofName c table.name) op)
      (ops.flatMap fun op => op.name :: op.clientTypes) (ops.flatMap fun _ => []) :=
    .flatMap fun op hop => (Reads.empty _).append (reads_operation (isLineFrom_ofName hc _) (hops op hop))
  have hall := (reads_header.append (reads_operationImports ht hops)).append hoperations
  rw [List.flatMap_eq_nil_iff.mpr fun _ _ => rfl, List.append_nil] at hall
  refine hall.readBack fun p => ?_
  have hplace := place_file (.model table.name)
  unfold ModelModule.imported
  rw [List.nil_append, List.append_nil, List.mem_map, List.mem_map]
  simp only [mem_sortedNames]
  exact hplace ▸ Iff.rfl

/-- A module of the client models is read back. -/
theorem readBack_of_text? (hc : c.IsSound) (hn : c.IsNamed) (hd : ∀ e ∈ c.entityList, Artifact e (decls e))
    (hm : m ∈ Target.typescript.modelModules c decls) (htext : m.text? o c .typescript = some text) :
    ReadBack c .typescript m text := by
  unfold Target.modelModules at hm
  simp only [List.mem_append, List.mem_map] at hm
  rcases hm with (⟨e, he, rfl⟩ | ⟨table, ht, rfl⟩) | ⟨enum, henum, rfl⟩
  all_goals cases htext
  · exact reads_modelText (fun d hdm => wellNamed_of_belongs hc hn he ((hd e he).belongs d hdm)) o.docs
  · have hname : IsIdentifier table.name := isIdentifier_entity hc (Catalog.mem_entityList_of_mem_tables ht)
    exact reads_operationsText hc hname fun op hop => wellNamed_of_mem_candidates hname (mem_kept_iff.mp hop).1
  · have hname := isIdentifier_of_isTypeName (hc.isTypeName_enum henum)
    exact (reads_enum hname (hn.values enum henum)).readBack fun p => by simp [ModelModule.imported]

/-! ## The last file -/

/-- The last file lists the files whose exports it takes over, and imports nothing. -/
theorem reads_indexText {files : List String} (h : ∀ file ∈ files, ∃ stem, file = stem ++ ".ts" ∧
    IsLine stem ∧ '\'' ∉ stem.toList) :
    Target.typescript.listing (indexText files) = (files.map fun file => (file, HostModel.fileStem file)) ∧
      Target.typescript.importsOf (indexText files) = [] := by
  have hstem : ∀ file ∈ files, HostModel.fileStem file ++ ".ts" = file ∧
      IsLine (HostModel.fileStem file) ∧ '\'' ∉ (HostModel.fileStem file).toList := by
    intro file hfile
    obtain ⟨stem, rfl, hstem⟩ := h file hfile
    rw [HostModel.fileStem_append _ rfl]
    exact ⟨rfl, hstem⟩
  have hlines : ∀ line ∈ header ++ files.map fun file => "export * from './" ++ HostModel.fileStem file ++ "';",
      IsLineFrom ['/', 'e'] line := by
    refine List.forall_mem_append.mpr ⟨fun l hl => (isLineFrom_header l hl).mono (by simp),
      List.forall_mem_map.mpr fun file hfile => ?_⟩
    rw [String.append_assoc]
    exact IsLineFrom.append (.of_chars rfl rfl) ((hstem file hfile).2.1.append (.of_chars rfl)) (by decide)
  have hlisted : ∀ file ∈ files,
      clientListing? ("export * from './" ++ HostModel.fileStem file ++ "';") =
        some (file, HostModel.fileStem file) := by
    intro file hfile
    unfold clientListing?
    rw [field?_append (hstem file hfile).2.2 rfl, Option.map_some, (hstem file hfile).1]
  have hheader : header.filterMap clientListing? = [] := by
    refine List.filterMap_eq_nil_iff.mpr fun l hl => ?_
    unfold clientListing?
    rw [field?_eq_none (isLineFrom_header l hl).start ⟨'e', rfl, by decide⟩, Option.map_none]
  have hread : Reads .typescript (header ++ files.map fun file =>
      "export * from './" ++ HostModel.fileStem file ++ "';") (List.filterMap Target.typescript.defined? _) [] :=
    .of_not_marked (fun line hline => (hlines line hline).line) rfl fun line hline hm =>
      absurd ((hlines line hline).start _ hm) (by decide)
  have htext : indexText files = unlines (header ++ files.map fun file =>
      "export * from './" ++ HostModel.fileStem file ++ "';") := rfl
  rw [htext]
  constructor
  · show (lines (unlines _)).filterMap clientListing? = _
    rw [lines_unlines fun line hline => (hlines line hline).line, List.filterMap_append, hheader,
      List.nil_append, List.filterMap_map]
    have hmap : files.filterMap (clientListing? ∘ fun file => "export * from './" ++ HostModel.fileStem file ++ "';") =
        files.filterMap (some ∘ fun file => (file, HostModel.fileStem file)) :=
      List.filterMap_congr fun file hfile => by simp only [Function.comp_apply, hlisted file hfile]
    rw [hmap, List.filterMap_eq_map]
  · exact hread.text.2

end SchemaGen.ClientModel
