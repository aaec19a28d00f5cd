import SchemaGen.Proofs.Emission.Names
import SchemaGen.Proofs.Target.Imports
import SchemaGen.Proofs.Text.Lines

/-!
# Modules read back

A reader of the models goes through the lines of a module. A line may define a name; it may import a name, or
start or end a list of imported names; and in the last file it may list another module. What is read from
lines one after another is put together from what is read from blocks of them, so that a generated text can be
read block by block.

Results:
1. `defined?_eq`: the line of a definition.
2. `Reads.append`, `Reads.flatMap`, `Reads.spaced`: blocks put together.
3. `Reads.of_plain`: lines that start otherwise than definitions and imports.
4. `Reads.text`, `Reads.readBack`: what is read from a text.
-/

namespace SchemaGen.Target

variable {t : Target} {line n : String}

/-! ## Definitions -/

/-- What a definition that other modules can see starts with. -/
def visible : Target → String
  | .rust => "pub "
  | _ => "export "

/-- The character with which definitions start. -/
def visibleMark : Target → Char
  | .rust => 'p'
  | _ => 'e'

theorem head?_visible (t : Target) : t.visible.toList.head? = some t.visibleMark := by cases t <;> rfl

/-- The words for what is defined. -/
def kinds : Target → List String
  | .rust => ["struct", "enum"]
  | .typescript => ["interface", "enum", "const", "type"]
  | _ => []

/-- The name that a line defines: it follows the word for what is defined. -/
def defined? (t : Target) (line : String) : Option String := do
  let (kind, rest) ← Text.field? t.visible ' ' line.toList
  if kind ∈ t.kinds then (Text.field? " " ' ' rest).map Prod.fst else none

/-- The names that a text defines. -/
def definitions (t : Target) (text : String) : List String := (Text.lines text).filterMap t.defined?

theorem defined?_eq {kind rest : String} (hkind : kind ∈ t.kinds) (hn : ' ' ∉ n.toList) :
    t.defined? (t.visible ++ kind ++ (" " ++ n ++ (" " ++ rest))) = some n := by
  have hword : ' ' ∉ kind.toList := by
    have hall : ∀ kind ∈ t.kinds, ' ' ∉ kind.toList := by cases t <;> decide
    exact hall kind hkind
  have hspace : ∀ rest, (" " ++ rest).toList.head? = some ' ' := fun rest =>
    Text.head?_append (by decide)
  have hname : Text.field? " " ' ' (" " ++ n ++ (" " ++ rest)).toList = some (n, (" " ++ rest).toList) :=
    Text.field?_append hn (hspace rest)
  unfold defined?
  rw [Text.field?_append hword ?_]
  · show (if kind ∈ t.kinds then _ else none) = _
    rw [if_pos hkind, hname]
    rfl
  · rw [String.append_assoc]
    exact hspace _

theorem defined?_eq_none (h : t.visibleMark ∉ line.toList.head?) : t.defined? line = none := by
  have hstart : ∀ c ∈ line.toList.head?, c ∈ line.toList.head?.toList := fun c hc => Option.mem_toList.mpr hc
  unfold defined?
  rw [Text.field?_eq_none hstart ⟨t.visibleMark, t.head?_visible, fun hm => h (Option.mem_toList.mp hm)⟩]
  rfl

/-! ## Imports -/

/-- The import on a line of the host models: its name, and the module that it is from. -/
def hostImport? (line : String) : Option (String × String) :=
  (Text.field? "use super::" ':' line.toList).bind fun module =>
    (Text.field? "::" ';' module.2).map fun name => (name.1, module.1)

/-- The import on a line of the client models: its name, and the stem of the file that it is from. -/
def clientImport? (line : String) : Option (String × String) :=
  (Text.field? "import type \x7b " ' ' line.toList).bind fun name =>
    (Text.field? " \x7d from './" '\'' name.2).map fun stem => (name.1, stem.1)

/-- The import that is written on a line: its name, and the place that it is from. -/
def import? : Target → String → Option (String × String)
  | .rust => hostImport?
  | .typescript => clientImport?
  | _ => fun _ => none

/-- The imports that were read, and the names of a list that has not ended. -/
abbrev Imported := Option (List String) × List (String × String)

/-- Reads one more line: a list starts, goes on or ends, or the line is an import by itself. -/
def readImport (t : Target) : Imported → String → Imported
  | (none, read), line =>
    if t = .typescript ∧ line = "import type \x7b" then (some [], read)
    else (none, read ++ (t.import? line).toList)
  | (some names, read), line =>
    match Text.field? "\x7d from './" '\'' line.toList with
    | some (stem, _) => (none, read ++ names.map fun n => (n, stem))
    | none => (some (names ++ ((Text.field? "  " ',' line.toList).map Prod.fst).toList), read)

/-- The names that a text imports, each with the place that it is from. -/
def importsOf (t : Target) (text : String) : List (String × String) :=
  ((Text.lines text).foldl t.readImport (none, [])).2

/-- The character with which imports start. -/
def importMark : Target → Char
  | .rust => 'u'
  | _ => 'i'

/-- Nothing is imported by a line that starts otherwise. -/
theorem readImport_eq (h : t.importMark ∉ line.toList.head?) (read : List (String × String)) :
    t.readImport (none, read) line = (none, read) := by
  have hline : ∀ c ∈ line.toList.head?, c ∈ line.toList.head?.toList := fun c hc => Option.mem_toList.mpr hc
  have hnone : ∀ start stop, t.importMark ∈ start.toList.head? →
      Text.field? start stop line.toList = none := fun start stop hstart =>
    Text.field?_eq_none hline ⟨t.importMark, hstart, fun hm => h (Option.mem_toList.mp hm)⟩
  have himport : t.import? line = none := by
    cases t with
    | rust => exact congrArg (Option.bind · _) (hnone "use super::" ':' rfl)
    | typescript => exact congrArg (Option.bind · _) (hnone "import type \x7b " ' ' rfl)
    | graphql => rfl
    | infra => rfl
  rw [readImport, if_neg, himport, Option.toList_none, List.append_nil]
  rintro ⟨rfl, rfl⟩
  exact h rfl

/-! ## Blocks -/

/-- The lines are read as definitions of these names and as these imports. -/
structure Reads (t : Target) (lines : List String) (names : List String)
    (imported : List (String × String)) : Prop where
  isLine : ∀ line ∈ lines, Text.IsLine line
  defines : lines.filterMap t.defined? = names
  imports : ∀ read, lines.foldl t.readImport (none, read) = (none, read ++ imported)

variable {lines lines' names names' : List String} {imported imported' : List (String × String)}

theorem Reads.nil (t : Target) : Reads t [] [] [] := ⟨by simp, rfl, by simp⟩

theorem Reads.append (h : Reads t lines names imported) (h' : Reads t lines' names' imported') :
    Reads t (lines ++ lines') (names ++ names') (imported ++ imported') := by
  refine ⟨List.forall_mem_append.mpr ⟨h.isLine, h'.isLine⟩, ?_, fun read => ?_⟩
  · rw [List.filterMap_append, h.defines, h'.defines]
  · rw [List.foldl_append, h.imports, h'.imports, List.append_assoc]

theorem Reads.flatMap {α : Type} {xs : List α} {f g : α → List String} {i : α → List (String × String)}
    (h : ∀ x ∈ xs, Reads t (f x) (g x) (i x)) : Reads t (xs.flatMap f) (xs.flatMap g) (xs.flatMap i) := by
  induction xs with
  | nil => exact .nil t
  | cons x rest ih =>
    obtain ⟨hx, hrest⟩ := List.forall_mem_cons.mp h
    exact hx.append (ih hrest)

/-- Lines that define nothing and import nothing. -/
theorem Reads.of_not_marked (hl : ∀ line ∈ lines, Text.IsLine line)
    (hdefined : lines.filterMap t.defined? = names) (h : ∀ line ∈ lines, t.importMark ∉ line.toList.head?) :
    Reads t lines names [] := by
  refine ⟨hl, hdefined, fun read => ?_⟩
  rw [List.append_nil]
  clear hl hdefined
  induction lines with
  | nil => rfl
  | cons line rest ih =>
    obtain ⟨hline, hrest⟩ := List.forall_mem_cons.mp h
    rw [List.foldl_cons, readImport_eq hline]
    exact ih hrest

/-- Nothing is read from lines that start neither as definitions nor as imports do. -/
theorem Reads.of_plain {starts : List Char} (hvisible : t.visibleMark ∉ starts)
    (himport : t.importMark ∉ starts) (h : ∀ line ∈ lines, Text.IsLineFrom starts line) :
    Reads t lines [] [] := by
  refine .of_not_marked (fun line hline => (h line hline).line)
    (List.filterMap_eq_nil_iff.mpr fun line hline => defined?_eq_none fun hm => ?_)
    fun line hline hm => himport ((h line hline).start _ hm)
  exact hvisible ((h line hline).start _ hm)

theorem Reads.empty (t : Target) : Reads t [""] [] [] := by
  have hline : ∀ line ∈ [""], Text.IsLineFrom [] line := by decide
  exact .of_plain List.not_mem_nil List.not_mem_nil hline

/-- Blocks with empty lines between them. -/
theorem Reads.spaced {α : Type} {xs : List α} {f g : α → List String}
    (h : ∀ x ∈ xs, Reads t (f x) (g x) []) : Reads t (Text.spaced (xs.map f)) (xs.flatMap g) [] := by
  induction xs with
  | nil => exact .nil t
  | cons x rest ih =>
    obtain ⟨hx, hrest⟩ := List.forall_mem_cons.mp h
    cases rest with
    | nil =>
      rw [List.map_singleton, Text.spaced_singleton, List.flatMap_singleton]
      exact hx
    | cons y more =>
      rw [List.map_cons, List.map_cons, Text.spaced_cons_cons, List.flatMap_cons]
      exact hx.append ((Reads.empty t).append (ih hrest))

/-- A line that defines a name. -/
theorem Reads.definition {start rest : String} (kind more : String) (hkind : kind ∈ t.kinds)
    (hn : ' ' ∉ n.toList) (hstart : t.visible ++ kind ++ " " = start) (hrest : " " ++ more = rest)
    (hl : Text.IsLine (start ++ n ++ rest)) : Reads t [start ++ n ++ rest] [n] [] := by
  subst hstart hrest
  have hline : t.visible ++ kind ++ " " ++ n ++ (" " ++ more) =
      t.visible ++ kind ++ (" " ++ n ++ (" " ++ more)) := by
    simp only [String.append_assoc]
  have hvisible : t.visible ≠ "" := by cases t <;> decide
  rw [hline] at hl ⊢
  refine .of_not_marked (List.forall_mem_singleton.mpr hl)
    (List.filterMap_cons_some (defined?_eq hkind hn)) (List.forall_mem_singleton.mpr ?_)
  rw [String.append_assoc, Text.head?_append hvisible, t.head?_visible, Option.mem_some_iff]
  cases t <;> decide

/-- Lines that define nothing and start no list import what is written on them. -/
theorem Reads.importLines (hl : ∀ line ∈ lines, Text.IsLine line)
    (hlist : ∀ line ∈ lines, line ≠ "import type \x7b") (hdefined : ∀ line ∈ lines, t.defined? line = none) :
    Reads t lines [] (lines.filterMap t.import?) := by
  refine ⟨hl, List.filterMap_eq_nil_iff.mpr hdefined, ?_⟩
  clear hl hdefined
  induction lines with
  | nil => simp
  | cons line rest ih =>
    intro read
    obtain ⟨hopen, hopens⟩ := List.forall_mem_cons.mp hlist
    rw [List.foldl_cons, readImport, if_neg fun h => hopen h.2, ih hopens, List.append_assoc]
    cases himport : t.import? line with
    | none => rw [List.filterMap_cons_none himport, Option.toList_none, List.nil_append]
    | some p => rw [List.filterMap_cons_some himport, Option.toList_some, List.singleton_append]

/-- What is read from a text. -/
theorem Reads.text (h : Reads t lines names imported) :
    t.definitions (Text.unlines lines) = names ∧ t.importsOf (Text.unlines lines) = imported := by
  unfold definitions importsOf
  rw [Text.lines_unlines h.isLine, h.defines, h.imports]
  exact ⟨rfl, rfl⟩

/-! ## Last files -/

/-- The modules that lines of the host models declare, each with its file: the line of a module follows that
of its path. -/
def hostListing : List String → List (String × String)
  | path :: module :: rest =>
    match Text.field? "#[path = \"" '"' path.toList, Text.field? "pub mod " ';' module.toList with
    | some file, some name => (file.1, name.1) :: hostListing rest
    | _, _ => hostListing (module :: rest)
  | _ => []

/-- The file whose exports a line of the client models takes over, and the stem of its name. -/
def clientListing? (line : String) : Option (String × String) :=
  (Text.field? "export * from './" '\'' line.toList).map fun stem => (stem.1 ++ ".ts", stem.1)

/-- The files that the text of a last file lists, each with the place that imports name. -/
def listing : Target → String → List (String × String)
  | .rust, text => hostListing (Text.lines text)
  | .typescript, text => (Text.lines text).filterMap clientListing?
  | _, _ => []

end Target

/-! ## Modules -/

/-- The place that imports from a file name: the module of the file, or the stem of its name. -/
def Target.place : Target → String → String
  | .rust => HostModel.moduleOf
  | _ => HostModel.fileStem

/-- The names that a module imports, each with the place that it is from: what the fields call for that it
declares, or the types of its operations. -/
def ModelModule.imported (c : Catalog) (t : Target) : ModelModule → List (String × String)
  | .types _ decls => (imports c decls).map fun i => (i.name, t.place (i.file t.extension))
  | .operations table ops => (ops.flatMap fun op => [op.inputType, op.resultType]).map fun n =>
      (n, t.place (Naming.modelFile table.name t.extension))
  | .enum _ => []

/-- A reader of the text finds what the module exports and imports. -/
structure ReadBack (c : Catalog) (t : Target) (m : ModelModule) (text : String) : Prop where
  definitions : t.definitions text = m.exports
  imports : ∀ p, p ∈ t.importsOf text ↔ p ∈ m.imported c t

namespace Target

/-- Lines that are read as what a module exports and imports. -/
theorem Reads.readBack {c : Catalog} {m : ModelModule} (h : Reads t lines m.exports imported)
    (himports : ∀ p, p ∈ imported ↔ p ∈ m.imported c t) : ReadBack c t m (Text.unlines lines) :=
  ⟨h.text.1, h.text.2 ▸ himports⟩

end Target

/-- What the name of a file holds between the name of its entity or enum and the extension. -/
def fileMarks : List String := [".model", ".graphql", ".enum"]

theorem isLine_stem {n mark : String} (h : IsIdentifier n) (hmark : mark ∈ fileMarks) :
    Text.IsLine (n ++ mark) ∧ '\'' ∉ (n ++ mark).toList ∧ '"' ∉ (n ++ mark).toList := by
  have hmarks : ∀ mark ∈ fileMarks,
      Text.IsLine mark ∧ '\'' ∉ mark.toList ∧ '"' ∉ mark.toList := by decide
  obtain ⟨hline, hsingle, hdouble⟩ := hmarks mark hmark
  rw [String.toList_append, List.mem_append, List.mem_append, not_or, not_or]
  exact ⟨h.isLine.append hline, ⟨h.not_mem (by decide), hsingle⟩, ⟨h.not_mem (by decide), hdouble⟩⟩

/-- What a module of well-named types imports is well named. -/
theorem isIdentifier_of_mem_imports {c : Catalog} {ds : List TypeDecl} {i : Import}
    (hds : ∀ d ∈ ds, d.WellNamed) (hi : i ∈ imports c ds) : IsIdentifier i.name := by
  obtain ⟨d, hd, f, hf, hi⟩ := mem_imports_iff.mp hi
  have htype := ((hds d hd).fields f hf).type
  obtain ⟨shape, hs, ⟨n, hn, rfl⟩ | ⟨n, hn, -, -, rfl⟩⟩ := Field.import?_eq_some_iff.mp hi
  · exact htype shape hs n (.inl hn)
  · exact htype shape hs n (.inr hn)

end SchemaGen
