import SchemaGen.Proofs.Document.EnumShapes
import SchemaGen.Proofs.Target.ClientLines
import SchemaGen.Proofs.Target.HostLines
import SchemaGen.Proofs.Target.Resolvers

/-!
# Enums read back

Three targets write an enum down, each in its own way: the API schema with a line for each value, the client
models with a member for each value, and the host models with a variant for each value, which occurs in the
definition, in the list of all variants and in the match that tells the value. Each of these is a block of
lines, from which the values are read again: all of them and in their order.

Results:
1. `ApiSchema.readEnum?_schemaText`, `ClientModel.readEnum?_enumText`, `HostModel.readEnum?_enumText`: the
   values that are read from what a target writes.
2. `listsValues_of_renderAll`: the files of a run list the values of every enum.
3. `oneShape_and_lists`: the catalog and the files together.
-/

namespace SchemaGen

open Emission Text

variable {α β γ : Type} {c : Catalog} {o : Options} {e : EnumType} {n : String}

/-- Lines that are each written for a member are each read as that member. -/
theorem mapM_map_eq_some {f : β → Option γ} {g : α → β} {k : α → γ} {xs : List α}
    (h : ∀ x ∈ xs, f (g x) = some (k x)) : (xs.map g).mapM f = some (xs.map k) := by
  induction xs with
  | nil => rfl
  | cons x rest ih =>
    obtain ⟨hx, hrest⟩ := List.forall_mem_cons.mp h
    rw [List.map_cons, List.mapM_cons, hx, ih hrest]
    rfl

/-- Texts differ if a character is in one of them alone. -/
theorem beq_eq_false_of_mem {s t : String} {x : Char} (ht : x ∈ t.toList) (hs : x ∉ s.toList) :
    (s == t) = false := beq_eq_false_iff_ne.mpr fun he => hs (he ▸ ht)

/-- A line is not among lines that all have a character that it lacks. -/
theorem not_mem_of_forall_mem {close : String} {x : Char} {ls : List String} (hclose : x ∉ close.toList)
    (h : ∀ l ∈ ls, x ∈ l.toList) : close ∉ ls := fun hm => hclose (h close hm)

theorem not_mem_append {x : Char} {s t : String} (hs : x ∉ s.toList) (ht : x ∉ t.toList) :
    x ∉ (s ++ t).toList := by
  rw [String.toList_append, List.mem_append, not_or]
  exact ⟨hs, ht⟩

/-! ## The API schema -/

namespace ApiSchema

/-- The line that starts the definition of an enum. -/
def enumStart (name : String) : String := "enum " ++ name ++ " \x7b"

/-- The value on a line of an enum. -/
def readValue? (line : String) : Option String := (after? "  " line.toList).map String.ofList

/-- The values that a schema defines for an enum. -/
def readEnum? (name text : String) : Option (List String) :=
  (block (· == enumStart name) "\x7d" (lines text)).mapM readValue?

theorem head?_enumStart (name : String) : (enumStart name).toList.head? = some 'e' := by
  unfold enumStart
  rw [String.append_assoc]
  exact head?_append (by decide)

theorem brace_mem_enumStart (name : String) : '\x7b' ∈ (enumStart name).toList := by
  unfold enumStart
  rw [String.toList_append]
  exact List.mem_append_right _ (by decide)

/-- The lines of an enum's definition, with the empty line before it. -/
def enumBlock (e : EnumType) : List String :=
  "" :: enumStart e.name :: ((e.values.map fun value => "  " ++ value) ++ ["\x7d"])

theorem isLine_enumBlock (hname : IsIdentifier e.name) (hvalues : ∀ value ∈ e.values, IsIdentifier value) :
    ∀ line ∈ enumBlock e, IsLine line := by
  have hstart : IsLine (enumStart e.name) := (IsLine.append (.of_chars rfl) hname.isLine).append (.of_chars rfl)
  refine List.forall_mem_cons.mpr ⟨by decide, List.forall_mem_cons.mpr
    ⟨hstart, List.forall_mem_append.mpr ⟨?_, by decide⟩⟩⟩
  exact List.forall_mem_map.mpr fun value hvalue => IsLine.append (.of_chars rfl) (hvalues value hvalue).isLine

/-- Another enum's lines do not start the definition of this one. -/
theorem not_enumStart {f : EnumType} (hne : f.name ≠ n) (hvalues : ∀ value ∈ f.values, IsIdentifier value) :
    ∀ line ∈ enumBlock f, (line == enumStart n) = false := by
  have hbrace := brace_mem_enumStart n
  refine List.forall_mem_cons.mpr ⟨beq_eq_false_of_mem hbrace (by decide), List.forall_mem_cons.mpr ⟨?_, ?_⟩⟩
  · refine beq_eq_false_iff_ne.mpr fun he => hne ?_
    exact (String.append_right_inj _).mp ((String.append_left_inj _).mp he)
  · refine List.forall_mem_append.mpr ⟨List.forall_mem_map.mpr fun value hvalue => ?_,
      List.forall_mem_singleton.mpr (beq_eq_false_of_mem hbrace (by decide))⟩
    refine beq_eq_false_of_mem hbrace ?_
    rw [String.toList_append, List.mem_append, not_or]
    exact ⟨by decide, (hvalues value hvalue).not_mem (by decide)⟩

theorem enums_eq_ok {enums : List Definition} {es : List EnumType} (h : es.mapM ApiSchema.enum = .ok enums) :
    enums = es.map fun e => .enum e.name e.values := by
  induction es generalizing enums with
  | nil =>
    cases h
    rfl
  | cons e rest ih =>
    rw [List.mapM_cons] at h
    obtain ⟨first, hfirst, h⟩ := bind_eq_ok.mp h
    obtain ⟨more, hmore, h⟩ := bind_eq_ok.mp h
    cases h
    rw [enum_eq_ok hfirst, ih hmore, List.map_cons]

/-- The lines before the definitions of a schema. -/
def schemaHead (generatedAt : Int) : List String :=
  ["# " ++ banner, "# Generated at " ++ Calendar.timestamp generatedAt]

theorem isLineFrom_schemaHead (generatedAt : Int) : ∀ line ∈ schemaHead generatedAt, IsLineFrom ['#'] line := by
  have hbanner : IsLine banner := .of_chars rfl
  exact List.forall_mem_cons.mpr ⟨IsLineFrom.append (.of_chars rfl rfl) hbanner (by decide),
    List.forall_mem_singleton.mpr (IsLineFrom.append (.of_chars rfl rfl) (isLine_timestamp _) (by decide))⟩

/-- The text of a schema that starts with the enums. -/
theorem schemaText_enums (generatedAt : Int) (es : List EnumType) (more : List Definition) :
    schemaText generatedAt ((es.map fun e => .enum e.name e.values) ++ more) =
      unlines (schemaHead generatedAt ++ es.flatMap enumBlock) ++
        unlines (more.flatMap fun d => "" :: definitionLines d) := by
  have hblocks : (es.map fun e => Definition.enum e.name e.values).flatMap
      (fun d => "" :: definitionLines d) = es.flatMap enumBlock := by
    rw [List.flatMap_map]
    rfl
  unfold schemaText schemaHead
  rw [List.flatMap_append, hblocks, ← unlines_append, List.append_assoc]

/-- Nothing before the definition of an enum starts it. -/
theorem not_enumStart_before {before : List EnumType}
    (h : ∀ f ∈ before, f.name ≠ n ∧ ∀ value ∈ f.values, IsIdentifier value) (generatedAt : Int) :
    ∀ line ∈ schemaHead generatedAt ++ before.flatMap enumBlock ++ [""], (line == enumStart n) = false := by
  refine List.forall_mem_append.mpr ⟨List.forall_mem_append.mpr ⟨fun line hline => ?_, fun line hline => ?_⟩,
    List.forall_mem_singleton.mpr (beq_eq_false_of_mem (brace_mem_enumStart n) (by decide))⟩
  · refine beq_eq_false_iff_ne.mpr fun heq => ?_
    have hstart := (isLineFrom_schemaHead generatedAt line hline).start 'e' (heq ▸ head?_enumStart n)
    exact absurd hstart (by decide)
  · obtain ⟨f, hf, hline⟩ := List.mem_flatMap.mp hline
    exact not_enumStart (h f hf).1 (h f hf).2 line hline

/-- The values of an enum are read again from a schema that starts with the enums. -/
theorem readEnum?_schemaText {es : List EnumType} (hnames : (es.map EnumType.name).Nodup)
    (hident : ∀ e ∈ es, IsIdentifier e.name ∧ ∀ value ∈ e.values, IsIdentifier value) (he : e ∈ es)
    (generatedAt : Int) (more : List Definition) :
    readEnum? e.name (schemaText generatedAt ((es.map fun e => .enum e.name e.values) ++ more)) =
      some e.values := by
  obtain ⟨before, after, rfl⟩ := List.append_of_mem he
  have hlines : ∀ line ∈ schemaHead generatedAt ++ (before ++ e :: after).flatMap enumBlock, IsLine line := by
    refine List.forall_mem_append.mpr
      ⟨fun line hline => (isLineFrom_schemaHead generatedAt line hline).line, fun line hline => ?_⟩
    obtain ⟨f, hf, hline⟩ := List.mem_flatMap.mp hline
    exact isLine_enumBlock (hident f hf).1 (hident f hf).2 line hline
  have hothers : ∀ f ∈ before, f.name ≠ e.name ∧ ∀ value ∈ f.values, IsIdentifier value := by
    intro f hf
    rw [List.map_append, List.map_cons, List.nodup_append] at hnames
    exact ⟨hnames.2.2 _ (List.mem_map_of_mem hf) _ List.mem_cons_self, (hident f (List.mem_append_left _ hf)).2⟩
  have hbefore := not_enumStart_before hothers generatedAt
  have hclose : "\x7d" ∉ e.values.map fun value => "  " ++ value := by
    refine not_mem_of_forall_mem (by decide : ' ' ∉ _) (List.forall_mem_map.mpr fun value _ => ?_)
    simp [String.toList_append]
  have hread : ∀ value ∈ e.values, readValue? ("  " ++ value) = some (id value) := fun value _ => by
    rw [readValue?, after?_append, Option.map_some, String.ofList_toList, id]
  have hsplit : schemaHead generatedAt ++ (before ++ e :: after).flatMap enumBlock ++
      lines (unlines (more.flatMap fun d => "" :: definitionLines d)) =
        (schemaHead generatedAt ++ before.flatMap enumBlock ++ [""]) ++ enumStart e.name ::
          ((e.values.map fun value => "  " ++ value) ++ "\x7d" ::
            (after.flatMap enumBlock ++ lines (unlines (more.flatMap fun d => "" :: definitionLines d)))) := by
    rw [List.flatMap_append, List.flatMap_cons, enumBlock]
    simp only [List.append_assoc, List.cons_append, List.nil_append]
  unfold readEnum?
  rw [schemaText_enums, lines_unlines_append hlines, hsplit, block_append hbefore (beq_self_eq_true _) hclose,
    mapM_map_eq_some hread, List.map_id]

end ApiSchema

/-! ## The client models -/

namespace ClientModel

/-- The line that starts the definition of an enum. -/
def enumStart (name : String) : String := "export enum " ++ name ++ " \x7b"

theorem head?_enumStart (name : String) : (enumStart name).toList.head? = some 'e' := by
  unfold enumStart
  rw [String.append_assoc]
  exact head?_append (by decide)

/-- The member on a line of an enum, and its value. -/
def readMember? (line : String) : Option (String × String) :=
  (field? "  " ' ' line.toList).bind fun member =>
    (field? " = '" '\'' member.2).map fun value => (member.1, value.1)

/-- The members of an enum in the text of its file, each with its value. -/
def readEnum? (name text : String) : Option (List (String × String)) :=
  (block (· == enumStart name) "\x7d" (lines text)).mapM readMember?

theorem readMember?_eq {value : String} (h : IsIdentifier value) :
    readMember? ("  " ++ value ++ " = '" ++ value ++ "',") = some (value, value) := by
  have hline : "  " ++ value ++ " = '" ++ value ++ "'," = "  " ++ value ++ (" = '" ++ value ++ "',") := by
    simp only [String.append_assoc]
  unfold readMember?
  rw [hline, field?_append (h.not_mem (by decide)) ?_, Option.bind_some,
    field?_append (h.not_mem (by decide)) rfl, Option.map_some]
  rw [String.append_assoc]
  exact head?_append (by decide)

theorem readEnum?_enumText (hname : IsIdentifier e.name) (hvalues : ∀ value ∈ e.values, IsIdentifier value) :
    readEnum? e.name (enumText e) = some (e.values.map fun value => (value, value)) := by
  have hbefore : ∀ line ∈ header, (line == enumStart e.name) = false := by
    intro line hline
    refine beq_eq_false_iff_ne.mpr fun heq => ?_
    have hstart := (isLineFrom_header line hline).start 'e' (heq ▸ head?_enumStart e.name)
    exact absurd hstart (by decide)
  have hclose : "\x7d" ∉ e.values.map fun value => "  " ++ value ++ " = '" ++ value ++ "'," := by
    refine not_mem_of_forall_mem (by decide : ' ' ∉ _) (List.forall_mem_map.mpr fun value _ => ?_)
    simp [String.toList_append]
  have hlines : lines (enumText e) = header ++ enumStart e.name ::
      ((e.values.map fun value => "  " ++ value ++ " = '" ++ value ++ "',") ++ ["\x7d"]) := by
    unfold enumText enumStart
    rw [lines_unlines (reads_enum hname hvalues).isLine]
    simp only [List.append_assoc, List.cons_append, List.nil_append]
  unfold readEnum?
  rw [hlines, block_append hbefore (beq_self_eq_true _) hclose]
  exact mapM_map_eq_some fun value hvalue => readMember?_eq (hvalues value hvalue)

end ClientModel

/-! ## The host models -/

namespace HostModel

/-- The line that starts the definition of an enum. -/
def enumStart (name : String) : String := "pub enum " ++ name ++ " \x7b"

/-- What the line that starts the list of all variants has before their number. -/
def allStart (name : String) : String := "    pub const ALL: [" ++ name ++ "; "

/-- The line that starts the match of the variants. -/
def matchStart : String := "        match self \x7b"

/-- The number on the line that starts the list of all variants. -/
def readLength? (name line : String) : Option String := (field? (allStart name) ']' line.toList).map Prod.fst

/-- The variants of a definition, each with the name that the line before it gives. -/
def readRenames? : List String → Option (List (String × String))
  | [] => some []
  | [_] => none
  | rename :: variant :: rest => do
    let value ← field? "    #[serde(rename = \"" '"' rename.toList
    let name ← field? "    " ',' variant.toList
    let more ← readRenames? rest
    return (name.1, value.1) :: more

/-- The variant on a line of the list of all variants. -/
def readVariant? (name line : String) : Option String :=
  (field? ("        " ++ name ++ "::") ',' line.toList).map Prod.fst

/-- The variant on a line of a match, and its value. -/
def readArm? (name line : String) : Option (String × String) :=
  (field? ("            " ++ name ++ "::") ' ' line.toList).bind fun variant =>
    (field? " => \"" '"' variant.2).map fun value => (variant.1, value.1)

/-- An enum as its file has it: the variants of the definition, each with the name under which it is read and
written; all variants, and their number; and the variants of the match, each with its value. -/
structure WrittenEnum where
  renames : List (String × String)
  length : String
  all : List String
  arms : List (String × String)
  deriving DecidableEq, Repr

/-- An enum in the text of its file. -/
def readEnum? (name text : String) : Option WrittenEnum := do
  let renames ← readRenames? (block (· == enumStart name) "\x7d" (lines text))
  let length ← (lines text).findSome? (readLength? name)
  let all ← (block (fun line => (readLength? name line).isSome) "    ];" (lines text)).mapM (readVariant? name)
  let arms ← (block (· == matchStart) "        \x7d" (lines text)).mapM (readArm? name)
  return ⟨renames, length, all, arms⟩

/-! ### Lines that start nothing -/

theorem head?_enumStart (name : String) : (enumStart name).toList.head? = some 'p' := by
  unfold enumStart
  rw [String.append_assoc]
  exact head?_append (by decide)

theorem head?_allStart (name : String) : (allStart name).toList.head? = some ' ' := by
  unfold allStart
  rw [String.append_assoc]
  exact head?_append (by decide)

theorem semicolon_mem_allStart (name : String) : ';' ∈ (allStart name).toList := by
  unfold allStart
  rw [String.toList_append]
  exact List.mem_append_right _ (by decide)

/-- The line stands at the margin, or it has none of two marks: neither the list of all variants nor the match
starts there. -/
def IsQuiet (l : String) : Prop :=
  (∀ c ∈ l.toList.head?, c ≠ ' ') ∨ ';' ∉ l.toList ∧ '\x7b' ∉ l.toList

theorem IsQuiet.of_isLineFrom {l : String} {starts : List Char} (h : IsLineFrom starts l) (hs : ' ' ∉ starts) :
    IsQuiet l := .inl fun d hd he => hs (he ▸ h.start d hd)

theorem IsQuiet.readLength?_eq_none {l : String} (h : IsQuiet l) (name : String) : readLength? name l = none := by
  have hnone : after? (allStart name) l.toList = none := by
    rcases h with h | ⟨h, -⟩
    · refine after?_eq_none_of_start (fun d hd => Option.mem_toList.mpr hd)
        ⟨' ', head?_allStart name, fun hm => ?_⟩
      exact h ' ' (Option.mem_toList.mp hm) rfl
    · exact after?_eq_none (semicolon_mem_allStart name) h
  unfold readLength? field?
  rw [hnone]
  rfl

theorem IsQuiet.ne_matchStart {l : String} (h : IsQuiet l) : (l == matchStart) = false := by
  refine beq_eq_false_iff_ne.mpr fun he => ?_
  subst he
  rcases h with h | ⟨-, h⟩
  · exact h ' ' rfl rfl
  · exact h (by decide)

/-! ### The lines of an enum -/

/-- The lines before the definition of an enum. -/
def enumFront (e : Enum) : List String :=
  header (e.name ++ " enum") ++ [deriveImport, ""] ++ e.doc ++
    ["#[derive(Debug, Clone, Copy, PartialEq, Eq, Hash, Serialize, Deserialize)]"]

/-- The lines of the variants in their definition. -/
def renameLines (e : Enum) : List String :=
  e.variants.flatMap fun v => ["    #[serde(rename = \"" ++ v.2 ++ "\")]", "    " ++ v.1 ++ ","]

/-- The lines of the variants in the list of all of them. -/
def variantLines (e : Enum) : List String := e.variants.map fun v => "        " ++ e.name ++ "::" ++ v.1 ++ ","

/-- The lines of the variants in the match. -/
def armLines (e : Enum) : List String :=
  e.variants.map fun v => "            " ++ e.name ++ "::" ++ v.1 ++ " => \"" ++ v.2 ++ "\","

/-- The line that starts the list of all variants. -/
def lengthLine (e : Enum) : String := allStart e.name ++ toString e.variants.length ++ "] = ["

/-- The lines before the list of all variants. -/
def linesToAll (e : Enum) : List String :=
  enumFront e ++ enumStart e.name :: (renameLines e ++ ["\x7d", "", "impl " ++ e.name ++ " \x7b"])

/-- The lines before the match. -/
def linesToMatch (e : Enum) : List String :=
  linesToAll e ++ lengthLine e :: (variantLines e ++
    ["    ];", "", "    pub fn as_str(&self) -> &'static str \x7b"])

section

variable {e : Enum} (hname : IsIdentifier e.name)
  (hvariants : ∀ v ∈ e.variants, IsIdentifier v.1 ∧ IsIdentifier v.2) (hdoc : ∀ l ∈ e.doc, IsLineFrom ['/'] l)

include hname hdoc

theorem isLineFrom_enumFront : ∀ l ∈ enumFront e, IsLineFrom ['/', 'u', '#'] l := by
  have htitle : IsLine (e.name ++ " enum") := hname.isLine.append (.of_chars rfl)
  unfold enumFront
  simp only [List.forall_mem_append]
  refine ⟨⟨⟨fun l hl => (isLineFrom_header htitle l hl).mono (by simp), ?_⟩,
    fun l hl => (hdoc l hl).mono (by simp)⟩, List.forall_mem_singleton.mpr (.of_chars rfl rfl)⟩
  exact List.forall_mem_cons.mpr ⟨.of_chars rfl rfl, List.forall_mem_singleton.mpr (.of_chars rfl rfl)⟩

include hvariants

/-- The lines of an enum's file, as the match parts them. -/
theorem lines_enumText : lines (enumText e) =
    linesToMatch e ++ matchStart :: (armLines e ++ "        \x7d" :: ["    \x7d", "\x7d"]) := by
  have hfront := isLineFrom_enumFront hname hdoc
  have hlines : ∀ l ∈ header (e.name ++ " enum") ++ [deriveImport, ""] ++ enumLines e, IsLine l := by
    refine List.forall_mem_append.mpr ⟨fun l hl => (hfront l ?_).line, ?_⟩
    · exact List.mem_append_left _ (List.mem_append_left _ hl)
    · exact (reads_enumLines hname hvariants fun l hl => (hdoc l hl).mono (by simp)).isLine
  unfold enumText
  rw [lines_unlines hlines, enumLines_eq]
  unfold linesToMatch linesToAll enumFront enumBody renameLines variantLines armLines
  simp only [List.append_assoc, List.cons_append, List.nil_append]
  rfl

omit hname hdoc in
theorem isQuiet_renameLines : ∀ l ∈ renameLines e, IsQuiet l := by
  intro l hl
  obtain ⟨v, hv, hl⟩ := List.mem_flatMap.mp hl
  obtain ⟨hvariant, hvalue⟩ := hvariants v hv
  simp only [List.mem_cons, List.not_mem_nil, or_false] at hl
  rcases hl with rfl | rfl
  · exact .inr ⟨not_mem_append (not_mem_append (by decide) (hvalue.not_mem (by decide))) (by decide),
      not_mem_append (not_mem_append (by decide) (hvalue.not_mem (by decide))) (by decide)⟩
  · exact .inr ⟨not_mem_append (not_mem_append (by decide) (hvariant.not_mem (by decide))) (by decide),
      not_mem_append (not_mem_append (by decide) (hvariant.not_mem (by decide))) (by decide)⟩

theorem isQuiet_linesToAll : ∀ l ∈ linesToAll e, IsQuiet l := by
  have hstart : IsLineFrom ['p'] (enumStart e.name) :=
    ⟨(IsLine.append (.of_chars rfl) hname.isLine).append (.of_chars rfl), fun d hd => by
      rw [head?_enumStart] at hd
      exact List.mem_singleton.mpr (Option.some.inj hd).symm⟩
  have himpl : IsLineFrom ['i'] ("impl " ++ e.name ++ " \x7b") := by
    rw [String.append_assoc]
    exact IsLineFrom.append (.of_chars rfl rfl) (hname.isLine.append (.of_chars rfl)) (by decide)
  have hclose : IsLineFrom ['\x7d'] "\x7d" := .of_chars rfl rfl
  have hempty : IsLineFrom [] "" := .of_chars rfl rfl
  unfold linesToAll
  refine List.forall_mem_append.mpr ⟨fun l hl => ?_, List.forall_mem_cons.mpr ⟨?_, ?_⟩⟩
  · exact .of_isLineFrom (isLineFrom_enumFront hname hdoc l hl) (by decide)
  · exact .of_isLineFrom hstart (by decide)
  · refine List.forall_mem_append.mpr ⟨isQuiet_renameLines hvariants, List.forall_mem_cons.mpr ⟨?_, ?_⟩⟩
    · exact .of_isLineFrom hclose (by decide)
    · exact List.forall_mem_cons.mpr ⟨.of_isLineFrom hempty (by decide),
        List.forall_mem_singleton.mpr (.of_isLineFrom himpl (by decide))⟩

theorem ne_matchStart_linesToMatch : ∀ l ∈ linesToMatch e, (l == matchStart) = false := by
  have hbrace : '\x7b' ∈ matchStart.toList := by decide
  have hlength : '\x7b' ∉ (lengthLine e).toList := by
    refine not_mem_append (not_mem_append ?_ ((isIdentifier_toString _).not_mem (by decide))) (by decide)
    exact not_mem_append (not_mem_append (by decide) (hname.not_mem (by decide))) (by decide)
  unfold linesToMatch
  refine List.forall_mem_append.mpr ⟨fun l hl => ?_, List.forall_mem_cons.mpr
    ⟨beq_eq_false_of_mem hbrace hlength, List.forall_mem_append.mpr ⟨?_, by decide⟩⟩⟩
  · exact (isQuiet_linesToAll hname hvariants hdoc l hl).ne_matchStart
  · refine List.forall_mem_map.mpr fun v hv => beq_eq_false_of_mem hbrace ?_
    refine not_mem_append (not_mem_append ?_ ((hvariants v hv).1.not_mem (by decide))) (by decide)
    exact not_mem_append (not_mem_append (by decide) (hname.not_mem (by decide))) (by decide)

/-! ### What is read -/

omit hname hvariants hdoc in
theorem readRenames?_eq {variants : List (String × String)}
    (h : ∀ v ∈ variants, IsIdentifier v.1 ∧ IsIdentifier v.2) :
    readRenames? (variants.flatMap fun v => ["    #[serde(rename = \"" ++ v.2 ++ "\")]", "    " ++ v.1 ++ ","]) =
      some variants := by
  induction variants with
  | nil => rfl
  | cons v rest ih =>
    obtain ⟨⟨hvariant, hvalue⟩, hrest⟩ := List.forall_mem_cons.mp h
    rw [List.flatMap_cons, List.cons_append, List.cons_append, List.nil_append, readRenames?,
      field?_append (hvalue.not_mem (by decide)) rfl, field?_append (hvariant.not_mem (by decide)) rfl, ih hrest]
    rfl

omit hname hdoc in
theorem readVariant?_eq : (variantLines e).mapM (readVariant? e.name) = some (e.variants.map Prod.fst) := by
  refine mapM_map_eq_some fun v hv => ?_
  unfold readVariant?
  rw [field?_append ((hvariants v hv).1.not_mem (by decide)) rfl, Option.map_some]

omit hname hdoc in
theorem readArm?_eq : (armLines e).mapM (readArm? e.name) = some e.variants := by
  have heach : ∀ v ∈ e.variants,
      readArm? e.name ("            " ++ e.name ++ "::" ++ v.1 ++ " => \"" ++ v.2 ++ "\",") = some (id v) := by
    intro v hv
    obtain ⟨hvariant, hvalue⟩ := hvariants v hv
    have hline : "            " ++ e.name ++ "::" ++ v.1 ++ " => \"" ++ v.2 ++ "\"," =
        ("            " ++ e.name ++ "::") ++ v.1 ++ (" => \"" ++ v.2 ++ "\",") := by
      simp only [String.append_assoc]
    have hstop : (" => \"" ++ v.2 ++ "\",").toList.head? = some ' ' := by
      rw [String.append_assoc]
      exact head?_append (by decide)
    unfold readArm?
    rw [hline, field?_append (hvariant.not_mem (by decide)) hstop, Option.bind_some,
      field?_append (hvalue.not_mem (by decide)) rfl, Option.map_some]
    rfl
  unfold armLines
  rw [mapM_map_eq_some heach, List.map_id]

omit hname hvariants hdoc in
theorem readLength?_lengthLine : readLength? e.name (lengthLine e) = some (toString e.variants.length) := by
  unfold readLength? lengthLine
  rw [field?_append ((isIdentifier_toString _).not_mem (by decide)) rfl, Option.map_some]

/-- The lines of an enum's file, as the list of all variants parts them. -/
theorem lines_enumText_all : lines (enumText e) = linesToAll e ++ lengthLine e :: (variantLines e ++ "    ];" ::
    (["", "    pub fn as_str(&self) -> &'static str \x7b"] ++
      matchStart :: (armLines e ++ "        \x7d" :: ["    \x7d", "\x7d"]))) := by
  rw [lines_enumText hname hvariants hdoc, linesToMatch]
  simp only [List.append_assoc, List.cons_append, List.nil_append]

theorem block_enumStart : block (· == enumStart e.name) "\x7d" (lines (enumText e)) = renameLines e := by
  have hfront : ∀ l ∈ enumFront e, (l == enumStart e.name) = false := by
    intro l hl
    refine beq_eq_false_iff_ne.mpr fun he => ?_
    have hstart := (isLineFrom_enumFront hname hdoc l hl).start 'p' (he ▸ head?_enumStart e.name)
    exact absurd hstart (by decide)
  have hclose : "\x7d" ∉ renameLines e := by
    refine not_mem_of_forall_mem (by decide : ' ' ∉ _) fun l hl => ?_
    obtain ⟨v, -, hl⟩ := List.mem_flatMap.mp hl
    simp only [List.mem_cons, List.not_mem_nil, or_false] at hl
    rcases hl with rfl | rfl <;> simp [String.toList_append]
  have hdefinition : ∃ after, lines (enumText e) =
      enumFront e ++ enumStart e.name :: (renameLines e ++ "\x7d" :: after) := by
    rw [lines_enumText_all hname hvariants hdoc, linesToAll]
    simp only [List.append_assoc, List.cons_append, List.nil_append]
    exact ⟨_, rfl⟩
  obtain ⟨after, hdefinition⟩ := hdefinition
  rw [hdefinition]
  exact block_append hfront (beq_self_eq_true _) hclose

theorem findSome?_readLength? :
    (lines (enumText e)).findSome? (readLength? e.name) = some (toString e.variants.length) := by
  have hnone : (linesToAll e).findSome? (readLength? e.name) = none := List.findSome?_eq_none_iff.mpr fun l hl =>
    (isQuiet_linesToAll hname hvariants hdoc l hl).readLength?_eq_none _
  rw [lines_enumText_all hname hvariants hdoc, List.findSome?_append, hnone, Option.none_or, List.findSome?_cons,
    readLength?_lengthLine]

theorem block_allStart :
    block (fun line => (readLength? e.name line).isSome) "    ];" (lines (enumText e)) = variantLines e := by
  have hclose : "    ];" ∉ variantLines e := by
    refine not_mem_of_forall_mem (by decide : ':' ∉ _) (List.forall_mem_map.mpr fun v _ => ?_)
    simp [String.toList_append]
  rw [lines_enumText_all hname hvariants hdoc]
  refine block_append (fun l hl => ?_) ?_ hclose
  · rw [(isQuiet_linesToAll hname hvariants hdoc l hl).readLength?_eq_none]
    rfl
  · rw [readLength?_lengthLine]
    rfl

theorem block_matchStart : block (· == matchStart) "        \x7d" (lines (enumText e)) = armLines e := by
  have hclose : "        \x7d" ∉ armLines e := by
    refine not_mem_of_forall_mem (by decide : ':' ∉ _) (List.forall_mem_map.mpr fun v _ => ?_)
    simp [String.toList_append]
  rw [lines_enumText hname hvariants hdoc]
  exact block_append (ne_matchStart_linesToMatch hname hvariants hdoc) (beq_self_eq_true _) hclose

/-- Every variant is read from each of the three places of an enum's file. -/
theorem readEnum?_enumText : readEnum? e.name (enumText e) =
    some ⟨e.variants, toString e.variants.length, e.variants.map Prod.fst, e.variants⟩ := by
  unfold readEnum?
  rw [block_enumStart hname hvariants hdoc, findSome?_readLength? hname hvariants hdoc,
    block_allStart hname hvariants hdoc, block_matchStart hname hvariants hdoc, renameLines,
    readRenames?_eq hvariants, readVariant?_eq hvariants, readArm?_eq hvariants]
  rfl

end

/-- The values of an enum are read again from its file, over variants that are all different. -/
theorem readEnum?_of_enum {made : Enum} {docs : Bool} (hname : IsIdentifier e.name)
    (hvalues : ∀ value ∈ e.values, IsIdentifier value) (h : HostModel.enum docs e = .ok made) :
    ∃ variants : List String, variants.Nodup ∧ variants.length = e.values.length ∧
      readEnum? e.name (enumText made) =
        some ⟨variants.zip e.values, toString e.values.length, variants, variants.zip e.values⟩ := by
  obtain ⟨variants, hvariants, rfl⟩ := map_eq_ok.mp h
  have hverdict : verdict (variantsFrom e.name [] e.values) = .ok () := by
    rw [hvariants]
    rfl
  have hpairs := variantsFrom_eq_ok hvariants
  have hread := readEnum?_enumText (e := ⟨typeDoc docs e.name none, e.name, variants⟩) hname
    (hpairs ▸ List.forall_mem_map.mpr fun v hv => ⟨isIdentifier_variantName v, hvalues v hv⟩)
    (isLineFrom_typeDoc hname docs none)
  refine ⟨e.values.map variantName, (verdict_variantsFrom_iff.mp hverdict).2.1, List.length_map _, hread.trans ?_⟩
  rw [hpairs, List.length_map, List.map_map, List.map_prod_right_eq_zip]
  rfl

end HostModel

/-! ## A run -/

/-- The files of the targets list the values of the enum, all of them and in their order: the API schema, the
client models with a member for each value, and the host models in three places over the same variants. -/
structure ListsValues (e : EnumType) (files : Target → Files) : Prop where
  schema : ∃ text, (files .graphql).get? ApiSchema.schemaFile = some text ∧
    ApiSchema.readEnum? e.name text = some e.values
  client : ∃ text, (files .typescript).get? (Naming.enumFile e.name "ts") = some text ∧
    ClientModel.readEnum? e.name text = some (e.values.map fun value => (value, value))
  host : ∃ text, (files .rust).get? (Naming.enumFile e.name "rs") = some text ∧
    ∃ variants : List String, variants.Nodup ∧ variants.length = e.values.length ∧
      HostModel.readEnum? e.name text =
        some ⟨variants.zip e.values, toString e.values.length, variants, variants.zip e.values⟩

variable {corpus : Corpus} {s : Settings} {staged : List StagedTarget} {t : Target} {r r' : Registry}
  {files : Files}

/-- The schema that a target renders lists the values of each enum. -/
theorem ApiSchema.exists_readEnum? (hc : c.IsSound) (hn : c.IsNamed) (hr : r.IsFresh .graphql)
    (h : Target.render o c .graphql r = (.ok files, r')) (he : e ∈ c.enumList) :
    ∃ text, files.get? schemaFile = some text ∧ readEnum? e.name text = some e.values := by
  obtain ⟨defs, r₁, hdefs, hfiles⟩ := Emit.bind_eq_ok.mp (Target.generate_of_render h)
  cases hfiles
  obtain ⟨ds, enums, hcomposed⟩ := composed_of_definitions hc hr hdefs
  have hident : ∀ e ∈ c.enumList, IsIdentifier e.name ∧ ∀ value ∈ e.values, IsIdentifier value := fun e he =>
    ⟨isIdentifier_of_isTypeName (hc.isTypeName_enum he), hn.values e he⟩
  refine ⟨schemaText o.generatedAt defs, (NameMap.get?_ofList ?_ _ _).mpr List.mem_cons_self, ?_⟩
  · exact List.nodup_singleton schemaFile
  · rw [hcomposed.eq, enums_eq_ok hcomposed.enums, List.append_assoc]
    exact readEnum?_schemaText (nodup_names_enumList hc) hident he _ _

/-- The module of an enum is among the files of a target that renders models. -/
theorem exists_enumModule (hc : c.IsSound) (ht : t ∈ Target.models) (hr : r.IsFresh t)
    (h : t.render o c r = (.ok files, r')) (he : e ∈ c.enumList) :
    ∃ text, (ModelModule.enum e).text? o c t = some text ∧
      files.get? (Naming.enumFile e.name t.extension) = some text := by
  obtain ⟨decls, hprinted⟩ := printed_of_render hc ht hr h
  exact hprinted.modules (.enum e) (List.mem_append_right _ (List.mem_map_of_mem he))

theorem listsValues_of_renderAll (hc : c.IsSound) (hn : c.IsNamed)
    (h : Run.renderAll s o c Target.all .empty = .ok staged) :
    ∃ files : Target → Files, staged = Target.all.map (fun t => ⟨s.outputDir t, files t⟩) ∧
      ∀ e ∈ c.enumList, ListsValues e files := by
  obtain ⟨files, hstaged, hfiles⟩ := Run.renderAll_isFresh h
  refine ⟨files, hstaged, fun e he => ?_⟩
  have hname := isIdentifier_of_isTypeName (hc.isTypeName_enum he)
  constructor
  case schema =>
    obtain ⟨r, r', hr, hrun⟩ := hfiles .graphql
    exact ApiSchema.exists_readEnum? hc hn hr hrun he
  case client =>
    obtain ⟨r, r', hr, hrun⟩ := hfiles .typescript
    obtain ⟨text, htext, hfile⟩ := exists_enumModule hc (by decide) hr hrun he
    cases htext
    exact ⟨_, hfile, ClientModel.readEnum?_enumText hname (hn.values e he)⟩
  case host =>
    obtain ⟨r, r', hr, hrun⟩ := hfiles .rust
    obtain ⟨text, htext, hfile⟩ := exists_enumModule hc (by decide) hr hrun he
    obtain ⟨made, hmade, rfl⟩ := Option.map_eq_some_iff.mp htext
    cases hworked : HostModel.enum o.docs e with
    | error fault =>
      rw [hworked] at hmade
      cases hmade
    | ok other =>
      rw [hworked] at hmade
      cases hmade
      exact ⟨_, hfile, HostModel.readEnum?_of_enum hname (hn.values e he) hworked⟩

/-- Wherever values of an enum are listed, it is the same values in the same order: in the documents, in the
catalog, in the attributes that name the enum, and in what the targets write. -/
theorem oneShape_and_lists (hp : corpus.IsParsed) (h : corpus.catalog = .ok c) :
    corpus.OneShape c ∧ ∀ (s : Settings) (o : Options) (staged : List StagedTarget),
      Run.renderAll s o c Target.all .empty = .ok staged →
        ∃ files : Target → Files, staged = Target.all.map (fun t => ⟨s.outputDir t, files t⟩) ∧
          ∀ e ∈ c.enumList, ListsValues e files :=
  ⟨Corpus.oneShape_of_catalog hp h, fun _ _ _ hrun =>
    listsValues_of_renderAll (Corpus.isSound_of_catalog hp h) (Corpus.isNamed_of_catalog hp h) hrun⟩

/-- The catalog of a table and an object type with two enums. -/
def ticketsCatalog : Catalog := tickets.catalog.toOption.getD .empty

theorem catalog_tickets : tickets.catalog = .ok ticketsCatalog := by decide +kernel

theorem oneShape_and_lists_tickets : tickets.IsParsed ∧ tickets.catalog = .ok ticketsCatalog ∧
    tickets.OneShape ticketsCatalog ∧
      ∀ s o, ∃ staged, Run.renderAll s o ticketsCatalog Target.all .empty = .ok staged ∧
        ∃ files : Target → Files, staged = Target.all.map (fun t => ⟨s.outputDir t, files t⟩) ∧
          ∀ e ∈ ticketsCatalog.enumList, ListsValues e files := by
  have hhost : ∀ docs, HostModel.check docs ticketsCatalog = .ok () := by decide +kernel
  have hapi : ApiSchema.check ticketsCatalog = .ok () := by decide +kernel
  obtain ⟨hshape, hlists⟩ := oneShape_and_lists tickets_isParsed catalog_tickets
  refine ⟨tickets_isParsed, catalog_tickets, hshape, fun s o => ?_⟩
  obtain ⟨staged, hrun⟩ := (Run.exists_renderAll_iff (s := s)
    (Corpus.isSound_of_catalog tickets_isParsed catalog_tickets)).mpr ⟨hhost o.docs, hapi⟩
  exact ⟨staged, hrun, hlists s o staged hrun⟩

end SchemaGen
