import SchemaGen.Proofs.Emission.Names
import SchemaGen.Proofs.Target.BlockStrings

/-!
# The API schema read back

A reader of the schema leaves out comments and descriptions; of the lines that are left, each opens a
definition, names one of its members, or closes it. A description is a block string and may say anything, also
what looks like a definition. If it can be closed, it leaves nothing but the indent before it; then every
definition is read with all of its members. If it cannot be closed, it takes what follows into its text.

Results:
1. `stripped?_description`: a block string is left out up to its closing quotes.
2. `Strips.description`: what a description leaves.
3. `yields_definition`: what is read from a definition.
4. `readSchema?_schemaText`: what is read from a schema.
-/

namespace SchemaGen.ApiSchema

open Text (IsLine)

variable {c : Char} {cs rest : List Char} {l l' n : String} {lines lines' left left' : List String}

/-! ## Readers -/

theorem map_nil_append {α : Type} (found : Option (List α)) : found.map ([] ++ ·) = found := Option.map_id'

theorem map_append_map {α : Type} (xs ys : List α) (found : Option (List α)) :
    (found.map (ys ++ ·)).map (xs ++ ·) = found.map (xs ++ ys ++ ·) := by
  rw [Option.map_map]
  exact congrFun (congrArg Option.map (funext fun more => (List.append_assoc xs ys more).symm)) found

/-- What holds of blocks of lines and what is read from each holds of the blocks put together. -/
theorem flatMap_of_append {α β : Type} {P : List String → List β → Prop} (hnil : P [] [])
    (happend : ∀ {ls ls' : List String} {ys ys' : List β}, P ls ys → P ls' ys' → P (ls ++ ls') (ys ++ ys'))
    {xs : List α} {f : α → List String} {g : α → List β} (h : ∀ x ∈ xs, P (f x) (g x)) :
    P (xs.flatMap f) (xs.flatMap g) := by
  induction xs with
  | nil => exact hnil
  | cons x rest ih =>
    obtain ⟨hx, hrest⟩ := List.forall_mem_cons.mp h
    exact happend hx (ih hrest)

/-! ## What is left out -/

/-- What a reader of the schema is within. -/
inductive Part where
  | definition | comment | description
  deriving DecidableEq, Repr

/-- The characters without comments and descriptions, if all descriptions are closed. -/
def stripped? : Part → List Char → Option (List Char)
  | .definition, [] => some []
  | .definition, '"' :: '"' :: '"' :: rest => stripped? .description rest
  | .definition, '#' :: rest => stripped? .comment rest
  | .definition, c :: rest => (stripped? .definition rest).map (c :: ·)
  | .comment, [] => some []
  | .comment, '\n' :: rest => (stripped? .definition rest).map ('\n' :: ·)
  | .comment, _ :: rest => stripped? .comment rest
  | .description, [] => none
  | .description, '\\' :: '"' :: '"' :: '"' :: rest => stripped? .description rest
  | .description, '"' :: '"' :: '"' :: rest => stripped? .definition rest
  | .description, _ :: rest => stripped? .description rest

/-- The characters start neither comments nor descriptions. -/
def IsBare (cs : List Char) : Prop := '"' ∉ cs ∧ '#' ∉ cs

instance (cs : List Char) : Decidable (IsBare cs) := inferInstanceAs (Decidable ('"' ∉ cs ∧ '#' ∉ cs))

theorem IsBare.append (h : IsBare cs) (h' : IsBare rest) : IsBare (cs ++ rest) := by
  unfold IsBare
  rw [List.mem_append, List.mem_append, not_or, not_or]
  exact ⟨⟨h.1, h'.1⟩, h.2, h'.2⟩

theorem stripped?_append (h : IsBare cs) (more : List Char) :
    stripped? .definition (cs ++ more) = (stripped? .definition more).map (cs ++ ·) := by
  induction cs with
  | nil => exact (map_nil_append _).symm
  | cons c rest ih =>
    obtain ⟨hquote, hcomment⟩ := h
    rw [List.mem_cons, not_or] at hquote hcomment
    rw [List.cons_append, stripped?.eq_4 _ _ (fun _ he => absurd he.symm hquote.1)
      fun he => hcomment.1 he.symm, ih ⟨hquote.2, hcomment.2⟩, Option.map_map]
    rfl

theorem stripped?_tripleQuote (rest : List Char) :
    stripped? .definition (tripleQuote.toList ++ rest) = stripped? .description rest := by
  rw [show tripleQuote.toList = ['"', '"', '"'] from rfl]
  exact stripped?.eq_2 rest

theorem stripped?_comment (h : '\n' ∉ cs) (more : List Char) :
    stripped? .comment (cs ++ '\n' :: more) = (stripped? .definition more).map ('\n' :: ·) := by
  induction cs with
  | nil => rfl
  | cons c rest ih =>
    rw [List.mem_cons, not_or] at h
    rw [List.cons_append, stripped?.eq_7 _ _ fun he => h.1 he.symm, ih h.2]

/-- Whatever holds a block string up to its closing quotes has as many characters as these. -/
theorem exists_three_of_readBlock? {read : List Char × List Char} (h : readBlock? cs = some read) :
    ∃ c₁ c₂ c₃ more, cs = c₁ :: c₂ :: c₃ :: more := by
  induction cs using readBlock?.induct generalizing read with
  | case1 => cases h
  | case2 rest => exact ⟨_, _, _, _, rfl⟩
  | case3 rest => exact ⟨_, _, _, _, rfl⟩
  | case4 c rest hescaped hclose ih =>
    rw [readBlock?.eq_4 _ _ hescaped hclose] at h
    obtain ⟨_, hread, -⟩ := Option.map_eq_some_iff.mp h
    obtain ⟨_, _, _, _, rfl⟩ := ih hread
    exact ⟨_, _, _, _, rfl⟩

/-- A block string is left out up to its closing quotes, whatever follows them. -/
theorem stripped?_description {read : List Char × List Char} (h : readBlock? cs = some read)
    (more : List Char) : stripped? .description (cs ++ more) = stripped? .definition (read.2 ++ more) := by
  induction cs using readBlock?.induct generalizing read with
  | case1 => cases h
  | case2 rest ih =>
    rw [readBlock?] at h
    obtain ⟨_, hread, rfl⟩ := Option.map_eq_some_iff.mp h
    have hrest := ih hread
    exact hrest
  | case3 rest =>
    cases h
    rfl
  | case4 c rest hescaped hclose ih =>
    rw [readBlock?.eq_4 _ _ hescaped hclose] at h
    obtain ⟨_, hread, rfl⟩ := Option.map_eq_some_iff.mp h
    -- as the block string is closed further on, what follows does not close it here
    obtain ⟨c₁, c₂, c₃, end', rfl⟩ := exists_three_of_readBlock? hread
    have hrest := ih hread
    rw [List.cons_append, stripped?.eq_11]
    · exact hrest
    · intro _ hc he
      simp only [List.cons_append, List.cons.injEq] at he
      exact hescaped end' hc (by rw [he.1, he.2.1, he.2.2.1])
    · intro _ hc he
      simp only [List.cons_append, List.cons.injEq] at he
      exact hclose (c₃ :: end') hc (by rw [he.1, he.2.1])

/-! ## What is left of lines -/

/-- A reader that leaves out comments and descriptions finds these lines in the place of those. -/
structure Strips (lines left : List String) : Prop where
  strips : ∀ more, stripped? .definition ((Text.unlines lines).toList ++ more) =
    (stripped? .definition more).map ((Text.unlines left).toList ++ ·)
  isLine : ∀ l ∈ left, IsLine l

theorem Strips.nil : Strips [] [] :=
  ⟨fun _ => (map_nil_append _).symm, by simp⟩

theorem Strips.append (h : Strips lines left) (h' : Strips lines' left') :
    Strips (lines ++ lines') (left ++ left') := by
  refine ⟨fun more => ?_, List.forall_mem_append.mpr ⟨h.isLine, h'.isLine⟩⟩
  rw [Text.unlines_append, Text.unlines_append, String.toList_append, String.toList_append, List.append_assoc,
    h.strips, h'.strips, map_append_map]

theorem toList_unlines_singleton (l : String) : (Text.unlines [l]).toList = l.toList ++ ['\n'] := by
  rw [Text.toList_unlines, List.flatMap_singleton]

/-- The characters that end lines or start comments and descriptions. -/
def lineMarks : List Char := ['\n', '\r', '"', '#']

/-- The text is part of a line without comments and descriptions. -/
def IsPlain (l : String) : Prop := ∀ x ∈ l.toList, lineMarks.contains x = false

/-- A text that is written out is judged by its characters. -/
theorem IsPlain.of_chars (h : (cs.all fun x => !lineMarks.contains x) = true) : IsPlain (String.ofList cs) := by
  unfold IsPlain
  rw [String.toList_ofList]
  exact fun x hx => (Bool.not_eq_true' _).mp (List.all_eq_true.mp h x hx)

theorem IsPlain.append (h : IsPlain l) (h' : IsPlain l') : IsPlain (l ++ l') := by
  unfold IsPlain
  rw [String.toList_append]
  exact List.forall_mem_append.mpr ⟨h, h'⟩

theorem IsPlain.not_mem (h : IsPlain l) (hc : lineMarks.contains c = true) : c ∉ l.toList := by
  intro hm
  rw [h c hm] at hc
  cases hc

theorem IsPlain.isLine (h : IsPlain l) : IsLine l :=
  ⟨h.not_mem rfl, fun hlast => h.not_mem rfl (List.mem_of_getLast? hlast)⟩

theorem IsPlain.isBare (h : IsPlain l) : IsBare l.toList := ⟨h.not_mem rfl, h.not_mem rfl⟩

theorem Strips.line (h : IsPlain l) : Strips [l] [l] := by
  refine ⟨fun more => ?_, List.forall_mem_singleton.mpr h.isLine⟩
  rw [toList_unlines_singleton]
  exact stripped?_append (h.isBare.append (by decide)) more

theorem Strips.comment {text : String} (h : IsLine text) : Strips ["#" ++ text] [""] := by
  refine ⟨fun more => ?_, by decide⟩
  rw [toList_unlines_singleton, toList_unlines_singleton, String.toList_append, List.append_assoc,
    List.append_assoc]
  exact stripped?_comment h.1 more

/-- The block string of the description is closed by its quotes. -/
def CanClose (text : String) : Prop := '\n' ∈ (Text.trim text).toList ∨ Closes (Text.trim text).toList

theorem isBare_spaces (n : Nat) : IsBare (Text.spaces n).toList :=
  ⟨Text.not_mem_spaces (by decide) n, Text.not_mem_spaces (by decide) n⟩

/-- A description that can be closed leaves the indent before it. -/
theorem Strips.description {text : String} (h : CanClose text) (n : Nat) :
    Strips (descriptionLines (Text.spaces n) text) [Text.spaces n] := by
  refine ⟨fun more => ?_, List.forall_mem_singleton.mpr (Text.isLine_spaces n)⟩
  have hread : blockText? (escape (heldText (Text.spaces n) text).toList ++ blockEnd) =
      some (heldText (Text.spaces n) text).toList := by
    rw [blockText?_escape, if_pos ((closes_heldText_iff n text).mpr h)]
  obtain ⟨read, hread, hend⟩ := Option.bind_eq_some_iff.mp hread
  split at hend
  · next hrest =>
    rw [unlines_descriptionLines (isBare_spaces n).1, toList_unlines_singleton, String.toList_append,
      List.append_assoc, List.append_assoc, stripped?_append (isBare_spaces n), stripped?_tripleQuote,
      stripped?_description hread, hrest, stripped?_append (by decide), map_append_map]
  · cases hend

/-! ## What is read from lines -/

/-- A member of a definition: its name, the input that it is given, and its type. -/
structure Member where
  name : String
  input : Option String
  type : Option String
  deriving DecidableEq, Repr

/-- A definition but for its descriptions: the word that it starts with, its name, and its members. -/
structure Outline where
  keyword : String
  name : Option String
  members : List Member
  deriving DecidableEq, Repr

/-- The definition that a line opens. -/
def opened? (line : String) : Option Outline :=
  (Text.field? "" ' ' line.toList).bind fun word =>
    if word.2 = " \x7b".toList then some ⟨word.1, none, []⟩
    else (Text.field? " " ' ' word.2).bind fun name =>
      if name.2 = " \x7b".toList then some ⟨word.1, some name.1, []⟩ else none

/-- The member on a line: a name alone, one with a type, or one that is given an input. -/
def member? (line : String) : Option Member :=
  (Text.field? "  " '(' line.toList).bind fun called =>
    if called.2 = [] then
      (Text.field? "" ':' called.1.toList).bind fun typed =>
        if typed.2 = [] then some ⟨typed.1, none, none⟩
        else (Text.after? ": " typed.2).map fun type => ⟨typed.1, none, some (String.ofList type)⟩
    else
      (Text.field? "(input: " ')' called.2).bind fun input =>
        (Text.after? "): " input.2).map fun type => ⟨called.1, some input.1, some (String.ofList type)⟩

/-- There are nothing but blanks on the line. -/
def isBlankLine (line : String) : Bool := line.toList.all (· == ' ')

/-- Reads lines, of which blank ones are passed over; a definition may have been opened. -/
def outlines? : Option Outline → List String → Option (List Outline)
  | none, [] => some []
  | some _, [] => none
  | none, line :: rest =>
    if isBlankLine line then outlines? none rest
    else (opened? line).bind fun d => outlines? (some d) rest
  | some d, line :: rest =>
    if isBlankLine line then outlines? (some d) rest
    else if line = "\x7d" then (outlines? none rest).map (d :: ·)
    else (member? line).bind fun m => outlines? (some { d with members := d.members ++ [m] }) rest

/-- The definitions that are read from the text of a schema. -/
def readSchema? (text : String) : Option (List Outline) :=
  (stripped? .definition text.toList).bind fun cs => outlines? none (Text.lines (String.ofList cs))

/-- A reader within a definition takes these members from the lines. -/
def Adds (lines : List String) (members : List Member) : Prop :=
  ∃ left, Strips lines left ∧ ∀ (d : Outline) (rest : List String), outlines? (some d) (left ++ rest) =
    outlines? (some { d with members := d.members ++ members }) rest

/-- A reader between definitions takes these definitions from the lines. -/
def Yields (lines : List String) (ds : List Outline) : Prop :=
  ∃ left, Strips lines left ∧ ∀ rest : List String, outlines? none (left ++ rest) =
    (outlines? none rest).map (ds ++ ·)

variable {ms ms' : List Member} {ds ds' : List Outline}

theorem Adds.nil : Adds [] [] := ⟨[], .nil, fun d rest => by rw [List.append_nil]; rfl⟩

theorem Adds.append (h : Adds lines ms) (h' : Adds lines' ms') : Adds (lines ++ lines') (ms ++ ms') := by
  obtain ⟨left, hstrips, hreads⟩ := h
  obtain ⟨left', hstrips', hreads'⟩ := h'
  refine ⟨_, hstrips.append hstrips', fun d rest => ?_⟩
  rw [List.append_assoc, hreads, hreads', List.append_assoc]

theorem Adds.flatMap {α : Type} {xs : List α} {f : α → List String} {g : α → List Member}
    (h : ∀ x ∈ xs, Adds (f x) (g x)) : Adds (xs.flatMap f) (xs.flatMap g) :=
  flatMap_of_append .nil .append h

theorem Yields.nil : Yields [] [] := ⟨[], .nil, fun _ => (map_nil_append _).symm⟩

theorem Yields.append (h : Yields lines ds) (h' : Yields lines' ds') : Yields (lines ++ lines') (ds ++ ds') := by
  obtain ⟨left, hstrips, hreads⟩ := h
  obtain ⟨left', hstrips', hreads'⟩ := h'
  refine ⟨_, hstrips.append hstrips', fun rest => ?_⟩
  rw [List.append_assoc, hreads, hreads', map_append_map]

theorem Yields.flatMap {α : Type} {xs : List α} {f : α → List String} {g : α → List Outline}
    (h : ∀ x ∈ xs, Yields (f x) (g x)) : Yields (xs.flatMap f) (xs.flatMap g) :=
  flatMap_of_append .nil .append h

/-- Blank lines are passed over. -/
theorem outlines?_blank (h : ∀ l ∈ left, isBlankLine l = true) (d : Option Outline) (rest : List String) :
    outlines? d (left ++ rest) = outlines? d rest := by
  induction left with
  | nil => rfl
  | cons l more ih =>
    obtain ⟨hl, hmore⟩ := List.forall_mem_cons.mp h
    rw [List.cons_append]
    cases d <;> rw [outlines?, if_pos hl, ih hmore]

theorem Yields.of_blank (h : Strips lines left) (hblank : ∀ l ∈ left, isBlankLine l = true) : Yields lines [] := by
  refine ⟨_, h, fun rest => ?_⟩
  rw [outlines?_blank hblank, map_nil_append]

theorem Adds.of_blank (h : Strips lines left) (hblank : ∀ l ∈ left, isBlankLine l = true) : Adds lines [] := by
  refine ⟨_, h, fun d rest => ?_⟩
  rw [outlines?_blank hblank, List.append_nil]

/-- A line that opens a definition, lines with its members, and one that closes it. -/
theorem Yields.of_opened {d : Outline} (hline : IsPlain l)
    (hblank : isBlankLine l = false) (hopened : opened? l = some d) (h : Adds lines ms) :
    Yields ([l] ++ lines ++ ["\x7d"]) [{ d with members := d.members ++ ms }] := by
  obtain ⟨left, hstrips, hreads⟩ := h
  refine ⟨_, ((Strips.line hline).append hstrips).append (.line (.of_chars rfl)),
    fun rest => ?_⟩
  have hclose : outlines? (some { d with members := d.members ++ ms }) ("\x7d" :: rest) =
      (outlines? none rest).map ({ d with members := d.members ++ ms } :: ·) := by
    rw [outlines?, if_neg (by decide), if_pos rfl]
  rw [List.append_assoc, List.append_assoc, List.singleton_append, outlines?, hblank, if_neg Bool.false_ne_true,
    hopened, Option.bind_some, hreads]
  exact hclose

/-- A line with a member. -/
theorem Adds.of_member {m : Member} (hline : IsPlain l)
    (hblank : isBlankLine l = false) (hclose : l ≠ "\x7d") (hmember : member? l = some m) :
    Adds [l] [m] := by
  refine ⟨_, .line hline, fun d rest => ?_⟩
  rw [List.singleton_append, outlines?, hblank, if_neg Bool.false_ne_true, if_neg hclose, hmember,
    Option.bind_some]

/-! ## Lines of definitions -/

/-- The characters that a type has besides a name. -/
def typeMarks : List Char := ['[', ']', '!']

/-- The text is a name or a type: besides the characters of names it has marks of types only. -/
def IsWord (s : String) : Prop := ∀ c ∈ s.toList, (isIdentChar c || typeMarks.contains c) = true

instance (s : String) : Decidable (IsWord s) :=
  decidable_of_iff ((s.toList.all fun c => isIdentChar c || typeMarks.contains c) = true) List.all_eq_true

theorem isWord_of_isIdentifier (h : IsIdentifier n) : IsWord n := by
  intro c hc
  rw [h c hc, Bool.true_or]

theorem IsWord.append (h : IsWord l) (h' : IsWord l') : IsWord (l ++ l') := by
  unfold IsWord
  rw [String.toList_append]
  exact List.forall_mem_append.mpr ⟨h, h'⟩

theorem IsWord.not_mem (h : IsWord l) (hc : (isIdentChar c || typeMarks.contains c) = false) :
    c ∉ l.toList := by
  intro hm
  rw [h c hm] at hc
  cases hc

theorem IsWord.isPlain (h : IsWord l) : IsPlain l := by
  have hmarks : (lineMarks.all fun x => !(isIdentChar x || typeMarks.contains x)) = true := rfl
  intro x hx
  rw [Bool.eq_false_iff]
  intro hm
  exact h.not_mem ((Bool.not_eq_true' _).mp (List.all_eq_true.mp hmarks x (List.contains_iff_mem.mp hm))) hx

theorem isBlankLine_append (s t : String) : isBlankLine (s ++ t) = (isBlankLine s && isBlankLine t) := by
  unfold isBlankLine
  rw [String.toList_append, List.all_append]

theorem isBlankLine_of_isIdentifier (h : IsIdentifier n) (hne : n ≠ "") : isBlankLine n = false := by
  unfold isBlankLine
  cases hn : n.toList with
  | nil => exact absurd (String.toList_eq_nil_iff.mp hn) hne
  | cons c rest =>
    have hc : c ≠ ' ' := fun he => h.not_mem (c := ' ') rfl (hn ▸ he ▸ List.mem_cons_self)
    rw [List.all_cons, beq_eq_false_iff_ne.mpr hc, Bool.false_and]

theorem opened?_eq {keyword : String} (hkeyword : IsIdentifier keyword) (hn : IsIdentifier n) :
    opened? (keyword ++ " " ++ n ++ " \x7b") = some ⟨keyword, some n, []⟩ := by
  have hword : Text.field? "" ' ' (keyword ++ " " ++ n ++ " \x7b").toList =
      some (keyword, (" " ++ n ++ " \x7b").toList) := by
    have hfield : Text.field? "" ' ' ("" ++ keyword ++ (" " ++ n ++ " \x7b")).toList =
        some (keyword, (" " ++ n ++ " \x7b").toList) :=
      Text.field?_append (hkeyword.not_mem rfl) (by rw [String.append_assoc]; exact Text.head?_append (by decide))
    rwa [String.empty_append, ← String.append_assoc, ← String.append_assoc] at hfield
  have hname : Text.field? " " ' ' (" " ++ n ++ " \x7b").toList = some (n, " \x7b".toList) :=
    Text.field?_append (hn.not_mem rfl) rfl
  have hlonger : (" " ++ n ++ " \x7b").toList ≠ " \x7b".toList := by
    intro he
    have hlength := congrArg List.length he
    rw [String.toList_append, String.toList_append, List.length_append, List.length_append] at hlength
    simp at hlength
  unfold opened?
  rw [hword, Option.bind_some, if_neg hlonger, hname, Option.bind_some, if_pos rfl]

/-- A line without an opening bracket names a member that is given no input. -/
theorem member?_eq {s : String} (h : '(' ∉ s.toList) : member? ("  " ++ s) =
    (Text.field? "" ':' s.toList).bind fun typed =>
      if typed.2 = [] then some ⟨typed.1, none, none⟩
      else (Text.after? ": " typed.2).map fun type => ⟨typed.1, none, some (String.ofList type)⟩ := by
  unfold member?
  rw [Text.field?_to_end h, Option.bind_some, if_pos rfl]

theorem member?_value (h : IsIdentifier n) : member? ("  " ++ n) = some ⟨n, none, none⟩ := by
  have hname : Text.field? "" ':' ("" ++ n).toList = some (n, []) := Text.field?_to_end (h.not_mem rfl)
  rw [String.empty_append] at hname
  rw [member?_eq (h.not_mem rfl), hname, Option.bind_some, if_pos rfl]

theorem member?_typed {type : String} (hn : IsIdentifier n) (ht : IsWord type) :
    member? ("  " ++ n ++ ": " ++ type) = some ⟨n, none, some type⟩ := by
  have hbracket : '(' ∉ (n ++ ": " ++ type).toList := by
    rw [String.toList_append, String.toList_append, List.mem_append, List.mem_append, not_or, not_or]
    exact ⟨⟨hn.not_mem rfl, by decide⟩, ht.not_mem rfl⟩
  have hname : Text.field? "" ':' (n ++ ": " ++ type).toList = some (n, (": " ++ type).toList) := by
    have hfield : Text.field? "" ':' ("" ++ n ++ (": " ++ type)).toList = some (n, (": " ++ type).toList) :=
      Text.field?_append (hn.not_mem rfl) (Text.head?_append (by decide))
    rwa [String.empty_append, ← String.append_assoc] at hfield
  have hne : (": " ++ type).toList ≠ [] := by
    rw [String.toList_append]
    exact List.append_ne_nil_of_left_ne_nil (by decide) _
  have hline : "  " ++ n ++ ": " ++ type = "  " ++ (n ++ ": " ++ type) := by simp only [String.append_assoc]
  rw [hline, member?_eq hbracket, hname, Option.bind_some, if_neg hne, Text.after?_append, Option.map_some,
    String.ofList_toList]

theorem member?_operationLine {op : Operation} (h : op.WellNamed) :
    member? (operationLine op) = some ⟨op.name, some (op.inputType ++ "!"), some op.resultType⟩ := by
  have hcalled : Text.field? "  " '(' (operationLine op).toList =
      some (op.name, ("(input: " ++ (op.inputType ++ "!") ++ ("): " ++ op.resultType)).toList) := by
    have hline : operationLine op = "  " ++ op.name ++
        ("(input: " ++ (op.inputType ++ "!") ++ ("): " ++ op.resultType)) := by
      unfold operationLine
      rw [show "!): " = "!" ++ "): " from rfl]
      simp only [String.append_assoc]
    rw [hline]
    refine Text.field?_append (h.name.not_mem rfl) ?_
    rw [String.append_assoc]
    exact Text.head?_append (by decide)
  have hinput : Text.field? "(input: " ')' ("(input: " ++ (op.inputType ++ "!") ++
      ("): " ++ op.resultType)).toList = some (op.inputType ++ "!", ("): " ++ op.resultType).toList) := by
    have hword : IsWord (op.inputType ++ "!") := (isWord_of_isIdentifier h.inputType).append (by decide)
    exact Text.field?_append (hword.not_mem rfl) (Text.head?_append (by decide))
  have hne : ("(input: " ++ (op.inputType ++ "!") ++ ("): " ++ op.resultType)).toList ≠ [] := by
    rw [String.append_assoc, String.toList_append]
    exact List.append_ne_nil_of_left_ne_nil (by decide) _
  unfold member?
  rw [hcalled, Option.bind_some, if_neg hne, hinput, Option.bind_some, Text.after?_append, Option.map_some,
    String.ofList_toList]

/-! ## Schemas -/

/-- The descriptions that a definition is written with. -/
def Definition.descriptions : Definition → List String
  | composite _ _ description fields => description.toList ++ fields.filterMap SdlField.description
  | _ => []

/-- What a definition says besides its descriptions. -/
def Definition.outline : Definition → Outline
  | enum name values => ⟨"enum", some name, values.map fun value => ⟨value, none, none⟩⟩
  | composite role name _ fields =>
    ⟨roleKeyword role, some name, fields.map fun f => ⟨f.name, none, some f.type⟩⟩
  | root kind ops =>
    ⟨"type", some kind.root, ops.map fun op => ⟨op.name, some (op.inputType ++ "!"), some op.resultType⟩⟩
  | schema kinds => ⟨"schema", none, kinds.map fun kind => ⟨kind.keyword, none, some kind.root⟩⟩

/-- The names that a definition is written with are identifiers, and its types are made from such; no value is
empty. -/
def Definition.WellNamed : Definition → Prop
  | enum name values => IsIdentifier name ∧ ∀ value ∈ values, IsIdentifier value ∧ value ≠ ""
  | composite _ name _ fields => IsIdentifier name ∧ ∀ f ∈ fields, IsIdentifier f.name ∧ IsWord f.type
  | root _ ops => ∀ op ∈ ops, op.WellNamed
  | schema _ => True

/-- What is left of descriptions that can be closed is blank. -/
theorem exists_strips_descriptionIf {text : Option String} (h : ∀ t ∈ text, CanClose t) (k : Nat) :
    ∃ left, Strips (descriptionIf (Text.spaces k) text) left ∧ ∀ l ∈ left, isBlankLine l = true := by
  cases text with
  | none => exact ⟨[], .nil, by simp⟩
  | some text =>
    refine ⟨_, .description (h text rfl) k, List.forall_mem_singleton.mpr (List.all_eq_true.mpr fun x hx => ?_)⟩
    exact beq_iff_eq.mpr (Text.eq_of_mem_spaces hx)

theorem isPlain_opening {keyword : String} (hkeyword : IsIdentifier keyword) (hn : IsIdentifier n) :
    IsPlain (keyword ++ " " ++ n ++ " \x7b") := by
  have hblank : IsPlain " " := .of_chars rfl
  have hword := (isWord_of_isIdentifier hkeyword).isPlain.append hblank
  exact (hword.append (isWord_of_isIdentifier hn).isPlain).append (.of_chars rfl)

/-- A definition of that word and name, with these members. -/
theorem yields_named {keyword : String} (hkeyword : IsIdentifier keyword) (hn : IsIdentifier n)
    (h : Adds lines ms) :
    Yields ([keyword ++ " " ++ n ++ " \x7b"] ++ lines ++ ["\x7d"]) [⟨keyword, some n, ms⟩] := by
  have hblank : isBlankLine (keyword ++ " " ++ n ++ " \x7b") = false := by
    rw [isBlankLine_append, show isBlankLine " \x7b" = false from rfl, Bool.and_false]
  exact .of_opened (isPlain_opening hkeyword hn) hblank (opened?_eq hkeyword hn) h

theorem indented_ne (s : String) : "  " ++ s ≠ "\x7d" := by
  intro he
  have hstart := congrArg (fun l => l.toList.head?) he
  simp at hstart

theorem adds_value (h : IsIdentifier n) (hne : n ≠ "") : Adds ["  " ++ n] [⟨n, none, none⟩] := by
  refine .of_member (.append (.of_chars rfl) (isWord_of_isIdentifier h).isPlain) ?_ (indented_ne n)
    (member?_value h)
  rw [isBlankLine_append, isBlankLine_of_isIdentifier h hne, Bool.and_false]

theorem adds_typed {type : String} (hn : IsIdentifier n) (ht : IsWord type) :
    Adds ["  " ++ n ++ ": " ++ type] [⟨n, none, some type⟩] := by
  have hline : "  " ++ n ++ ": " ++ type = "  " ++ (n ++ (": " ++ type)) := by simp only [String.append_assoc]
  have hindent : IsPlain "  " := .of_chars rfl
  have hplain : IsPlain ("  " ++ n ++ ": " ++ type) :=
    ((hindent.append (isWord_of_isIdentifier hn).isPlain).append (.of_chars rfl)).append ht.isPlain
  refine .of_member hplain ?_ (hline ▸ indented_ne _) (member?_typed hn ht)
  rw [isBlankLine_append, isBlankLine_append, show isBlankLine ": " = false from rfl, Bool.and_false,
    Bool.false_and]

theorem adds_operation {op : Operation} (h : op.WellNamed) :
    Adds [operationLine op] [⟨op.name, some (op.inputType ++ "!"), some op.resultType⟩] := by
  have hplain : ∀ n, IsIdentifier n → IsPlain n := fun n hn => (isWord_of_isIdentifier hn).isPlain
  have hindent : IsPlain "  " := .of_chars rfl
  have hmember := member?_operationLine h
  unfold operationLine at hmember ⊢
  refine .of_member ?_ ?_ ?_ hmember
  · exact ((((hindent.append (hplain _ h.name)).append (.of_chars rfl)).append
      (hplain _ h.inputType)).append (.of_chars rfl)).append (hplain _ h.resultType)
  · rw [isBlankLine_append, isBlankLine_append, show isBlankLine "!): " = false from rfl, Bool.and_false,
      Bool.false_and]
  · simp only [String.append_assoc]
    exact indented_ne _

theorem Adds.map {α : Type} {xs : List α} {f : α → String} {g : α → Member} (h : ∀ x ∈ xs, Adds [f x] [g x]) :
    Adds (xs.map f) (xs.map g) := by
  rw [List.map_eq_flatMap, List.map_eq_flatMap]
  exact Adds.flatMap h

theorem adds_fieldLines {f : SdlField} (hn : IsIdentifier f.name) (ht : IsWord f.type)
    (hclose : ∀ text ∈ f.description, CanClose text) : Adds (fieldLines f) [⟨f.name, none, some f.type⟩] := by
  obtain ⟨left, hstrips, hblank⟩ := exists_strips_descriptionIf hclose 2
  exact (Adds.of_blank hstrips hblank).append (adds_typed hn ht)

/-- A definition is read from its lines, whatever its descriptions say. -/
theorem yields_definition {d : Definition} (hd : d.WellNamed) (hclose : ∀ text ∈ d.descriptions, CanClose text) :
    Yields (definitionLines d) [d.outline] := by
  cases d with
  | enum name values =>
    unfold definitionLines
    rw [show "enum " = "enum" ++ " " from rfl]
    refine yields_named (by decide) hd.1 (Adds.map fun value hvalue => ?_)
    exact adds_value (hd.2 value hvalue).1 (hd.2 value hvalue).2
  | composite role name description fields =>
    have hkeyword : IsIdentifier (roleKeyword role) := by cases role <;> decide
    have hfields : Adds (fields.flatMap fieldLines) (fields.map fun f => ⟨f.name, none, some f.type⟩) := by
      rw [List.map_eq_flatMap]
      refine Adds.flatMap fun f hf => adds_fieldLines (hd.2 f hf).1 (hd.2 f hf).2 fun text htext => ?_
      exact hclose text (List.mem_append_right _ (List.mem_filterMap.mpr ⟨f, hf, htext⟩))
    obtain ⟨left, hstrips, hblank⟩ := exists_strips_descriptionIf
      (fun text htext => hclose text (List.mem_append_left _ (Option.mem_toList.mpr htext))) 0
    have hyields := (Yields.of_blank hstrips hblank).append (yields_named hkeyword hd.1 hfields)
    rw [← List.append_assoc, ← List.append_assoc] at hyields
    exact hyields
  | root kind ops =>
    have hname : IsIdentifier kind.root := by cases kind <;> decide
    unfold definitionLines
    rw [show "type " = "type" ++ " " from rfl]
    exact yields_named (by decide) hname (Adds.map fun op hop => adds_operation (hd op hop))
  | schema kinds =>
    have hkind : ∀ kind : OperationKind, IsIdentifier kind.keyword ∧ IsIdentifier kind.root := by
      intro kind
      cases kind <;> decide
    refine .of_opened (d := ⟨"schema", none, []⟩) (.of_chars rfl) rfl rfl (Adds.map fun kind _ => ?_)
    exact adds_typed (hkind kind).1 (isWord_of_isIdentifier (hkind kind).2)

theorem isIdentifier_padded (width k : Nat) : IsIdentifier (Calendar.padded width k) := by
  unfold Calendar.padded
  refine IsIdentifier.append ?_ (isIdentifier_toString k)
  unfold IsIdentifier
  rw [String.toList_ofList]
  exact fun d hd => (List.eq_of_mem_replicate hd) ▸ rfl

theorem isLine_timestamp (seconds : Int) : IsLine (Calendar.timestamp seconds) := by
  have hpadded : ∀ width k, IsLine (Calendar.padded width k) := fun width k =>
    (isIdentifier_padded width k).isLine
  have hyear : ∀ year, IsLine (Calendar.yearText year) := by
    intro year
    unfold Calendar.yearText
    split
    · exact hpadded _ _
    · refine IsLine.append ?_ (hpadded _ _)
      split <;> decide
  unfold Calendar.timestamp
  simp only [String.append_assoc]
  refine (hyear _).append (IsLine.append (by decide) ((hpadded _ _).append (IsLine.append (by decide) ?_)))
  refine (hpadded _ _).append (IsLine.append (by decide) ((hpadded _ _).append (IsLine.append (by decide) ?_)))
  exact (hpadded _ _).append (IsLine.append (by decide) ((hpadded _ _).append (by decide)))

/-- The block strings of all descriptions are closed by their quotes. -/
def AllClose (defs : List Definition) : Prop := ∀ d ∈ defs, ∀ text ∈ d.descriptions, CanClose text

/-- The definitions of a schema are read back from its text, if its descriptions can be closed. -/
theorem readSchema?_schemaText {defs : List Definition} (hd : ∀ d ∈ defs, d.WellNamed) (hclose : AllClose defs)
    (generatedAt : Int) :
    readSchema? (schemaText generatedAt defs) = some (defs.map Definition.outline) := by
  have hcomment : ∀ text, IsLine text → Yields ["#" ++ text] [] := fun text htext =>
    .of_blank (.comment htext) (by decide)
  have hhead : Yields ["# " ++ banner, "# Generated at " ++ Calendar.timestamp generatedAt] [] := by
    have hbanner : IsLine banner := .of_chars rfl
    have hfirst := hcomment (" " ++ banner) (IsLine.append (.of_chars rfl) hbanner)
    have hsecond := hcomment (" Generated at " ++ Calendar.timestamp generatedAt)
      (IsLine.append (.of_chars rfl) (isLine_timestamp _))
    rw [← String.append_assoc, show "#" ++ " " = "# " from rfl] at hfirst
    rw [← String.append_assoc, show "#" ++ " Generated at " = "# Generated at " from rfl] at hsecond
    exact hfirst.append hsecond
  have hempty : Yields [""] [] := .of_blank (.line (.of_chars rfl)) (by decide)
  have hdefs : Yields (defs.flatMap fun d => "" :: definitionLines d) (defs.map Definition.outline) := by
    rw [List.map_eq_flatMap]
    exact .flatMap fun d hm => hempty.append (yields_definition (hd d hm) (hclose d hm))
  obtain ⟨left, hstrips, hreads⟩ := hhead.append hdefs
  have hleft : stripped? .definition (schemaText generatedAt defs).toList = some (Text.unlines left).toList := by
    have hall := hstrips.strips []
    rw [List.append_nil, stripped?, Option.map_some, List.append_nil] at hall
    exact hall
  have hlines := hreads []
  rw [List.append_nil, outlines?, Option.map_some, List.append_nil, List.nil_append] at hlines
  unfold readSchema?
  rw [hleft, Option.bind_some, String.ofList_toList, Text.lines_unlines hstrips.isLine, hlines]

/-- A description may look like a definition. -/
example : readSchema? (Text.unlines (definitionLines (.composite .input "Point" (some "input P \x7b\n\x7d")
    [⟨none, "x", "Int!"⟩]))) = some [⟨"input", some "Point", [⟨"x", none, some "Int!"⟩]⟩] := by
  decide +kernel

/-- One that cannot be closed takes the definition into its text. -/
example : readSchema? (Text.unlines (definitionLines (.composite .input "Point" (some "see C:\\")
    [⟨none, "x", "Int!"⟩]))) = none := by
  decide +kernel

end SchemaGen.ApiSchema
