import SchemaGen.Proofs.Document.Accepted
import SchemaGen.Proofs.Naming.Modules
import SchemaGen.Proofs.PlainPath

/-!
# Type expressions

The type of an attribute is written as the name of a scalar or of a type, or as `array<…>` around one of
them, with blanks around the whole and inside the brackets. This grammar is said here without the reader,
as the texts that each shape can be written as, and the reader decides it: what it cuts off are the blanks
and the brackets, a scalar's name is never a type's, and neither of them is an `array<…>`.

The reader has a check of its own for the names of types. It lets pass what the loader admits as a name,
for documents as well as for enums.

Results:
1. `Text.trimChars_of_padded`, `Text.padded_trimChars`: trimming takes off the blanks around a text.
2. `Element.read?_eq_some_iff`, `arrayElement?_eq_some_iff`: names and brackets are read as they are written.
3. `parse?_eq_some_iff`: an expression is read as a shape exactly if it is one of the shape's expressions.
4. `parse?_describe`: the description of a shape that was read is read as the shape.
5. `Rules.isAdmitted_iff`: the names that the loader admits.
6. `parse_spec`: the three together.
-/

namespace SchemaGen

/-! ## Blanks around a text -/

namespace Text

/-- A text with blanks around it. -/
inductive Padded (token : List Char) : List Char → Prop
  | intro {before after : List Char} (front : ∀ c ∈ before, isBlank c = true)
      (back : ∀ c ∈ after, isBlank c = true) : Padded token (before ++ (token ++ after))

/-- A text that neither starts nor ends with a blank. -/
structure IsSolid (token : List Char) : Prop where
  first : ∃ c, token.head? = some c ∧ isBlank c = false
  last : ∃ c, token.getLast? = some c ∧ isBlank c = false

theorem Padded.refl (token : List Char) : Padded token token := by
  have h : Padded token ([] ++ (token ++ [])) := .intro (List.forall_mem_nil _) (List.forall_mem_nil _)
  rwa [List.nil_append, List.append_nil] at h

theorem padded_trimChars (cs : List Char) : Padded (trimChars cs) cs := by
  -- the blanks in front are cut first, and the others from the end of the rest
  have hback : (trimLeft cs).reverse.takeWhile isBlank ++ (trimChars cs).reverse = (trimLeft cs).reverse := by
    unfold trimChars trimRight
    rw [List.reverse_reverse, List.takeWhile_append_dropWhile]
  have hcs : cs.takeWhile isBlank ++ (trimChars cs ++ ((trimLeft cs).reverse.takeWhile isBlank).reverse) = cs := by
    have hrest := congrArg List.reverse hback
    rw [List.reverse_append, List.reverse_reverse, List.reverse_reverse] at hrest
    rw [hrest]
    exact List.takeWhile_append_dropWhile
  have h : Padded (trimChars cs)
      (cs.takeWhile isBlank ++ (trimChars cs ++ ((trimLeft cs).reverse.takeWhile isBlank).reverse)) :=
    .intro (List.all_eq_true.mp List.all_takeWhile) fun c hc =>
      List.all_eq_true.mp List.all_takeWhile c (List.mem_reverse.mp hc)
  rwa [hcs] at h

theorem trimLeft_of_head {cs : List Char} {c : Char} (h : cs.head? = some c) (hc : isBlank c = false) :
    trimLeft cs = cs := by
  obtain ⟨rest, rfl⟩ := List.head?_eq_some_iff.mp h
  exact List.dropWhile_cons_of_neg (by rw [hc]; exact Bool.false_ne_true)

theorem trimRight_eq (cs : List Char) : trimRight cs = (trimLeft cs.reverse).reverse := rfl

theorem trimLeft_append {before : List Char} (h : ∀ c ∈ before, isBlank c = true) (cs : List Char) :
    trimLeft (before ++ cs) = trimLeft cs := List.dropWhile_append_of_pos h

theorem trimChars_of_padded {token cs : List Char} (ht : IsSolid token) (h : Padded token cs) :
    trimChars cs = token := by
  obtain ⟨front, back⟩ := h
  next before after =>
  obtain ⟨first, hfirst, hfront⟩ := ht.first
  obtain ⟨last, hlast, hback⟩ := ht.last
  have hhead : (token ++ after).head? = some first := by rw [List.head?_append, hfirst, Option.some_or]
  have hend : token.reverse.head? = some last := by rw [List.head?_reverse, hlast]
  unfold trimChars
  rw [trimLeft_append front, trimLeft_of_head hhead hfront, trimRight_eq, List.reverse_append,
    trimLeft_append fun c hc => back c (List.mem_reverse.mp hc), trimLeft_of_head hend hback,
    List.reverse_reverse]

theorem isBlank_of_isAlphanum {c : Char} (h : c.isAlphanum = true) : isBlank c = false := by
  unfold Char.isAlphanum Char.isAlpha Char.isUpper Char.isLower Char.isDigit at h
  simp only [Bool.or_eq_true, Bool.and_eq_true, decide_eq_true_eq, ge_iff_le, UInt32.le_iff_toNat_le] at h
  change ((65 ≤ c.toNat ∧ c.toNat ≤ 90) ∨ (97 ≤ c.toNat ∧ c.toNat ≤ 122)) ∨
    (48 ≤ c.toNat ∧ c.toNat ≤ 57) at h
  simp only [isBlank, blankRanges, List.any_cons, List.any_nil, Bool.or_eq_false_iff, Bool.and_eq_false_iff,
    decide_eq_false_iff_not, Bool.or_false]
  omega

end Text

/-! ## Names in an expression -/

theorem Scalar.ofName?_eq_some_iff {token : String} {s : Scalar} : ofName? token = some s ↔ token = s.name := by
  constructor
  · intro h
    unfold ofName? at h
    have hname := List.find?_some h
    exact (beq_iff_eq.mp hname).symm
  · rintro rfl
    exact ofName?_name s

namespace Shape

/-- The text of an array, around what stands in its brackets. -/
def bracketed (inside : List Char) : List Char := "array<".toList ++ (inside ++ ['>'])

/-- What is named in a type expression: a scalar, or a type. -/
inductive Element where
  | scalar (type : Scalar)
  | type (name : String)

namespace Element

/-- The name as it is written. -/
def token : Element → List Char
  | .scalar s => s.name.toList
  | .type name => name.toList

/-- The name of a type is a proper one. -/
def IsProper : Element → Prop
  | .scalar _ => True
  | .type name => name.toList ∈ Pattern.typeName

/-- The shape of a single one. -/
def shape : Element → Shape
  | .scalar s => .scalar s
  | .type name => .reference name

/-- The shape of an array of them. -/
def arrayShape : Element → Shape
  | .scalar s => .scalarArray s
  | .type name => .referenceArray name

/-- What a name names. -/
def read? (cs : List Char) : Option Element :=
  match Scalar.ofName? (String.ofList cs) with
  | some s => some (.scalar s)
  | none => if isTypeName cs then some (.type (String.ofList cs)) else none

theorem not_isTypeName_scalar (s : Scalar) : isTypeName s.name.toList = false := by cases s <;> rfl

theorem read?_eq_some_iff {cs : List Char} {e : Element} : read? cs = some e ↔ e.IsProper ∧ e.token = cs := by
  unfold read?
  cases hs : Scalar.ofName? (String.ofList cs) with
  | some s =>
    have hcs : s.name.toList = cs := by rw [← Scalar.ofName?_eq_some_iff.mp hs, String.toList_ofList]
    constructor
    · intro h
      cases h
      exact ⟨trivial, hcs⟩
    · rintro ⟨hproper, htoken⟩
      cases e with
      | scalar s' =>
        have hname : s'.name = s.name := String.toList_inj.mp (htoken.trans hcs.symm)
        rw [← Scalar.ofName?_name s, ← hname, Scalar.ofName?_name]
      | type name =>
        -- the pattern of names keeps the names of scalars out
        have htype : isTypeName name.toList = true := Pattern.mem_typeName_iff.mp hproper
        have hname : name.toList = s.name.toList := htoken.trans hcs.symm
        rw [hname, not_isTypeName_scalar] at htype
        cases htype
  | none =>
    constructor
    · intro h
      obtain ⟨htype, he⟩ := Option.ite_none_right_eq_some.mp h
      cases he
      exact ⟨by rw [IsProper, String.toList_ofList]; exact Pattern.mem_typeName_iff.mpr htype,
        String.toList_ofList⟩
    · rintro ⟨hproper, rfl⟩
      cases e with
      | scalar s =>
        rw [token, String.ofList_toList, Scalar.ofName?_name] at hs
        cases hs
      | type name =>
        rw [token, if_pos (Pattern.mem_typeName_iff.mp hproper), String.ofList_toList]

variable {e : Element}

theorem isSolid_token (h : e.IsProper) : Text.IsSolid e.token := by
  cases e with
  | scalar s => cases s <;> exact ⟨⟨_, rfl, rfl⟩, ⟨_, rfl, rfl⟩⟩
  | type name =>
    have hname : isTypeName name.toList = true := Pattern.mem_typeName_iff.mp h
    have halnum : ∀ c ∈ name.toList, c.isAlphanum = true := isAlphanum_of_isTypeName hname
    obtain ⟨c, rest, hcs⟩ : ∃ c rest, name.toList = c :: rest := by
      apply List.exists_cons_of_ne_nil
      intro hnil
      rw [hnil] at hname
      cases hname
    have hne : name.toList ≠ [] := hcs ▸ List.cons_ne_nil c rest
    exact ⟨⟨_, List.head?_eq_some_head hne, Text.isBlank_of_isAlphanum (halnum _ (List.head_mem hne))⟩,
      ⟨_, List.getLast?_eq_some_getLast hne, Text.isBlank_of_isAlphanum (halnum _ (List.getLast_mem hne))⟩⟩

theorem describe_shape : e.shape.describe = String.ofList e.token := by
  cases e <;> exact String.ofList_toList.symm

theorem describe_arrayShape : e.arrayShape.describe = String.ofList (bracketed e.token) := by
  have htext : String.ofList (bracketed e.token) = "array<" ++ String.ofList e.token ++ ">" := by
    rw [← String.toList_inj]
    simp only [String.toList_append, String.toList_ofList, List.append_assoc]
    rfl
  rw [htext, ← describe_shape]
  cases e <;> rfl

end Element

/-! ## Brackets -/

theorem arrayElement?_eq_some_iff {cs inside : List Char} :
    arrayElement? cs = some inside ↔ cs = bracketed inside := by
  constructor
  · intro h
    unfold arrayElement? at h
    split at h
    · next rest =>
      obtain ⟨hlast, hinside⟩ := Option.ite_none_right_eq_some.mp h
      obtain ⟨before, rfl⟩ := List.getLast?_eq_some_iff.mp hlast
      rw [List.dropLast_concat] at hinside
      rw [← Option.some.inj hinside]
      rfl
    · cases h
  · rintro rfl
    show (if (inside ++ ['>']).getLast? = some '>' then some (inside ++ ['>']).dropLast else none) = _
    rw [List.getLast?_concat, if_pos rfl, List.dropLast_concat]

theorem isSolid_bracketed (inside : List Char) : Text.IsSolid (bracketed inside) := by
  refine ⟨⟨'a', rfl, by decide⟩, ⟨'>', ?_, by decide⟩⟩
  unfold bracketed
  rw [← List.append_assoc, List.getLast?_concat]

/-- A name is no `array<…>`. -/
theorem arrayElement?_token {e : Element} (h : e.IsProper) : arrayElement? e.token = none := by
  rw [Option.eq_none_iff_forall_ne_some]
  intro inside hinside
  have htoken : e.token = bracketed inside := arrayElement?_eq_some_iff.mp hinside
  cases e with
  | scalar s => cases s <;> cases htoken
  | type name =>
    have htype : isTypeName name.toList = true := Pattern.mem_typeName_iff.mp h
    rw [show name.toList = bracketed inside from htoken] at htype
    cases htype

/-! ## Expressions -/

/-- The texts that a shape can be written as: a name with blanks around it, or `array<…>` with blanks around
it and around the name in it. -/
inductive Expresses (cs : List Char) : Shape → Prop
  | single {e : Element} (proper : e.IsProper) (padded : Text.Padded e.token cs) : Expresses cs e.shape
  | array {e : Element} {inside : List Char} (proper : e.IsProper) (inner : Text.Padded e.token inside)
      (padded : Text.Padded (bracketed inside) cs) : Expresses cs e.arrayShape

theorem ofExpr?_eq (cs : List Char) : ofExpr? cs =
    match arrayElement? cs with
    | some inside => (Element.read? (Text.trimChars inside)).map Element.arrayShape
    | none => (Element.read? cs).map Element.shape := by
  unfold ofExpr? Element.read?
  cases arrayElement? cs with
  | some inside =>
    dsimp only
    cases Scalar.ofName? (String.ofList (Text.trimChars inside)) with
    | some s => rfl
    | none =>
      dsimp only
      split <;> rfl
  | none =>
    dsimp only
    cases Scalar.ofName? (String.ofList cs) with
    | some s => rfl
    | none =>
      dsimp only
      split <;> rfl

theorem parse?_eq_some_iff {expr : String} {shape : Shape} :
    parse? expr = some shape ↔ Expresses expr.toList shape := by
  unfold parse?
  rw [ofExpr?_eq]
  constructor
  · intro h
    split at h
    · next inside hinside =>
      obtain ⟨e, he, rfl⟩ := Option.map_eq_some_iff.mp h
      obtain ⟨hproper, htoken⟩ := Element.read?_eq_some_iff.mp he
      have hpadded := Text.padded_trimChars expr.toList
      rw [arrayElement?_eq_some_iff.mp hinside] at hpadded
      exact .array hproper (htoken ▸ Text.padded_trimChars inside) hpadded
    · obtain ⟨e, he, rfl⟩ := Option.map_eq_some_iff.mp h
      obtain ⟨hproper, htoken⟩ := Element.read?_eq_some_iff.mp he
      exact .single hproper (htoken ▸ Text.padded_trimChars expr.toList)
  · intro h
    cases h with
    | single proper padded =>
      rw [Text.trimChars_of_padded (Element.isSolid_token proper) padded, arrayElement?_token proper]
      dsimp only
      rw [Element.read?_eq_some_iff.mpr ⟨proper, rfl⟩, Option.map_some]
    | array proper inner padded =>
      rw [Text.trimChars_of_padded (isSolid_bracketed _) padded, arrayElement?_eq_some_iff.mpr rfl]
      dsimp only
      rw [Text.trimChars_of_padded (Element.isSolid_token proper) inner,
        Element.read?_eq_some_iff.mpr ⟨proper, rfl⟩, Option.map_some]

example : parse? "\u2003array< Address >\n" = some (.referenceArray "Address") := by decide
example : parse? "array<array<string>>" = none := by decide

theorem parse?_describe {expr : String} {shape : Shape} (h : parse? expr = some shape) :
    parse? shape.describe = some shape := by
  rw [parse?_eq_some_iff]
  cases parse?_eq_some_iff.mp h with
  | single proper _ =>
    rw [Element.describe_shape, String.toList_ofList]
    exact .single proper (.refl _)
  | array proper _ _ =>
    rw [Element.describe_arrayShape, String.toList_ofList]
    exact .array proper (.refl _) (.refl _)

/-- The names that references are read with are those that match the pattern. -/
theorem exists_reference_iff {name : String} :
    (∃ expr shape, parse? expr = some shape ∧ shape.referenced? = some name) ↔
      name.toList ∈ Pattern.typeName := by
  constructor
  · rintro ⟨expr, shape, h, hname⟩
    exact Pattern.mem_typeName_iff.mpr (Rules.isTypeName_of_ofExpr? h hname)
  · intro h
    exact ⟨name, .reference name, parse?_eq_some_iff.mpr (.single (e := .type name) h (.refl _)), rfl⟩

end Shape

/-! ## The names that the loader admits -/

/-- A name is the path of a file in the directory that it is read from. -/
theorem Path.fileName_of_isName {n : String} (h : IsName n) : (⟨n⟩ : Path).fileName = n := by
  have hcomponents : (⟨n⟩ : Path).components = [.name n] := by
    unfold components
    rw [if_neg (by rw [isAbsolute_of_isName h]; exact Bool.false_ne_true), steps_of_isName h]
    split
    · next rest heq => exact absurd (List.cons.inj heq).1 h.2.1
    · rw [List.filterMap_cons, component?_of_isName h, List.filterMap_nil]
  unfold fileName fileName?
  rw [hcomponents]
  rfl

namespace Rules

open Draft

/-- No rule of the loader refuses the name: there is a file for a document of that name, which is accepted
as soon as its kind is given and what it declares is accepted, and so is an enum with proper values. -/
structure IsAdmitted (name : String) : Prop where
  file : ∃ file : Path, file.stem = name
  entity : ∀ (file : Path) (draft : Draft.Document) (kind : String), file.stem = name →
    draft.name = some name → Given draft.kind kind →
      document file draft = (body file kind draft).map fun body => ⟨file, name, draft.description, body⟩
  enum : ∀ (file : Path) (values : List String), enumValues file name values = .ok () →
    enumsFrom file [(name, values)] = .ok [⟨file, name, values⟩]

/-- A step that passes hands on what it gives. -/
theorem bind_of_eq_ok {α β : Type} {x : Checked α} {f : α → Checked β} {a : α} (h : x = .ok a) :
    (x >>= f) = f a := by
  rw [h]
  rfl

variable {name : String}

/-- The file named for a type, as it is cut at its dot. -/
theorem stem_append (h : isTypeName name.toList = true) : (⟨name ++ ".yml"⟩ : Path).stem = name := by
  have hmark : ∀ c : Char, c.isAlphanum = false → c ∉ name.toList := fun c hc hm => by
    rw [isAlphanum_of_isTypeName h c hm] at hc
    cases hc
  have hname : IsName (name ++ ".yml") := by
    refine IsName.append ⟨?_, ?_, ?_, hmark '/' rfl⟩ (by decide) (by decide)
    all_goals
      rintro rfl
      cases h
  have hcut : Text.splitAt '.' (name ++ ".yml").toList.reverse = ["lmy".toList, name.toList.reverse] := by
    have hrev : (name ++ ".yml").toList.reverse = "lmy".toList ++ '.' :: name.toList.reverse := by
      rw [String.toList_append, List.reverse_append]
      rfl
    have hdot : '.' ∉ name.toList.reverse := fun hm => hmark '.' rfl (List.mem_reverse.mp hm)
    rw [hrev, Text.splitAt_cons_append (by decide), Text.splitAt_of_not_mem hdot]
  have htake : (name ++ ".yml").toList.take ((name ++ ".yml").toList.length - "lmy".toList.length - 1) =
      name.toList := by
    rw [String.toList_append, List.length_append]
    exact List.take_left
  have hne : name.toList.isEmpty = false := by
    rw [List.isEmpty_eq_false_iff]
    intro hnil
    rw [hnil] at h
    cases h
  unfold Path.stem Path.splitName
  rw [Path.fileName_of_isName hname, hcut]
  dsimp only
  rw [htake, if_neg (by rw [hne]; exact Bool.false_ne_true)]
  exact String.ofList_toList

theorem isBlankText_of_isTypeName (h : isTypeName name.toList = true) : Text.isBlankText name = false := by
  have hsolid := Shape.Element.isSolid_token (e := .type name) (Pattern.mem_typeName_iff.mpr h)
  obtain ⟨c, hc, hblank⟩ := hsolid.first
  exact List.all_eq_false.mpr ⟨c, List.mem_of_mem_head? hc, by rw [hblank]; exact Bool.false_ne_true⟩

/-- Of a document that is named for its file, with a type name, only the body is left to judge. -/
theorem document_eq (h : isTypeName name.toList = true) {file : Path} {draft : Draft.Document}
    {kind : String} (hfile : file.stem = name) (hname : draft.name = some name)
    (hkind : Given draft.kind kind) :
    document file draft = (body file kind draft).map fun body => ⟨file, name, draft.description, body⟩ := by
  have hgiven : require file "name" draft.name = .ok name :=
    (require_eq_ok_iff _ _ _ _).mpr ⟨hname, isBlankText_of_isTypeName h⟩
  have hstem : fileName file name = .ok () := (ensure_eq_ok_iff _ _ _ _).mpr (beq_iff_eq.mpr hfile)
  unfold document
  rw [bind_of_eq_ok hgiven, bind_of_eq_ok ((require_eq_ok_iff _ _ _ _).mpr hkind), bind_of_eq_ok hstem,
    bind_of_eq_ok ((ensure_eq_ok_iff _ _ _ _).mpr h)]
  cases body file kind draft <;> rfl

theorem isAdmitted_iff : IsAdmitted name ↔ name.toList ∈ Pattern.typeName := by
  rw [Pattern.mem_typeName_iff]
  constructor
  · intro h
    have hok := h.enum ⟨""⟩ ["A"] rfl
    unfold enumsFrom at hok
    exact (ensure_bind_eq_ok.mp hok).1
  · intro h
    refine ⟨⟨_, stem_append h⟩, fun file draft kind => document_eq h, fun file values hvalues => ?_⟩
    unfold enumsFrom
    rw [bind_of_eq_ok ((ensure_eq_ok_iff _ _ _ _).mpr h), bind_of_eq_ok hvalues]
    rfl

end Rules

/-- For every text and every shape: the text is read as the shape exactly if it is one of the expressions of
the shape, and what a shape that was read is described as is read as the shape again. The types that are
named in this way have the names that the loader admits, and no others. -/
theorem Shape.parse_spec :
    (∀ expr shape, parse? expr = some shape ↔ Expresses expr.toList shape) ∧
      (∀ expr shape, parse? expr = some shape → parse? shape.describe = some shape) ∧
        ∀ name, (∃ expr shape, parse? expr = some shape ∧ shape.referenced? = some name) ↔
          Rules.IsAdmitted name :=
  ⟨fun _ _ => parse?_eq_some_iff, fun _ _ => parse?_describe, fun _ =>
    exists_reference_iff.trans Rules.isAdmitted_iff.symm⟩

/-- An array of a type, with blanks wherever they may stand. -/
theorem Shape.parse_spec_addresses : parse? "\u2003array< Address >\n" = some (.referenceArray "Address") ∧
    Expresses "\u2003array< Address >\n".toList (.referenceArray "Address") ∧
      parse? "array<Address>" = some (.referenceArray "Address") ∧ Rules.IsAdmitted "Address" := by
  obtain ⟨hreads, hdescribe, hadmits⟩ := parse_spec
  have hparse : parse? "\u2003array< Address >\n" = some (.referenceArray "Address") := by decide
  have hdescribed : describe (.referenceArray "Address") = "array<Address>" := by decide
  exact ⟨hparse, (hreads _ _).mp hparse, hdescribed ▸ hdescribe _ _ hparse,
    (hadmits "Address").mp ⟨_, _, hparse, rfl⟩⟩

end SchemaGen
