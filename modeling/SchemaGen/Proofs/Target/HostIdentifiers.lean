import SchemaGen.Proofs.Target.HostFields
import SchemaGen.Proofs.Target.HostLines
import SchemaGen.Proofs.Target.ModelTypes

/-!
# Legal identifiers in the host models

The host models declare structs, fields, enums, variants and modules, whose names come from those of a
document by different ways. All of them are written with letters, digits and `_` and start with a letter, but
Rust keeps words for itself. Modules end in what they hold, and a variant that would be a keyword has a `_` at
its end, so these are always legal. Types are not: `Self` is a keyword. Fields are marked as raw where they are
keywords, but the list of keywords lacks `try`, and four keywords are not legal as raw identifiers either; `Self`
is none of the names that fields have.

Results:
1. `toSnake_eq_iff_of_word`: which attributes have a word as their snake case.
2. `isLegal_hostField_iff`, `isLegal_variantName`, `isLegal_type_iff`: the names of fields, variants and types.
3. `namesLegally_of_printed`, `NamesLegally.forall_iff`: which names that the host models declare are legal,
   and when all of them are.
4. `namesLegally_of_render`, `exists_illegal_name`: the names that a target declares, and a struct whose name and
   fields are not legal.
-/

namespace SchemaGen

open Emission Naming

variable {n : String}

/-! ## Words -/

namespace Naming

/-- Letters and digits that are read as one word after a character that is not in upper case are not in upper
case either. -/
theorem eq_of_splitFrom_eq_singleton {p : Char} {before cs : List Char} {w : Word}
    (hp : Pattern.isWordChar p = true) (hcs : ∀ c ∈ cs, c.isAlphanum = true)
    (h : splitFrom (p :: before) cs = [w]) :
    w = (p :: before).reverse ++ cs ∧ ∀ c ∈ cs, Pattern.isWordChar c = true := by
  induction cs generalizing p before with
  | nil =>
    refine ⟨?_, fun c hc => absurd hc List.not_mem_nil⟩
    rw [List.append_nil]
    exact (List.singleton_inj.mp h).symm
  | cons c rest ih =>
    obtain ⟨hc, hrest⟩ := List.forall_mem_cons.mp hcs
    rw [splitFrom_cons hc] at h
    split at h
    · exact absurd (List.cons.inj h).2 (splitFrom_ne_nil _ _ _)
    · next hstart =>
      have hlower : c.isUpper = false := by
        refine Bool.eq_false_iff.mpr fun hupper => hstart ?_
        unfold startsWord
        rw [hupper, show (p.isLower || p.isDigit) = true from hp]
        rfl
      have hword := isWordChar_iff.mpr ⟨hc, hlower⟩
      obtain ⟨hw, hmore⟩ := ih hword hrest h
      refine ⟨?_, List.forall_mem_cons.mpr ⟨hword, hmore⟩⟩
      rw [hw, List.reverse_cons, List.append_assoc]
      rfl

/-- An attribute whose snake case is one word is this word. -/
theorem toSnake_eq_iff_of_word {w : String} (h : isCamelName n.toList = true) (hw : w.toList ∈ Pattern.word) :
    toSnake n = w ↔ n = w := by
  have hself : attributeWords w = [w.toList] := by
    unfold attributeWords
    rw [(unbroken_of_mem_word hw).split_eq, List.map_singleton, lower_of_mem_word hw]
  have hsnake : toSnake w = w := by
    have hjoin : snakeChars w.toList = joinWith '_' (attributeWords w) := rfl
    unfold toSnake
    rw [hjoin, hself]
    exact String.ofList_toList
  constructor
  · intro he
    have hwords := toSnake_eq_iff.mp (he.trans hsnake.symm)
    rw [hself] at hwords
    obtain ⟨v, hv, hlower⟩ := List.map_eq_singleton_iff.mp hwords
    cases hn : n.toList with
    | nil =>
      rw [hn] at h
      cases h
    | cons c rest =>
      rw [hn] at h hv
      obtain ⟨hc, hrest⟩ := Bool.and_eq_true_iff.mp h
      have hword : Pattern.isWordChar c = true := Bool.or_eq_true_iff.mpr (.inl hc)
      rw [split_cons (isWordChar_iff.mp hword).1] at hv
      obtain ⟨rfl, hchars⟩ := eq_of_splitFrom_eq_singleton hword (List.all_eq_true.mp hrest) hv
      have hmem : c :: rest ∈ Pattern.word :=
        Pattern.mem_word_iff_all.mpr ⟨List.cons_ne_nil _ _, List.forall_mem_cons.mpr ⟨hword, hchars⟩⟩
      refine String.toList_inj.mp (hn.trans ?_)
      exact (lower_of_mem_word hmem).symm.trans hlower
  · rintro rfl
    exact hsnake

end Naming

namespace HostModel

/-! ## Legal identifiers -/

/-- The keywords of Rust since the 2021 edition that are in use. -/
def strictKeywords : List String :=
  ["as", "async", "await", "break", "const", "continue", "crate", "dyn", "else", "enum", "extern", "false", "fn",
    "for", "if", "impl", "in", "let", "loop", "match", "mod", "move", "mut", "pub", "ref", "return", "self", "Self",
    "static", "struct", "super", "trait", "true", "type", "unsafe", "use", "where", "while"]

/-- Those that are reserved. -/
def reservedKeywords : List String :=
  ["abstract", "become", "box", "do", "final", "macro", "override", "priv", "try", "typeof", "unsized", "virtual",
    "yield"]

def keywords : List String := strictKeywords ++ reservedKeywords

/-- The keywords that are parts of paths, and not legal even where they are marked as raw. -/
def pathKeywords : List String := ["self", "Self", "super", "crate"]

/-- The characters that identifiers start with. -/
def isStartChar (c : Char) : Bool := c.isAlpha || c == '_'

/-- A name that is legal by itself: a letter or `_`, and then letters, digits and `_`, but no keyword. -/
def IsPlain (n : String) : Prop :=
  n.toList.head?.any isStartChar = true ∧ IsIdentifier n ∧ n ∉ keywords

/-- A keyword that is marked as raw. -/
def IsRaw (n : String) : Prop := ∃ k ∈ keywords, k ∉ pathKeywords ∧ n = "r#" ++ k

/-- A legal identifier. -/
def IsLegal (n : String) : Prop := IsPlain n ∨ IsRaw n

instance (n : String) : Decidable (IsPlain n) := by unfold IsPlain; infer_instance

instance (n : String) : Decidable (IsRaw n) := by unfold IsRaw; infer_instance

instance (n : String) : Decidable (IsLegal n) := by unfold IsLegal; infer_instance

/-- The keywords that fields and variants are compared with are all but one. -/
theorem mem_keywords_iff : n ∈ keywords ↔ isHostKeyword n = true ∨ n = "try" := by
  have hall : ∀ k ∈ keywords, k ∈ hostKeywords ∨ k = "try" := by decide
  have hmem : ∀ k ∈ hostKeywords, k ∈ keywords := by decide
  unfold isHostKeyword
  rw [List.contains_iff_mem]
  exact ⟨hall n, fun h => h.elim (hmem n) fun he => he ▸ by decide⟩

/-- The mark of a raw identifier is no part of a name that is legal by itself. -/
theorem not_isIdentifier_raw (n : String) : ¬ IsIdentifier ("r#" ++ n) := by
  intro h
  refine h.not_mem (c := '#') rfl ?_
  rw [String.toList_append]
  exact List.mem_append_left _ (by decide)

theorem isLegal_raw_iff : IsLegal ("r#" ++ n) ↔ n ∈ keywords ∧ n ∉ pathKeywords := by
  constructor
  · rintro (⟨-, hchars, -⟩ | ⟨k, hk, hpath, he⟩)
    · exact absurd hchars (not_isIdentifier_raw n)
    · rw [(String.append_right_inj _).mp he]
      exact ⟨hk, hpath⟩
  · exact fun ⟨hk, hpath⟩ => .inr ⟨n, hk, hpath, rfl⟩

theorem isLegal_iff_of_isIdentifier (h : IsIdentifier n) :
    IsLegal n ↔ n.toList.head?.any isStartChar = true ∧ n ∉ keywords := by
  constructor
  · rintro (⟨hstart, -, hfree⟩ | ⟨k, -, -, rfl⟩)
    · exact ⟨hstart, hfree⟩
    · exact absurd h (not_isIdentifier_raw k)
  · exact fun ⟨hstart, hfree⟩ => .inl ⟨hstart, h, hfree⟩

/-! ## Names -/

/-- Snake case starts with a letter, like the name. -/
theorem isStartChar_toSnake (h : Lettered n.toList) : (toSnake n).toList.head?.any isStartChar = true := by
  have hne := split_ne_nil_of_lettered h
  have hwords := lettered_split h
  unfold toSnake snakeChars
  rw [String.toList_ofList]
  cases hsplit : split n.toList with
  | nil => exact absurd hsplit hne
  | cons w ws =>
    rw [hsplit] at hwords
    have hw := hwords w List.mem_cons_self
    cases w with
    | nil => exact hw.elim
    | cons c rest =>
      have halpha : isStartChar c.toLower = true := by
        unfold isStartChar
        rw [Char.isAlpha_toLower_eq_isAlpha, hw.1, Bool.true_or]
      cases ws <;> exact halpha

/-- The attributes whose fields have no legal names: the keyword that is not marked as raw, and those that
must not be. -/
def unfitFields : List String := ["try", "self", "super", "crate"]

theorem toSnake_mem_iff (h : isCamelName n.toList = true) :
    toSnake n ∈ unfitFields ↔ n ∈ unfitFields := by
  have hword : ∀ w ∈ unfitFields, w.toList ∈ Pattern.word := by
    have hchars : ∀ w ∈ unfitFields, w.toList ≠ [] ∧ w.toList.all Pattern.isWordChar = true := by decide
    exact fun w hw => Pattern.mem_word_iff_all.mpr ((hchars w hw).imp_right List.all_eq_true.mp)
  constructor
  · intro hm
    rw [(toSnake_eq_iff_of_word h (hword _ hm)).mp rfl]
    exact hm
  · intro hm
    rw [(toSnake_eq_iff_of_word h (hword n hm)).mpr rfl]
    exact hm

/-- Snake case is not changed by being written in snake case, but `Self` is. -/
theorem toSnake_ne_selfType (s : String) : toSnake s ≠ "Self" := by
  intro he
  have hsame : toSnake (toSnake s) = toSnake s := Convention.write_write .snake .snake s
  have hchars : snakeChars "Self".toList = "Self".toList := by
    rw [he] at hsame
    exact String.toList_ofList.symm.trans (congrArg String.toList hsame)
  exact absurd hchars (by decide)

/-- The field of an attribute is called by a legal name unless the attribute is one of these. -/
theorem isLegal_hostField_iff (h : isCamelName n.toList = true) :
    IsLegal (hostField n) ↔ n ∉ unfitFields := by
  have hself := toSnake_ne_selfType n
  rw [← toSnake_mem_iff h]
  unfold hostField
  split
  · next hk =>
    have htry : toSnake n ≠ "try" := fun he => by
      rw [he] at hk
      cases hk
    rw [isLegal_raw_iff, and_iff_right (mem_keywords_iff.mpr (.inl hk))]
    simp [pathKeywords, unfitFields, hself, htry]
  · next hk =>
    have hpath : ∀ k ∈ pathKeywords, toSnake n ≠ k := by
      rintro k hkey rfl
      have hmarked : ∀ k ∈ pathKeywords, isHostKeyword k = true := by decide
      exact hk (hmarked _ hkey)
    have hstart := isStartChar_toSnake (lettered_of_isCamelName h)
    rw [isLegal_iff_of_isIdentifier (isIdentifier_toSnake n), and_iff_right hstart, mem_keywords_iff, or_iff_right hk]
    simp [unfitFields, hpath "self" (by decide), hpath "super" (by decide), hpath "crate" (by decide)]

/-- Of the keywords only one is written like the name of a type or of a variant. -/
theorem eq_of_mem_keywords (h : n ∈ keywords) (hhead : ∀ c ∈ n.toList.head?, c.isLower = false) : n = "Self" := by
  have hall : ∀ k ∈ keywords, k.toList.head?.any Char.isLower = false → k = "Self" := by decide
  refine hall n h (Bool.eq_false_iff.mpr fun hlower => ?_)
  obtain ⟨c, hc, hlower⟩ := (Option.any_eq_true _ _).mp hlower
  rw [hhead c hc] at hlower
  cases hlower

theorem isLegal_variantName {value : String} (h : lacksVariant value = false) : IsLegal (variantName value) := by
  have hhead := head?_toPascal value
  have hchars := isIdentifier_toPascal value
  unfold lacksVariant at h
  unfold variantName
  dsimp only
  split
  · next hk =>
    rw [eq_of_mem_keywords (mem_keywords_iff.mpr (.inl hk)) hhead]
    decide
  · next hk =>
    rw [isLegal_iff_of_isIdentifier hchars]
    refine ⟨?_, fun hm => ?_⟩
    · cases hcs : (toPascal value).toList with
      | nil =>
        rw [hcs] at h
        cases h
      | cons c rest =>
        rw [hcs] at h
        have hdigit : c.isDigit = false := h
        have hc : (c.isAlpha || c.isDigit || c == '_') = true := hchars c (hcs ▸ List.mem_cons_self)
        rw [hdigit, Bool.or_false] at hc
        exact hc
    · rw [eq_of_mem_keywords hm hhead] at hk
      exact hk rfl

/-- The name of a type is legal unless it is a keyword. -/
theorem isLegal_type_iff (hstart : startsUpper n = true) (h : IsIdentifier n) : IsLegal n ↔ n ≠ "Self" := by
  obtain ⟨c, hc, hupper⟩ := (Option.any_eq_true _ _).mp hstart
  have halpha : isStartChar c = true := by
    unfold isStartChar Char.isAlpha
    rw [hupper, Bool.true_or, Bool.true_or]
  have hhead : ∀ d ∈ n.toList.head?, d.isLower = false := by
    intro d hd
    rw [hc] at hd
    cases hd
    exact Bool.eq_false_iff.mpr (Char.not_isLower_of_isUpper hupper)
  rw [isLegal_iff_of_isIdentifier h, hc]
  constructor
  · rintro ⟨-, hfree⟩ rfl
    exact hfree (by decide)
  · exact fun hne => ⟨halpha, fun hm => hne (eq_of_mem_keywords hm hhead)⟩

theorem isLegal_module {kind : String} (h : isTypeName n.toList = true) (hkind : IsIdentifier kind) :
    IsLegal (toSnake n ++ "_" ++ kind) := by
  have hchars := ((isIdentifier_toSnake n).append (by decide : IsIdentifier "_")).append hkind
  refine (isLegal_iff_of_isIdentifier hchars).mpr ⟨?_, fun hm => ?_⟩
  · have hstart := isStartChar_toSnake (lettered_of_isTypeName h)
    have hne : toSnake n ≠ "" := by
      intro he
      rw [he] at hstart
      cases hstart
    rw [String.append_assoc, Text.head?_append hne]
    exact hstart
  · have hline : ∀ k ∈ keywords, '_' ∉ k.toList := by decide
    refine hline _ hm ?_
    rw [String.toList_append, String.toList_append]
    exact List.mem_append_left _ (List.mem_append_right _ (by decide))

/-! ## What the host models declare -/

variable {c : Catalog} {e : Entity} {d : TypeDecl} {f : Field} {decls : Entity → List TypeDecl} {docs : Bool}

/-- The names that a module declares: those of its structs and of their fields, or those of its enum and of the
variants of this. -/
def declaredIn (docs : Bool) : ModelModule → List String
  | .types _ ds => (ds.map (struct docs)).flatMap fun s => s.name :: s.fields.map HostField.name
  | .operations _ _ => []
  | .enum e => (enum docs e).toOption.elim [] fun made => made.name :: made.variants.map Prod.fst

/-- The names that the host models declare: those of the modules, and those that these declare. -/
def declaredNames (docs : Bool) (c : Catalog) (decls : Entity → List TypeDecl) : List String :=
  (declaredModules c).map Prod.snd ++ (Target.rust.modelModules c decls).flatMap (declaredIn docs)

theorem forall_mem_structsFor {P : Struct → Prop} : (∀ s ∈ structsFor docs c decls, P s) ↔
    ∀ e ∈ c.entityList, ∀ d ∈ decls e, P (struct docs d) := by
  unfold structsFor structsOf entityFile
  simp only [List.forall_mem_flatMap, List.forall_mem_map]

theorem forall_mem_declaredNames {P : String → Prop} : (∀ n ∈ declaredNames docs c decls, P n) ↔
    (∀ m ∈ declaredModules c, P m.2) ∧
      (∀ s ∈ structsFor docs c decls, P s.name ∧ ∀ f ∈ s.fields, P f.name) ∧
      ∀ e ∈ c.enumList, ∀ made, enum docs e = .ok made → P made.name ∧ ∀ v ∈ made.variants, P v.1 := by
  have htypes : ∀ e, (∀ n ∈ declaredIn docs (.types e (decls e)), P n) ↔
      ∀ d ∈ decls e, P (struct docs d).name ∧ ∀ f ∈ (struct docs d).fields, P f.name := fun e => by
    simp only [declaredIn, List.forall_mem_flatMap, List.forall_mem_map, List.forall_mem_cons]
  have henum : ∀ e, (∀ n ∈ declaredIn docs (.enum e), P n) ↔
      ∀ made, enum docs e = .ok made → P made.name ∧ ∀ v ∈ made.variants, P v.1 := fun e => by
    simp only [declaredIn]
    cases enum docs e with
    | error fault => simp [Except.toOption]
    | ok made => simp [Except.toOption]
  unfold declaredNames Target.modelModules
  simp only [List.forall_mem_append, List.forall_mem_map, List.forall_mem_flatMap, htypes, henum,
    forall_mem_structsFor, Target.operationTables, List.map_nil, List.append_nil]

/-- A field is called like an attribute may be. -/
theorem isCamelName_field (hc : c.IsSound) (he : e ∈ c.entityList) (h : Belongs e d) (hf : f ∈ d.fields) :
    isCamelName f.name.toList = true := by
  rcases names_of_belongs h with hnames | hnames
  · obtain ⟨a, ha, hname⟩ := hnames f hf
    rw [hname]
    exact hc.camel _ e (hc.entity?_of_mem he) a ha
  · have hcamel : ∀ n ∈ ["statusCode", "message", "data"], isCamelName n.toList = true := by decide
    exact hcamel _ (hnames ▸ List.mem_map_of_mem hf)

theorem isLegal_struct_iff (hc : c.IsSound) (he : e ∈ c.entityList) (h : Belongs e d) :
    IsLegal d.name ↔ d.name ≠ "Self" := by
  have hstart := startsUpper_of_isTypeName (hc.isTypeName_entity he)
  have hchars := isIdentifier_entity hc he
  rcases belongs_name h with hname | hname
  · rw [hname]
    exact isLegal_type_iff hstart.1 hchars
  · exact isLegal_type_iff (startsUpper_of_generated hstart hname) (isIdentifier_of_generated hchars hname)

theorem isLegal_declaredModules (hc : c.IsSound) : ∀ m ∈ declaredModules c, IsLegal m.2 := by
  refine List.forall_mem_map.mpr fun file hfile => ?_
  rcases List.mem_append.mp ((mem_sortedNames _ file).mp hfile) with hm | hm
  · obtain ⟨e, he, rfl⟩ := List.mem_map.mp hm
    have hname := hc.isTypeName_entity he
    show IsLegal (moduleOf _)
    rw [moduleOf_modelFile hname]
    exact isLegal_module hname (by decide)
  · obtain ⟨e, he, rfl⟩ := List.mem_map.mp hm
    have hname := hc.isTypeName_enum he
    show IsLegal (moduleOf _)
    rw [moduleOf_enumFile hname]
    exact isLegal_module hname (by decide)

theorem isLegal_variants {e : EnumType} {made : Enum} (h : enum docs e = .ok made) :
    ∀ v ∈ made.variants, IsLegal v.1 := by
  obtain ⟨variants, hvariants, rfl⟩ := map_eq_ok.mp h
  have hverdict : verdict (variantsFrom e.name [] e.values) = .ok () := by
    rw [hvariants]
    rfl
  have hlacks := (verdict_variantsFrom_iff.mp hverdict).1
  intro v hv
  rw [variantsFrom_eq_ok hvariants] at hv
  obtain ⟨value, hvalue, rfl⟩ := List.mem_map.mp hv
  dsimp only
  exact isLegal_variantName (hlacks value hvalue)

/-- A type is called `Self` only if the entity that brings it is. -/
theorem ne_selfType_of_belongs (h : Belongs e d) (hne : e.name ≠ "Self") : d.name ≠ "Self" := by
  rcases belongs_name h with hname | hname
  · rw [hname]
    exact hne
  · intro hself
    have hends := ApiSchema.endsGenerated_of_mem hname
    rw [hself] at hends
    exact absurd hends (by decide)

theorem fit_of_belongs (h : Belongs e d) (hfit : ∀ a ∈ e.attributes, a.name ∉ unfitFields) :
    ∀ f ∈ d.fields, f.name ∉ unfitFields := by
  intro f hf
  rcases names_of_belongs h with hnames | hnames
  · obtain ⟨a, ha, hname⟩ := hnames f hf
    rw [hname]
    exact hfit a ha
  · have henvelope : ∀ n ∈ ["statusCode", "message", "data"], n ∉ unfitFields := by decide
    exact henvelope _ (hnames ▸ List.mem_map_of_mem hf)

/-- Which of the names that the host models declare are legal. Those of modules and variants are. The name of a
struct or an enum is legal unless it is `Self`. The name of a field is legal unless it carries one of the unfit
attributes, under whose name it is read and written. -/
structure NamesLegally (docs : Bool) (c : Catalog) (decls : Entity → List TypeDecl) : Prop where
  modules : ∀ m ∈ declaredModules c, IsLegal m.2
  structs : ∀ s ∈ structsFor docs c decls, IsLegal s.name ↔ s.name ≠ "Self"
  fields : ∀ s ∈ structsFor docs c decls, ∀ f ∈ s.fields, IsLegal f.name ↔ f.wireName ∉ unfitFields
  enums : ∀ e ∈ c.enumList, ∃ made, enum docs e = .ok made ∧ (IsLegal made.name ↔ e.name ≠ "Self") ∧
    ∀ v ∈ made.variants, IsLegal v.1

/-- All these names are legal just when no entity and no enum is called `Self` and no attribute is unfit. -/
theorem NamesLegally.forall_iff (h : NamesLegally docs c decls)
    (hd : ∀ e ∈ c.entityList, Artifact e (decls e)) : (∀ n ∈ declaredNames docs c decls, IsLegal n) ↔
      (∀ e ∈ c.entityList, e.name ≠ "Self" ∧ ∀ a ∈ e.attributes, a.name ∉ unfitFields) ∧
        ∀ e ∈ c.enumList, e.name ≠ "Self" := by
  rw [forall_mem_declaredNames, and_iff_right h.modules]
  refine and_congr ?_ (forall₂_congr fun e he => ?_)
  · constructor
    · intro hall e he
      have hown : struct docs (entityDecl e) ∈ structsFor docs c decls :=
        mem_structsFor.mpr ⟨e, he, _, (hd e he).own, rfl⟩
      refine ⟨(h.structs _ hown).mp (hall _ hown).1, fun a ha => ?_⟩
      have hfield : ∃ f ∈ (struct docs (entityDecl e)).fields, f.wireName = a.name :=
        ⟨_, List.mem_map_of_mem (List.mem_map_of_mem ha), wireName_field _ _ _⟩
      obtain ⟨f, hf, hname⟩ := hfield
      rw [← hname]
      exact (h.fields _ hown f hf).mp ((hall _ hown).2 f hf)
    · intro hall s hs
      obtain ⟨e, he, d, hmem, rfl⟩ := mem_structsFor.mp hs
      have hbelongs := (hd e he).belongs d hmem
      refine ⟨(h.structs _ hs).mpr (ne_selfType_of_belongs hbelongs (hall e he).1), fun f hf => ?_⟩
      rw [h.fields _ hs f hf]
      obtain ⟨field, hfield, rfl⟩ := List.mem_map.mp hf
      rw [wireName_field]
      exact fit_of_belongs hbelongs (hall e he).2 field hfield
  · obtain ⟨made, hmade, hname, hvariants⟩ := h.enums e he
    rw [← hname, hmade]
    constructor
    · exact fun hall => (hall made rfl).1
    · rintro hlegal _ ⟨⟩
      exact ⟨hlegal, hvariants⟩

variable {o : Options} {r r' : Registry} {files : Files}

theorem namesLegally_of_printed (hc : c.IsSound) (h : Printed o c .rust decls files) :
    NamesLegally o.docs c decls := by
  refine ⟨isLegal_declaredModules hc, forall_mem_structsFor.mpr fun e he d hd => ?_,
    forall_mem_structsFor.mpr fun e he d hd => List.forall_mem_map.mpr fun f hf => ?_, fun e he => ?_⟩
  · exact isLegal_struct_iff hc he ((h.artifacts e he).belongs d hd)
  · rw [name_field, wireName_field]
    exact isLegal_hostField_iff (isCamelName_field hc he ((h.artifacts e he).belongs d hd) hf)
  · obtain ⟨text, htext, -⟩ := h.modules (.enum e) (List.mem_append_right _ (List.mem_map_of_mem he))
    obtain ⟨made, hmade, -⟩ := enum_of_text? htext
    have hname := hc.isTypeName_enum he
    refine ⟨made, hmade, ?_, isLegal_variants hmade⟩
    obtain ⟨variants, -, rfl⟩ := map_eq_ok.mp hmade
    exact isLegal_type_iff (startsUpper_of_isTypeName hname).1 (isIdentifier_of_isTypeName hname)

/-- What is declared by the files that are rendered for a catalog made from parsed documents. -/
theorem namesLegally_of_render {corpus : Corpus} (hp : corpus.IsParsed) (h : corpus.catalog = .ok c)
    (hr : r.IsFresh .rust) (hrender : Target.rust.render o c r = (.ok files, r')) :
    ∃ decls, Printed o c .rust decls files ∧ NamesLegally o.docs c decls ∧
      ((∀ n ∈ declaredNames o.docs c decls, IsLegal n) ↔
        (∀ e ∈ c.entityList, e.name ≠ "Self" ∧ ∀ a ∈ e.attributes, a.name ∉ unfitFields) ∧
          ∀ e ∈ c.enumList, e.name ≠ "Self") := by
  have hc := Corpus.isSound_of_catalog hp h
  obtain ⟨decls, hprinted⟩ := printed_of_render hc (by decide) hr hrender
  have hnames := namesLegally_of_printed hc hprinted
  exact ⟨decls, hprinted, hnames, hnames.forall_iff hprinted.artifacts⟩

/-- The source of an object type with keywords as its name and those of its attributes. -/
def wordsSource : List String :=
  ["name: Self", "kind: static",
    "attributes: [{name: try, type: string}, {name: self, type: string}, {name: type, type: string}]"]

/-- The source of an enum with a keyword as a value. -/
def wordsEnums : List String := ["Kind: [self, OTHER]"]

/-- The documents that these are parsed to. -/
def reserved : Corpus :=
  let attr (name : String) : AttributeDoc := ⟨name, .scalar .string, false, none, none⟩
  ⟨[⟨⟨"Self.yml"⟩, "Self", none, .object .static [attr "try", attr "self", attr "type"]⟩],
    [⟨⟨"enums.yml"⟩, "Kind", ["self", "OTHER"]⟩]⟩

theorem reserved_isParsed : reserved.IsParsed := by
  have henums : EnumDoc.parseAll ⟨"enums.yml"⟩ (Text.unlines wordsEnums) = .ok reserved.enums := by
    decide +kernel
  exact Corpus.isParsed_of_mapM (s := [(⟨"Self.yml"⟩, wordsSource)]) (by decide +kernel) (.inr ⟨_, _, henums⟩)

/-- The catalog of these documents. -/
def reservedCatalog : Catalog := reserved.catalog.toOption.getD .empty

theorem catalog_reserved : reserved.catalog = .ok reservedCatalog := by decide +kernel

theorem exists_render_reserved (o : Options) :
    ∃ files r', Target.rust.render o reservedCatalog .empty = (.ok files, r') := by
  have hcheck : ∀ docs, Target.rust.check docs reservedCatalog = .ok () := by decide +kernel
  exact Target.exists_render_of_check (Corpus.isSound_of_catalog reserved_isParsed catalog_reserved)
    (Registry.isFresh_empty _) (hcheck o.docs)

theorem namesLegally_of_render_reserved : reserved.IsParsed ∧ reserved.catalog = .ok reservedCatalog ∧
    Registry.IsFresh .rust .empty ∧ ∀ o : Options, ∃ files r',
      Target.rust.render o reservedCatalog .empty = (.ok files, r') ∧
        ∃ decls, Printed o reservedCatalog .rust decls files ∧ NamesLegally o.docs reservedCatalog decls ∧
          ((∀ n ∈ declaredNames o.docs reservedCatalog decls, IsLegal n) ↔
            (∀ e ∈ reservedCatalog.entityList, e.name ≠ "Self" ∧ ∀ a ∈ e.attributes, a.name ∉ unfitFields) ∧
              ∀ e ∈ reservedCatalog.enumList, e.name ≠ "Self") := by
  refine ⟨reserved_isParsed, catalog_reserved, Registry.isFresh_empty _, fun o => ?_⟩
  obtain ⟨files, r', hrender⟩ := exists_render_reserved o
  exact ⟨files, r', hrender,
    namesLegally_of_render reserved_isParsed catalog_reserved (Registry.isFresh_empty _) hrender⟩

/-- The struct of the document and two of its fields are called by names that are not legal. -/
theorem exists_illegal_name : reserved.IsParsed ∧ reserved.catalog = .ok reservedCatalog ∧
    ∀ o : Options, ∃ files r', Target.rust.render o reservedCatalog .empty = (.ok files, r') ∧
      ∃ decls, Printed o reservedCatalog .rust decls files ∧
        (∃ s ∈ structsFor o.docs reservedCatalog decls, s.name = "Self" ∧
          s.fields.map HostField.name = ["try", "r#self", "r#type"]) ∧
        ¬ IsLegal "Self" ∧ ¬ IsLegal "try" ∧ ¬ IsLegal "r#self" ∧ IsLegal "r#type" := by
  refine ⟨reserved_isParsed, catalog_reserved, fun o => ?_⟩
  obtain ⟨files, r', hrender⟩ := exists_render_reserved o
  have hc := Corpus.isSound_of_catalog reserved_isParsed catalog_reserved
  obtain ⟨decls, hprinted⟩ := printed_of_render hc (by decide) (Registry.isFresh_empty _) hrender
  have he : ∃ e ∈ reservedCatalog.entityList, e.name = "Self" ∧
      e.attributes.map Attribute.name = ["try", "self", "type"] := by decide +kernel
  obtain ⟨e, he, hname, hnames⟩ := he
  have hstruct : struct o.docs (entityDecl e) ∈ structsFor o.docs reservedCatalog decls :=
    mem_structsFor.mpr ⟨e, he, _, (hprinted.artifacts e he).own, rfl⟩
  refine ⟨files, r', hrender, decls, hprinted, ⟨_, hstruct, hname, ?_⟩, by decide⟩
  have hidentifiers : ["try", "self", "type"].map hostField = ["try", "r#self", "r#type"] := by decide +kernel
  rw [← hidentifiers, ← hnames]
  unfold struct entityDecl
  simp only [List.map_map, Function.comp_def, name_field]
  rfl

end HostModel

end SchemaGen
