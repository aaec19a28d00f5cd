import SchemaGen.Proofs.Target.ClientLines
import SchemaGen.Proofs.Target.HostIdentifiers
import SchemaGen.Proofs.Target.HostLines

/-!
# Names on the wire

A value of a declared type is sent with the names of the attributes. The interfaces of the client models have
these names for their members. The fields of a struct are called otherwise, and it is left to serde to find
the name of an attribute again: by the name that a field is renamed to, or by the rule that the struct gives
for all of its fields. The generator has a rule of its own by which it decides whether a field has to be
renamed; the two agree on every identifier that a field has.

Both are read here from the files as they are written: the lines of a module are gone through for those that
start a type, rename a field or write one down, and nothing else is read from any other line, whatever a
description says.

Results:
1. `HostModel.serdeName_hostField`: serde's rule and the rule of the generator agree.
2. `HostModel.wireTypes_modelText`, `ClientModel.wireTypes_modelText`: the names that are read from a module.
3. `wireNames_of_render`: the names of the fields of every type, on both sides.
-/

namespace SchemaGen

open Emission Naming Text

/-! ## Serde's rule -/

namespace HostModel

/-- The text with its first letter in upper case. -/
def raiseFirst : List Char → List Char
  | [] => []
  | c :: rest => c.toUpper :: rest

/-- The text with its first letter in lower case. -/
def lowerFirst : List Char → List Char
  | [] => []
  | c :: rest => c.toLower :: rest

/-- The name that serde reads and writes a field under, where the fields of a struct are renamed to camel
case: no `_` is left, what stood after one starts in upper case, and the whole in lower case. The mark of a
raw identifier is no part of its name. -/
def serdeName (ident : String) : String :=
  String.ofList (lowerFirst ((splitAt '_' (dropRaw ident.toList)).flatMap raiseFirst))

example : serdeName "line2_text" = "line2Text" := by decide
example : serdeName "r#type" = "type" := by decide

/-- The generator goes through a name letter by letter, and raises the letter after a `_`. -/
theorem camelFrom_eq {cs first : List Char} {others : List (List Char)} (h : splitAt '_' cs = first :: others) :
    camelFrom true cs = raiseFirst first ++ others.flatMap raiseFirst ∧
      camelFrom false cs = first ++ others.flatMap raiseFirst := by
  induction cs generalizing first others with
  | nil =>
    cases h
    exact ⟨rfl, rfl⟩
  | cons c rest ih =>
    obtain ⟨first', others', hrest⟩ := List.exists_cons_of_ne_nil (splitAt_ne_nil '_' rest)
    obtain ⟨hraised, hplain⟩ := ih hrest
    rw [splitAt, hrest] at h
    by_cases hc : c = '_'
    · rw [if_pos hc] at h
      cases h
      rw [camelFrom, camelFrom, if_pos hc, if_pos hc, hraised]
      exact ⟨rfl, rfl⟩
    · rw [if_neg hc] at h
      cases h
      rw [camelFrom, camelFrom, if_neg hc, if_neg hc, hplain]
      exact ⟨rfl, rfl⟩

/-- The two rules agree on identifiers that start in lower case. -/
theorem serdeName_eq_camelName {ident : String} {c : Char} {rest : List Char}
    (h : dropRaw ident.toList = c :: rest) (hc : c.isLower = true) : serdeName ident = camelName ident := by
  have hmark : c ≠ '_' := by
    rintro rfl
    cases hc
  have hcase : c.toUpper.toLower = c := by
    rw [Char.toLower_toUpper_eq_toLower]
    exact Char.toLower_eq_of_not_isUpper (Char.not_isUpper_of_isLower hc)
  obtain ⟨first, others, hsplit⟩ := List.exists_cons_of_ne_nil (splitAt_ne_nil '_' rest)
  have hwhole : splitAt '_' (c :: rest) = (c :: first) :: others := by
    rw [splitAt, if_neg hmark, hsplit]
  unfold serdeName camelName
  rw [h, hwhole, (camelFrom_eq hwhole).2, List.flatMap_cons]
  show String.ofList (c.toUpper.toLower :: (first ++ others.flatMap raiseFirst)) = _
  rw [hcase]
  rfl

theorem dropRaw_hostField (n : String) : dropRaw (hostField n).toList = (toSnake n).toList := by
  unfold hostField
  split
  · rw [String.toList_append]
    rfl
  · unfold dropRaw
    split
    · next rest hraw =>
      have hmark : '#' ∈ (toSnake n).toList := by
        rw [hraw]
        simp
      exact absurd hmark ((isIdentifier_toSnake n).not_mem rfl)
    · rfl

/-- Snake case starts in lower case, like the name of an attribute. -/
theorem exists_toSnake {n : String} (h : isCamelName n.toList = true) :
    ∃ c rest, (toSnake n).toList = c :: rest ∧ c.isLower = true := by
  have hlettered := lettered_of_isCamelName h
  have hwords := lettered_split hlettered
  obtain ⟨w, ws, hsplit⟩ := List.exists_cons_of_ne_nil (split_ne_nil_of_lettered hlettered)
  have hw : Lettered w := hwords w (hsplit ▸ List.mem_cons_self)
  unfold toSnake snakeChars
  rw [String.toList_ofList, hsplit]
  cases w with
  | nil => exact hw.elim
  | cons c rest =>
    have hlower : c.toLower.isLower = true := by rw [Char.isLower_toLower_eq_isAlpha, hw.1]
    cases ws with
    | nil => exact ⟨_, _, rfl, hlower⟩
    | cons v more => exact ⟨_, _, rfl, hlower⟩

theorem serdeName_hostField {n : String} (h : isCamelName n.toList = true) :
    serdeName (hostField n) = camelName (hostField n) := by
  obtain ⟨c, rest, hsnake, hc⟩ := exists_toSnake h
  exact serdeName_eq_camelName ((dropRaw_hostField n).trans hsnake) hc

/-- The name that a field is read and written under: the one that it is renamed to, or else by the rule. -/
def HostField.serdeName (f : HostField) : String := f.rename.getD (HostModel.serdeName f.name)

theorem serdeName_field {f : Field} (h : isCamelName f.name.toList = true) (docs : Bool) (owner : String) :
    (field docs owner f).serdeName = f.name := by
  have hwire := wireName_field docs owner f
  unfold HostField.wireName at hwire
  unfold HostField.serdeName
  rwa [name_field, serdeName_hostField h, ← name_field]

end HostModel

/-! ## Lines that name fields -/

/-- What a line of a module says about names: that the fields of the type that comes next are renamed to camel
case, that a type starts, that the field that comes next is renamed, or how a field is called. -/
inductive NameMark where
  | renameAll
  | type (name : String)
  | rename (name : String)
  | field (name : String)

namespace NameMark

/-- What the lines say with which a type starts. -/
def ofType (renamed : Bool) (name : String) : List NameMark :=
  (if renamed then [.renameAll] else []) ++ [.type name]

/-- What the lines of a field say. -/
def ofField (rename : Option String) (name : String) : List NameMark :=
  rename.toList.map .rename ++ [.field name]

/-- The names on the wire of the fields that come next. -/
def wireFields (rule : String → String) : List NameMark → List String
  | .field name :: rest => rule name :: wireFields rule rest
  | .rename name :: .field _ :: rest => name :: wireFields rule rest
  | _ => []

/-- The types, each with the names on the wire of its fields; there is a rule for the fields of types that are
renamed, and one for those of others. -/
def wireTypes (camel plain : String → String) : List NameMark → List (String × List String)
  | [] => []
  | .renameAll :: .type name :: rest => (name, wireFields camel rest) :: wireTypes camel plain rest
  | .type name :: rest => (name, wireFields plain rest) :: wireTypes camel plain rest
  | _ :: rest => wireTypes camel plain rest

variable {α β : Type} {rule camel plain : String → String} (rename : α → Option String) (name : α → String)

theorem wireFields_flatMap (fields : List α) (rest : List NameMark) :
    wireFields rule ((fields.flatMap fun f => ofField (rename f) (name f)) ++ rest) =
      (fields.map fun f => (rename f).getD (rule (name f))) ++ wireFields rule rest := by
  induction fields with
  | nil => rfl
  | cons f more ih =>
    rw [List.flatMap_cons, List.append_assoc, List.map_cons, List.cons_append, ← ih, ofField]
    cases rename f <;> rfl

theorem wireTypes_flatMap_fields (fields : List α) (rest : List NameMark) :
    wireTypes camel plain ((fields.flatMap fun f => ofField (rename f) (name f)) ++ rest) =
      wireTypes camel plain rest := by
  induction fields with
  | nil => rfl
  | cons f more ih =>
    rw [List.flatMap_cons, List.append_assoc, ← ih, ofField]
    cases rename f <;> rfl

theorem wireTypes_ofType (renamed : Bool) (type : String) (rest : List NameMark) :
    wireTypes camel plain (ofType renamed type ++ rest) =
      (type, wireFields (if renamed then camel else plain) rest) :: wireTypes camel plain rest := by
  cases renamed <;> rfl

/-- Types are read with the names of their fields, each up to the next type. -/
theorem wireTypes_flatMap (renamed : Bool) (types : List β) (type : β → String) (fields : β → List α) :
    wireTypes camel plain (types.flatMap fun t =>
      ofType renamed (type t) ++ (fields t).flatMap fun f => ofField (rename f) (name f)) =
        types.map fun t =>
          (type t, (fields t).map fun f => (rename f).getD ((if renamed then camel else plain) (name f))) := by
  induction types with
  | nil => rfl
  | cons t more ih =>
    have hend : ∀ rule, wireFields rule (more.flatMap fun t =>
        ofType renamed (type t) ++ (fields t).flatMap fun f => ofField (rename f) (name f)) = [] := by
      intro rule
      cases more with
      | nil => rfl
      | cons next others => cases renamed <;> rfl
    rw [List.flatMap_cons, List.append_assoc, wireTypes_ofType, wireFields_flatMap, hend, List.append_nil,
      wireTypes_flatMap_fields, ih, List.map_cons]

end NameMark

/-! ### Blocks of lines -/

/-- Lines that are read one by one as those marks. -/
structure Yields {α : Type} (read : String → Option α) (lines : List String) (out : List α) : Prop where
  isLine : ∀ l ∈ lines, IsLine l
  read_eq : lines.filterMap read = out

namespace Yields

variable {α β : Type} {read : String → Option α} {ls ls' : List String} {out out' : List α}

theorem nothing (h : ∀ l ∈ ls, IsLine l) (hread : ∀ l ∈ ls, read l = none) : Yields read ls [] :=
  ⟨h, List.filterMap_eq_nil_iff.mpr hread⟩

theorem append (h : Yields read ls out) (h' : Yields read ls' out') :
    Yields read (ls ++ ls') (out ++ out') :=
  ⟨List.forall_mem_append.mpr ⟨h.isLine, h'.isLine⟩, by rw [List.filterMap_append, h.read_eq, h'.read_eq]⟩

theorem spaced {xs : List β} {f : β → List String} {g : β → List α} (hempty : read "" = none)
    (h : ∀ x ∈ xs, Yields read (f x) (g x)) : Yields read (Text.spaced (xs.map f)) (xs.flatMap g) := by
  refine ⟨fun l hl => ?_, ?_⟩
  · rcases mem_spaced hl with rfl | ⟨block, hblock, hl⟩
    · decide
    · obtain ⟨x, hx, rfl⟩ := List.mem_map.mp hblock
      exact (h x hx).isLine l hl
  · rw [filterMap_spaced hempty, List.flatMap_map]
    exact List.flatMap_congr fun x hx => (h x hx).read_eq

theorem text (h : Yields read ls out) : (lines (unlines ls)).filterMap read = out := by
  rw [lines_unlines h.isLine, h.read_eq]

end Yields

/-- Two starts of lines of which no line can have both. -/
def Apart (start start' : String) : Prop :=
  ¬ start.toList <+: start'.toList ∧ ¬ start'.toList <+: start.toList

instance (start start' : String) : Decidable (Apart start start') := by unfold Apart; infer_instance

theorem after?_eq_none_of_apart {start start' : String} (h : Apart start start') (rest : String) :
    after? start (start' ++ rest).toList = none := by
  unfold after?
  rw [if_neg]
  intro hprefix
  rw [List.isPrefixOf_iff_prefix, String.toList_append] at hprefix
  exact (List.prefix_or_prefix_of_prefix hprefix (List.prefix_append _ _)).elim h.1 h.2

theorem append_ne_of_apart {start start' : String} (h : Apart start start') (rest : String) :
    start' ++ rest ≠ start :=
  fun he => h.2 ⟨rest.toList, by rw [← String.toList_append, he]⟩

theorem field?_eq_none_of_apart {start start' : String} (h : Apart start start') (stop : Char) (rest : String) :
    field? start stop (start' ++ rest).toList = none := by
  unfold field?
  rw [after?_eq_none_of_apart h, Option.map_none]

/-! ## Structs -/

namespace HostModel

variable {d : TypeDecl} {starts : List Char} {l : String}

/-- The line before a struct whose fields are renamed. -/
def renameAllLine : String := "#[serde(rename_all = \"camelCase\")]"

/-- What starts the other lines that are read: of a struct, of the name of a field, and of the field. -/
def structStart : String := "pub struct "
def renameStart : String := "    #[serde(rename = \""
def fieldStart : String := "    pub "

/-- What a line of the host models says about names. -/
def nameMark? (line : String) : Option NameMark :=
  if line = renameAllLine then some .renameAll
  else match field? structStart ' ' line.toList with
  | some (name, _) => some (.type name)
  | none =>
    match field? renameStart '"' line.toList with
    | some (name, _) => some (.rename name)
    | none => (field? fieldStart ':' line.toList).map fun f => .field f.1

/-- The structs of a module, each with the names that its fields are read and written under. -/
def wireTypes (text : String) : List (String × List String) :=
  NameMark.wireTypes serdeName (fun ident => String.ofList (dropRaw ident.toList))
    ((lines text).filterMap nameMark?)

theorem nameMark?_eq_none_of_apart (h : Apart renameAllLine l ∧ Apart structStart l ∧ Apart renameStart l ∧
    Apart fieldStart l) (rest : String) : nameMark? (l ++ rest) = none := by
  unfold nameMark?
  rw [if_neg (append_ne_of_apart h.1 rest), field?_eq_none_of_apart h.2.1, field?_eq_none_of_apart h.2.2.1,
    field?_eq_none_of_apart h.2.2.2]
  rfl

theorem nameMark?_eq_none (h : IsLineFrom starts l) (hr : '#' ∉ starts) (hp : 'p' ∉ starts)
    (hb : ' ' ∉ starts) : nameMark? l = none := by
  have hne : l ≠ renameAllLine := by
    rintro rfl
    exact hr (h.start '#' rfl)
  unfold nameMark?
  rw [if_neg hne, field?_eq_none h.start ⟨'p', rfl, hp⟩, field?_eq_none h.start ⟨' ', rfl, hb⟩,
    field?_eq_none h.start ⟨' ', rfl, hb⟩]
  rfl

theorem nameMark?_docLines {indent : String} (hindent : indent ∈ indents) (text : String) :
    ∀ l ∈ docLines indent text, nameMark? l = none := by
  have hapart : ∀ indent ∈ indents, Apart renameAllLine (indent ++ "///") ∧
      Apart structStart (indent ++ "///") ∧ Apart renameStart (indent ++ "///") ∧
        Apart fieldStart (indent ++ "///") := by
    decide
  intro l hl
  obtain ⟨rest, rfl⟩ := docLines_startsWith indent text l hl
  exact nameMark?_eq_none_of_apart (hapart indent hindent) rest

theorem nameMark?_typeDoc (docs : Bool) (n : String) (description : Option String) :
    ∀ l ∈ typeDoc docs n description, nameMark? l = none := by
  unfold typeDoc
  split
  · split
    · exact nameMark?_docLines (by decide) _
    · exact List.forall_mem_singleton.mpr (nameMark?_eq_none_of_apart (by decide) n)
  · exact fun l hl => absurd hl List.not_mem_nil

theorem nameMark?_fieldDoc (docs : Bool) (f : Field) : ∀ l ∈ fieldDoc docs f, nameMark? l = none := by
  unfold fieldDoc
  split
  · split
    · exact nameMark?_docLines (by decide) _
    · exact fun l hl => absurd hl List.not_mem_nil
  · exact fun l hl => absurd hl List.not_mem_nil

theorem nameMark?_struct {n : String} (h : ' ' ∉ n.toList) :
    nameMark? ("pub struct " ++ n ++ " \x7b") = some (.type n) := by
  have hne : "pub struct " ++ n ++ " \x7b" ≠ renameAllLine := by
    rw [String.append_assoc]
    exact append_ne_of_apart (by decide) _
  unfold nameMark?
  rw [if_neg hne, structStart, field?_append h rfl]

theorem nameMark?_rename {n : String} (h : '"' ∉ n.toList) :
    nameMark? ("    #[serde(rename = \"" ++ n ++ "\")]") = some (.rename n) := by
  have hstruct : field? structStart ' ' ("    #[serde(rename = \"" ++ n ++ "\")]").toList = none := by
    rw [String.append_assoc]
    exact field?_eq_none_of_apart (by decide) _ _
  have hne : "    #[serde(rename = \"" ++ n ++ "\")]" ≠ renameAllLine := by
    rw [String.append_assoc]
    exact append_ne_of_apart (by decide) _
  unfold nameMark?
  rw [if_neg hne, hstruct, renameStart, field?_append h rfl]

theorem nameMark?_field {n : String} (h : ':' ∉ n.toList) (type : String) :
    nameMark? ("    pub " ++ n ++ ": " ++ type ++ ",") = some (.field n) := by
  have hline : "    pub " ++ n ++ ": " ++ type ++ "," = "    pub " ++ n ++ (": " ++ type ++ ",") := by
    simp only [String.append_assoc]
  have hnone : ∀ start stop, Apart start "    pub " →
      field? start stop ("    pub " ++ n ++ (": " ++ type ++ ",")).toList = none := fun start stop hapart => by
    rw [String.append_assoc]
    exact field?_eq_none_of_apart hapart stop _
  have hne : "    pub " ++ n ++ (": " ++ type ++ ",") ≠ renameAllLine := by
    rw [String.append_assoc]
    exact append_ne_of_apart (by decide) _
  have hstop : (": " ++ type ++ ",").toList.head? = some ':' := by
    rw [String.append_assoc]
    exact head?_append (by decide)
  unfold nameMark?
  rw [hline, if_neg hne, hnone structStart ' ' (by decide), hnone renameStart '"' (by decide), fieldStart,
    field?_append h hstop]
  rfl

/-- The lines of a field say how it is called, and what it is renamed to. -/
theorem filterMap_fieldLines {field : HostField} (hdoc : ∀ l ∈ field.doc, nameMark? l = none)
    (hname : ':' ∉ field.name.toList) (hrename : ∀ n ∈ field.rename, '"' ∉ n.toList) :
    (fieldLines field).filterMap nameMark? = NameMark.ofField field.rename field.name := by
  have hoptional : ∀ optional : Bool, (if optional then
      ["    #[serde(default, skip_serializing_if = \"Option::is_none\")]"] else []).filterMap nameMark? = [] := by
    decide
  unfold fieldLines NameMark.ofField
  rw [List.filterMap_append, List.filterMap_append, List.filterMap_append, List.filterMap_eq_nil_iff.mpr hdoc,
    hoptional, List.filterMap_cons_some (nameMark?_field hname _), List.filterMap_nil]
  refine congrArg (· ++ _) ?_
  cases hr : field.rename with
  | none => rfl
  | some n => exact List.filterMap_cons_some (nameMark?_rename (hrename n hr))

theorem filterMap_field {f : Field} (h : f.WellNamed) (docs : Bool) (owner : String) :
    (fieldLines (field docs owner f)).filterMap nameMark? =
      NameMark.ofField (field docs owner f).rename (field docs owner f).name := by
  refine filterMap_fieldLines (nameMark?_fieldDoc docs f) ?_ fun n hn => ?_
  · rw [name_field]
    unfold hostField
    split
    · rw [String.toList_append, List.mem_append, not_or]
      exact ⟨by decide, (isIdentifier_toSnake _).not_mem (by decide)⟩
    · exact (isIdentifier_toSnake _).not_mem (by decide)
  · unfold field at hn
    dsimp only at hn
    split at hn
    · cases hn
    · cases hn
      exact h.name.not_mem (by decide)

theorem yields_struct (h : d.WellNamed) (docs : Bool) : Yields nameMark? (structLines (struct docs d))
    (NameMark.ofType true d.name ++
      (struct docs d).fields.flatMap fun f => NameMark.ofField f.rename f.name) := by
  refine ⟨(reads_struct h docs).isLine, ?_⟩
  have hfields : ((struct docs d).fields.flatMap fieldLines).filterMap nameMark? =
      (struct docs d).fields.flatMap fun f => NameMark.ofField f.rename f.name := by
    rw [List.filterMap_flatMap]
    refine List.flatMap_congr fun hostField hmem => ?_
    obtain ⟨f, hf, rfl⟩ := List.mem_map.mp hmem
    exact filterMap_field (h.fields f hf) docs d.name
  have hbefore : ["#[derive(Debug, Clone, PartialEq, Serialize, Deserialize)]", renameAllLine,
      "pub struct " ++ d.name ++ " \x7b"].filterMap nameMark? = NameMark.ofType true d.name := by
    have hrename : nameMark? renameAllLine = some .renameAll := if_pos rfl
    rw [List.filterMap_cons_none (by decide), List.filterMap_cons_some hrename,
      List.filterMap_cons_some (nameMark?_struct (h.name.not_mem (by decide))), List.filterMap_nil]
    rfl
  have hdoc : (struct docs d).doc.filterMap nameMark? = [] :=
    List.filterMap_eq_nil_iff.mpr (nameMark?_typeDoc docs d.name d.description)
  have hend : ["\x7d"].filterMap nameMark? = [] := by decide
  unfold structLines
  rw [List.filterMap_append, List.filterMap_append, List.filterMap_append, hdoc, hfields, hend,
    List.nil_append, List.append_nil]
  exact congrArg (· ++ _) hbefore

theorem yields_plain {ls : List String} (h : ∀ l ∈ ls, IsLineFrom starts l) (hr : '#' ∉ starts)
    (hp : 'p' ∉ starts) (hb : ' ' ∉ starts) : Yields nameMark? ls [] :=
  .nothing (fun l hl => (h l hl).line) fun l hl => nameMark?_eq_none (h l hl) hr hp hb

variable {c : Catalog} {e : Entity} {ds : List TypeDecl}

/-- The fields of a struct are read and written under the names of the fields that were declared. -/
theorem wireFields_struct (hcamel : ∀ f ∈ d.fields, isCamelName f.name.toList = true) (docs : Bool) :
    ((struct docs d).fields.map fun f => f.rename.getD (serdeName f.name)) = d.fields.map Field.name := by
  have hmap : ((struct docs d).fields.map fun f => f.rename.getD (serdeName f.name)) =
      d.fields.map fun f => (field docs d.name f).serdeName := by
    unfold struct HostField.serdeName
    dsimp only
    rw [List.map_map]
    simp only [Function.comp_def]
  rw [hmap]
  exact List.map_congr_left fun f hf => serdeName_field (hcamel f hf) docs d.name

/-- The names that are read from an entity's module are those of the fields that were declared. -/
theorem wireTypes_modelText (he : IsIdentifier e.name) (hds : ∀ d ∈ ds, d.WellNamed)
    (hcamel : ∀ d ∈ ds, ∀ f ∈ d.fields, isCamelName f.name.toList = true) (docs : Bool) :
    wireTypes (modelText e.name (imports c ds) (ds.map (struct docs))) =
      ds.map fun d => (d.name, d.fields.map Field.name) := by
  have hempty : nameMark? "" = none := by decide
  have hheader : Yields nameMark? (header (e.name ++ " model")) [] :=
    yields_plain (isLineFrom_header (he.isLine.append (.of_chars rfl))) (by decide) (by decide) (by decide)
  have himports : Yields nameMark? ([deriveImport] ++ sortedNames ((imports c ds).map importLine)) [] :=
    yields_plain (isLineFrom_imports fun i hi => isIdentifier_of_mem_imports hds hi) (by decide) (by decide)
      (by decide)
  have hblank : Yields nameMark? [""] [] := .nothing (by decide) (List.forall_mem_singleton.mpr hempty)
  have hstructs : Yields nameMark? (if (ds.map (struct docs)).isEmpty then [""]
      else Text.spaced ((ds.map (struct docs)).map structLines))
      (ds.flatMap fun d => NameMark.ofType true d.name ++
        (struct docs d).fields.flatMap fun f => NameMark.ofField f.rename f.name) := by
    cases ds with
    | nil => exact hblank
    | cons d rest =>
      rw [List.map_map]
      exact .spaced hempty fun d hd => yields_struct (hds d hd) docs
  have hall := ((hheader.append himports).append hblank).append hstructs
  have htext : modelText e.name (imports c ds) (ds.map (struct docs)) = unlines
      (header (e.name ++ " model") ++ ([deriveImport] ++ sortedNames ((imports c ds).map importLine)) ++ [""] ++
        if (ds.map (struct docs)).isEmpty then [""] else Text.spaced ((ds.map (struct docs)).map structLines)) := by
    unfold modelText
    rw [← List.append_assoc (header _)]
  unfold wireTypes
  rw [htext, hall.text, List.nil_append, List.nil_append, List.nil_append, NameMark.wireTypes_flatMap]
  refine List.map_congr_left fun d hd => ?_
  rw [if_pos rfl, wireFields_struct (hcamel d hd)]

end HostModel

/-! ## Interfaces -/

namespace ClientModel

variable {d : TypeDecl} {starts : List Char} {l : String}

/-- The name that a member starts with: letters, digits and `_` up to a `:` or to the `?` of a member that may
be left out. -/
def memberName? (cs : List Char) : Option String :=
  let name := cs.takeWhile isIdentChar
  if name ≠ [] ∧ (cs.dropWhile isIdentChar).head? ∈ [some ':', some '?'] then some (String.ofList name) else none

/-- What a line of the client models says about names. -/
def nameMark? (line : String) : Option NameMark :=
  match field? "export interface " ' ' line.toList with
  | some (name, _) => some (.type name)
  | none => ((after? "  " line.toList).bind memberName?).map .field

/-- The interfaces of a module, each with the names of its members. -/
def wireTypes (text : String) : List (String × List String) :=
  NameMark.wireTypes id id ((lines text).filterMap nameMark?)

theorem nameMark?_eq_none (h : IsLineFrom starts l) (he : 'e' ∉ starts) (hb : ' ' ∉ starts) :
    nameMark? l = none := by
  unfold nameMark?
  rw [field?_eq_none h.start ⟨'e', rfl, he⟩, after?_eq_none_of_start h.start ⟨' ', rfl, hb⟩]
  rfl

theorem nameMark?_eq_none_of_apart (h : Apart "export interface " l ∧ Apart "  " l) (rest : String) :
    nameMark? (l ++ rest) = none := by
  unfold nameMark?
  rw [field?_eq_none_of_apart h.1, after?_eq_none_of_apart h.2]
  rfl

theorem field?_indented (rest : String) : field? "export interface " ' ' ("  " ++ rest).toList = none :=
  field?_eq_none_of_apart (by decide) _ _

/-- On an indented line that does not go on with a name there is none. -/
theorem nameMark?_indented {rest : String} (h : ∀ c ∈ rest.toList.head?, isIdentChar c = false) :
    nameMark? ("  " ++ rest) = none := by
  have hnone : memberName? rest.toList = none := by
    have htake : rest.toList.takeWhile isIdentChar = [] := by
      cases hrest : rest.toList with
      | nil => rfl
      | cons c more =>
        rw [hrest] at h
        exact List.takeWhile_cons_of_neg (by rw [h c rfl]; exact Bool.false_ne_true)
    unfold memberName?
    dsimp only
    rw [htake, if_neg fun hne => hne.1 rfl]
  unfold nameMark?
  rw [field?_indented, after?_append, Option.bind_some, hnone]
  rfl

theorem nameMark?_commentLines {indent : String} (hindent : indent ∈ indents) (text : String) :
    ∀ l ∈ commentLines indent text, nameMark? l = none := by
  -- a comment starts with a mark, and goes on with a blank and a mark
  have hmark : ∀ mark ∈ ["/**", " * ", " */", "/** "], ∀ rest, nameMark? (indent ++ mark ++ rest) = none := by
    intro mark hmark rest
    simp only [indents, List.mem_cons, List.not_mem_nil, or_false] at hindent
    rcases hindent with rfl | rfl
    · rw [String.empty_append]
      refine nameMark?_eq_none_of_apart ?_ rest
      revert mark
      decide
    · rw [String.append_assoc]
      refine nameMark?_indented fun c hc => ?_
      have hhead : ∀ mark ∈ ["/**", " * ", " */", "/** "], mark ≠ "" ∧
          (mark.toList.head?.all fun c => !isIdentChar c) = true := by decide
      obtain ⟨hne, hstart⟩ := hhead mark hmark
      rw [head?_append hne] at hc
      rw [hc] at hstart
      exact Bool.not_eq_true' _ |>.mp hstart
  intro l hl
  unfold commentLines at hl
  dsimp only at hl
  split at hl
  · rw [List.mem_append, List.mem_append, List.mem_singleton, List.mem_singleton] at hl
    rcases hl with (rfl | hl) | rfl
    · have hopen := hmark "/**" (by decide) ""
      rwa [String.append_empty] at hopen
    · obtain ⟨line, -, rfl⟩ := List.mem_map.mp hl
      exact hmark " * " (by decide) _
    · have hclose := hmark " */" (by decide) ""
      rwa [String.append_empty] at hclose
  · rw [List.mem_singleton.mp hl, String.append_assoc]
    exact hmark "/** " (by decide) _

theorem nameMark?_commentIf {indent : String} (hindent : indent ∈ indents) (text : Option String) :
    ∀ l ∈ commentIf indent text, nameMark? l = none := by
  cases text with
  | none => exact fun l hl => absurd hl List.not_mem_nil
  | some text => exact nameMark?_commentLines hindent text

theorem nameMark?_interface {n : String} (h : ' ' ∉ n.toList) :
    nameMark? ("export interface " ++ n ++ " \x7b") = some (.type n) := by
  unfold nameMark?
  rw [field?_append h rfl]

theorem nameMark?_member {n rest : String} (h : IsIdentifier n) (hne : n ≠ "")
    (hrest : rest.toList.head? ∈ [some ':', some '?']) : nameMark? ("  " ++ (n ++ rest)) = some (.field n) := by
  have hname : n.toList ≠ [] := fun hnil => hne (String.toList_eq_nil_iff.mp hnil)
  obtain ⟨c, more, hc⟩ : ∃ c more, rest.toList = c :: more := by
    apply List.exists_cons_of_ne_nil
    intro hnil
    rw [hnil] at hrest
    exact absurd hrest (by decide)
  have hstop : ¬ isIdentChar c = true := by
    rw [hc] at hrest
    simp only [List.head?_cons, List.mem_cons, Option.some.injEq, List.not_mem_nil, or_false] at hrest
    rcases hrest with rfl | rfl <;> decide
  have hmember : memberName? (n ++ rest).toList = some n := by
    unfold memberName?
    dsimp only
    rw [String.toList_append, List.takeWhile_append_of_pos h, List.dropWhile_append_of_pos h, hc,
      List.takeWhile_cons_of_neg hstop, List.dropWhile_cons_of_neg hstop, List.append_nil, ← hc,
      if_pos ⟨hname, hrest⟩, String.ofList_toList]
  unfold nameMark?
  rw [field?_indented, after?_append, Option.bind_some, hmember]
  rfl

/-- The lines of a member say how it is called. -/
theorem filterMap_member {f : Field} (h : f.WellNamed) (hcamel : isCamelName f.name.toList = true) (docs : Bool) :
    (memberLines (member docs f)).filterMap nameMark? = NameMark.ofField none f.name := by
  have hne : f.name ≠ "" := by
    intro hnil
    rw [hnil] at hcamel
    cases hcamel
  have hline : nameMark? ("  " ++ f.name ++ (if (member docs f).optional then "?" else "") ++ ": " ++
      fieldType f.type ++ ";") = some (.field f.name) := by
    simp only [String.append_assoc]
    refine nameMark?_member h.name hne ?_
    split
    · rw [head?_append (by decide)]
      decide
    · rw [String.empty_append, head?_append (by decide)]
      decide
  unfold memberLines
  rw [List.filterMap_append, List.filterMap_eq_nil_iff.mpr (nameMark?_commentIf (by decide) _)]
  exact List.filterMap_cons_some hline

theorem yields_interface (h : d.WellNamed) (hcamel : ∀ f ∈ d.fields, isCamelName f.name.toList = true)
    (docs : Bool) : Yields nameMark? (interfaceLines (interface docs d))
      (NameMark.ofType false d.name ++ d.fields.flatMap fun f => NameMark.ofField none f.name) := by
  refine ⟨(reads_interface h docs).isLine, ?_⟩
  have hmembers : ((interface docs d).members.flatMap memberLines).filterMap nameMark? =
      d.fields.flatMap fun f => NameMark.ofField none f.name := by
    rw [List.filterMap_flatMap]
    show (d.fields.map (member docs)).flatMap _ = _
    rw [List.flatMap_map]
    exact List.flatMap_congr fun f hf => filterMap_member (h.fields f hf) (hcamel f hf) docs
  have hend : ["\x7d"].filterMap nameMark? = [] := by decide
  have hstart : ["export interface " ++ d.name ++ " \x7b"].filterMap nameMark? = [.type d.name] :=
    List.filterMap_cons_some (nameMark?_interface (h.name.not_mem (by decide)))
  unfold interfaceLines
  rw [List.filterMap_append, List.filterMap_append, List.filterMap_append, hmembers, hend,
    List.filterMap_eq_nil_iff.mpr (nameMark?_commentIf (by decide) _), List.nil_append, List.append_nil]
  exact congrArg (· ++ _) hstart

theorem yields_plain {ls : List String} (h : ∀ l ∈ ls, IsLineFrom starts l) (he : 'e' ∉ starts)
    (hb : ' ' ∉ starts) : Yields nameMark? ls [] :=
  .nothing (fun l hl => (h l hl).line) fun l hl => nameMark?_eq_none (h l hl) he hb

variable {c : Catalog} {ds : List TypeDecl}

/-- The names that are read from an entity's module are those of the fields that were declared. -/
theorem wireTypes_modelText (hds : ∀ d ∈ ds, d.WellNamed)
    (hcamel : ∀ d ∈ ds, ∀ f ∈ d.fields, isCamelName f.name.toList = true) (docs : Bool) :
    wireTypes (modelText (imports c ds) (ds.map (interface docs))) =
      ds.map fun d => (d.name, d.fields.map Field.name) := by
  have hempty : nameMark? "" = none := by decide
  have hheader : Yields nameMark? header [] := yields_plain isLineFrom_header (by decide) (by decide)
  have himports : Yields nameMark? (sortedNames ((imports c ds).map importLine)) [] :=
    yields_plain (isLineFrom_imports fun i hi => isIdentifier_of_mem_imports hds hi) (by decide) (by decide)
  have hblank : Yields nameMark? [""] [] := .nothing (by decide) (List.forall_mem_singleton.mpr hempty)
  have hblock : Yields nameMark? (if (sortedNames ((imports c ds).map importLine)).isEmpty then []
      else sortedNames ((imports c ds).map importLine) ++ [""]) [] := by
    split
    · exact .nothing (List.forall_mem_nil _) (List.forall_mem_nil _)
    · exact himports.append hblank
  have hinterfaces : Yields nameMark? (Text.spaced ((ds.map (interface docs)).map interfaceLines))
      (ds.flatMap fun d => NameMark.ofType false d.name ++
        d.fields.flatMap fun f => NameMark.ofField none f.name) := by
    rw [List.map_map]
    exact .spaced hempty fun d hd => yields_interface (hds d hd) (hcamel d hd) docs
  have hall := (hheader.append hblock).append hinterfaces
  unfold wireTypes modelText
  dsimp only
  rw [hall.text, List.nil_append, List.nil_append,
    NameMark.wireTypes_flatMap (fun _ => none) Field.name false ds TypeDecl.name TypeDecl.fields]
  rfl

end ClientModel

/-! ## Both sides -/

/-- What is read from the modules of a document's entity. Both have the same types, each once, with the same
names of fields in the same order: the entity's own type with all attributes of the document, and every other
type with some of them or with the fields of an envelope. -/
structure WireNames (d : SchemaDoc) (e : Entity) (host client : String) : Prop where
  same : (HostModel.wireTypes host).Perm (ClientModel.wireTypes client)
  types : ∀ n, n ∈ (HostModel.wireTypes host).map Prod.fst ↔ n ∈ modelNames e
  once : ((HostModel.wireTypes host).map Prod.fst).Nodup
  own : (d.name, d.body.attributes.map AttributeDoc.name) ∈ HostModel.wireTypes host
  declared : ∀ type ∈ HostModel.wireTypes host,
    (∀ n ∈ type.2, n ∈ d.body.attributes.map AttributeDoc.name) ∨ type.2 = ["statusCode", "message", "data"]

variable {c : Catalog} {corpus : Corpus} {o o' : Options} {r r' q q' : Registry} {files files' : Files}
  {e : Entity} {decls decls' : List TypeDecl}

/-- The models bring the same types, whatever the order in which they write them. -/
theorem perm_of_artifacts (hc : c.IsSound) (he : e ∈ c.entityList) (h : Artifact e decls) (h' : Artifact e decls')
    (hb : ∀ d ∈ decls, Brings e d) (hb' : ∀ d ∈ decls', Brings e d) : decls.Perm decls' := by
  have hentity := hc.entity?_of_mem he
  have hmem : ∀ {ds ds' : List TypeDecl}, Artifact e ds → Artifact e ds' → (∀ d ∈ ds, Brings e d) →
      (∀ d ∈ ds', Brings e d) → ∀ d ∈ ds, d ∈ ds' := by
    intro ds ds' h h' hb hb' d hd
    obtain ⟨d', hd', hn⟩ := List.mem_map.mp ((h'.names _).mpr ((h.names _).mp (List.mem_map_of_mem hd)))
    rw [eq_of_brings hc hentity hentity (hb d hd) (hb' d' hd') hn.symm]
    exact hd'
  refine (List.perm_ext_iff_of_nodup (.of_map _ h.once) (.of_map _ h'.once)).mpr fun d => ?_
  exact ⟨hmem h h' hb hb' d, hmem h' h hb' hb d⟩

/-- What is read from modules in which the entity of a document brings those types. -/
theorem wireNames_of_eq {d : SchemaDoc} {enums : NameMap (List String)} {host client : String}
    (he : Corpus.toEntity enums d = e) (h : Artifact e decls) (hperm : decls.Perm decls')
    (hhost : HostModel.wireTypes host = decls.map fun d => (d.name, d.fields.map Field.name))
    (hclient : ClientModel.wireTypes client = decls'.map fun d => (d.name, d.fields.map Field.name)) :
    WireNames d e host client := by
  have hattributes : e.attributes.map Attribute.name = d.body.attributes.map AttributeDoc.name := by
    rw [← he, Corpus.attributes_toEntity, List.map_map]
    rfl
  have hnames : (HostModel.wireTypes host).map Prod.fst = decls.map TypeDecl.name := by
    rw [hhost, List.map_map]
    rfl
  refine ⟨?_, fun n => ?_, ?_, ?_, ?_⟩
  · rw [hhost, hclient]
    exact hperm.map _
  · rw [hnames]
    exact h.names n
  · rw [hnames]
    exact h.once
  · rw [hhost, List.mem_map]
    refine ⟨entityDecl e, h.own, Prod.ext ?_ ?_⟩
    · exact he ▸ Corpus.name_toEntity enums d
    · rw [← hattributes]
      unfold entityDecl
      rw [List.map_map]
      rfl
  · rw [hhost, List.forall_mem_map]
    intro type htype
    rcases HostModel.names_of_belongs (h.belongs type htype) with hfields | hfields
    · refine .inl (List.forall_mem_map.mpr fun f hf => ?_)
      obtain ⟨a, ha, hname⟩ := hfields f hf
      rw [← hattributes, hname]
      exact List.mem_map_of_mem ha
    · exact .inr hfields

/-- The host models and the client models of an accepted corpus send every field under the name of the
attribute that was declared: serde finds it again from each field of a struct, and it is the name of the
member of the interface. -/
theorem wireNames_of_render (hp : corpus.IsParsed) (h : corpus.catalog = .ok c) (hr : r.IsFresh .rust)
    (hhost : Target.render o c .rust r = (.ok files, r')) (hq : q.IsFresh .typescript)
    (hclient : Target.render o' c .typescript q = (.ok files', q')) :
    ∀ e ∈ c.entityList, ∃ d ∈ corpus.documents, d.name = e.name ∧ ∃ host client,
      files.get? (Naming.modelFile e.name "rs") = some host ∧
        files'.get? (Naming.modelFile e.name "ts") = some client ∧ WireNames d e host client := by
  have hc := Corpus.isSound_of_catalog hp h
  have hn := Corpus.isNamed_of_catalog hp h
  obtain ⟨enums, owned, hassembled⟩ := Corpus.assembled_of_catalog h
  obtain ⟨decls, hprinted, hbrings⟩ := exists_printed hc (by decide) hr hhost
  obtain ⟨decls', hprinted', hbrings'⟩ := exists_printed hc (by decide) hq hclient
  intro e he
  obtain ⟨d, hd, -, hname, hentity⟩ := hassembled.exists_document hp (hc.entity?_of_mem he)
  have hmodule : ∀ (t : Target) (decls : Entity → List TypeDecl),
      ModelModule.types e (decls e) ∈ t.modelModules c decls := fun t decls =>
    List.mem_append_left _ (List.mem_append_left _ (List.mem_map_of_mem he))
  obtain ⟨host, htext, hfile⟩ := hprinted.modules _ (hmodule .rust decls)
  obtain ⟨client, htext', hfile'⟩ := hprinted'.modules _ (hmodule .typescript decls')
  cases htext
  cases htext'
  have hartifact := hprinted.artifacts e he
  have hartifact' := hprinted'.artifacts e he
  refine ⟨d, hd, hname, _, _, hfile, hfile', wireNames_of_eq hentity hartifact
    (perm_of_artifacts hc he hartifact hartifact' (hbrings e he) (hbrings' e he)) ?_ ?_⟩
  · exact HostModel.wireTypes_modelText (isIdentifier_entity hc he)
      (fun d hd => wellNamed_of_belongs hc hn he (hartifact.belongs d hd))
      (fun d hd f => HostModel.isCamelName_field hc he (hartifact.belongs d hd)) o.docs
  · exact ClientModel.wireTypes_modelText
      (fun d hd => wellNamed_of_belongs hc hn he (hartifact'.belongs d hd))
      (fun d hd f => HostModel.isCamelName_field hc he (hartifact'.belongs d hd)) o'.docs

/-- The source of a table with attributes that serde's rule leads to, and others that it misses. -/
def parcelSource : List String :=
  ["name: Parcel", "kind: table", "version: 1", "model:", "  keys:",
    "    primary: \x7bpartition: userID, sort: eTag\x7d", "  attributes:",
    "    - \x7bname: userID, type: string\x7d", "    - \x7bname: eTag, type: string\x7d",
    "    - \x7bname: type, type: string, description: 'pub kind: of parcel'\x7d",
    "    - \x7bname: line2Text, type: string\x7d"]

/-- The table that it is parsed to. -/
def parcels : Corpus :=
  let attr (name : String) (description : Option String) : AttributeDoc :=
    ⟨name, .scalar .string, false, description, none⟩
  ⟨[⟨⟨"Parcel.yml"⟩, "Parcel", none, .table ⟨"1", "userID", some "eTag", none,
    [attr "userID" none, attr "eTag" none, attr "type" (some "pub kind: of parcel"), attr "line2Text" none]⟩⟩], []⟩

theorem parcels_isParsed : parcels.IsParsed :=
  Corpus.isParsed_of_mapM (s := [(⟨"Parcel.yml"⟩, parcelSource)]) (by decide +kernel) (.inl rfl)

/-- The catalog of the table. -/
def parcelCatalog : Catalog := parcels.catalog.toOption.getD .empty

theorem catalog_parcels : parcels.catalog = .ok parcelCatalog := by decide +kernel

theorem wireNames_of_render_parcels : parcels.IsParsed ∧ parcels.catalog = .ok parcelCatalog ∧
    Registry.IsFresh .rust .empty ∧ Registry.IsFresh .typescript .empty ∧
      parcelCatalog.entityList.map Entity.name = ["Parcel"] ∧ ∀ o o' : Options, ∃ files r' files' q',
        Target.rust.render o parcelCatalog .empty = (.ok files, r') ∧
          Target.typescript.render o' parcelCatalog .empty = (.ok files', q') ∧
            ∀ e ∈ parcelCatalog.entityList, ∃ d ∈ parcels.documents, d.name = e.name ∧ ∃ host client,
              files.get? (Naming.modelFile e.name "rs") = some host ∧
                files'.get? (Naming.modelFile e.name "ts") = some client ∧ WireNames d e host client := by
  have hcheck : ∀ docs, Target.rust.check docs parcelCatalog = .ok () := by decide +kernel
  have hc := Corpus.isSound_of_catalog parcels_isParsed catalog_parcels
  have hfresh : ∀ t, Registry.IsFresh t .empty := fun t => Registry.isFresh_empty t
  refine ⟨parcels_isParsed, catalog_parcels, hfresh _, hfresh _, by decide +kernel, fun o o' => ?_⟩
  obtain ⟨files, r', hhost⟩ := Target.exists_render_of_check (o := o) hc (hfresh _) (hcheck o.docs)
  obtain ⟨files', q', hclient⟩ :=
    Target.exists_render_of_check (o := o') (t := .typescript) hc (hfresh _) rfl
  exact ⟨files, r', files', q', hhost, hclient,
    wireNames_of_render parcels_isParsed catalog_parcels (hfresh _) hhost (hfresh _) hclient⟩

end SchemaGen
