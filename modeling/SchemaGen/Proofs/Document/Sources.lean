import Mathlib.Data.String.Basic
import SchemaGen.Document.Source

/-!
# Sources in ASCII

The characters of a text are held as bytes, and to take them out again is slow in a proof by computation.
In a text of ASCII characters each byte is one character. A source is only looked at through its characters,
so that it may be parsed from its bytes where they are ASCII.

Results:
1. `toList_eq_asciiChars`: the characters of a text in ASCII.
2. `SchemaDoc.parseAscii_eq`: the document in a source, from its bytes.
-/

namespace SchemaGen

namespace Text

/-- The bytes of a text. -/
def bytes (s : String) : List UInt8 := s.toByteArray.data.toList

/-- The characters that bytes stand for in ASCII. -/
def asciiChars (s : String) : List Char := (bytes s).map fun b => Char.ofNat b.toNat

theorem bytes_eq_flatMap (s : String) : bytes s = s.toList.flatMap String.utf8EncodeChar := by
  unfold bytes
  rw [← String.utf8Encode_toList]
  show ((s.toList.flatMap String.utf8EncodeChar).toByteArray).data.toList = _
  rw [List.data_toByteArray]

/-- A byte that holds some bits of a character over a marker is not below 128, as no marker is. -/
theorem not_lt_of_add {n k : Nat} (hk : 128 ≤ k) (hn : n + k < 256) : ¬ UInt8.ofNat (n + k) < 128 := by
  rw [UInt8.lt_iff_toNat_lt, UInt8.toNat_ofNat']
  show ¬ (n + k) % 256 < 128
  omega

/-- A character is written as one byte below 128, or as bytes of which the first one is not. -/
theorem utf8EncodeChar_cases (c : Char) :
    String.utf8EncodeChar c = [UInt8.ofNat c.toNat] ∧ c.toNat < 128 ∨
      ∃ b ∈ String.utf8EncodeChar c, ¬ b < 128 := by
  unfold String.utf8EncodeChar
  dsimp only
  split
  · next h => exact .inl ⟨rfl, Nat.lt_succ_of_le h⟩
  right
  split
  · exact ⟨_, List.mem_cons_self, not_lt_of_add (by omega) (by omega)⟩
  split
  · exact ⟨_, List.mem_cons_self, not_lt_of_add (by omega) (by omega)⟩
  · exact ⟨_, List.mem_cons_self, not_lt_of_add (by omega) (by omega)⟩

theorem toList_eq_asciiChars {s : String} (h : ∀ b ∈ bytes s, b < 128) : s.toList = asciiChars s := by
  unfold asciiChars
  rw [bytes_eq_flatMap] at h ⊢
  generalize s.toList = cs at h
  induction cs with
  | nil => rfl
  | cons c rest ih =>
    rw [List.flatMap_cons, List.forall_mem_append] at h
    rw [List.flatMap_cons, List.map_append, ← ih h.2]
    rcases utf8EncodeChar_cases c with ⟨he, hc⟩ | ⟨b, hb, hlarge⟩
    · have hchar : Char.ofNat (UInt8.ofNat c.toNat).toNat = c := by
        rw [UInt8.toNat_ofNat', Nat.mod_eq_of_lt (by omega), Char.ofNat_toNat]
      rw [he, List.map_singleton, hchar]
      rfl
    · exact absurd (h.1 b hb) hlarge

end Text

/-- The tokens of characters. -/
def Yaml.tokensOfChars? (cs : List Char) : Option (List Yaml.Token) :=
  if cs.all Yaml.isAllowed then Yaml.Lexer.run (cs.length + 2) (.start cs) else none

namespace SchemaDoc

/-- The document in the characters of a source. -/
def ofChars (file : Path) (cs : List Char) : Except SchemaFault SchemaDoc :=
  let draft? : Option Draft.Document :=
    if cs.all Text.isBlank then some {}
    else do
      let tokens ← Yaml.tokensOfChars? cs
      let tree ← Yaml.Tree.ofTokens? tokens
      tree.run (Draft.Document.read tree.anchors)
  match draft? with
  | some draft => Rules.document file draft
  | none => .error ⟨file, "document", .unreadable⟩

theorem parse_eq_ofChars (file : Path) (source : String) : parse file source = ofChars file source.toList := by
  unfold parse ofChars Draft.Document.ofSource? Yaml.Tree.read?
  simp only [Option.bind_eq_bind, Option.bind_assoc]
  rfl

/-- The document in a source, which is taken from its bytes where they are ASCII. -/
def parseAscii (file : Path) (source : String) : Except SchemaFault SchemaDoc :=
  if (Text.bytes source).all fun b => b < 128 then ofChars file (Text.asciiChars source)
  else parse file source

theorem parseAscii_eq (file : Path) (source : String) : parseAscii file source = parse file source := by
  unfold parseAscii
  split
  · next h =>
    have hbytes : ∀ b ∈ Text.bytes source, b < 128 := fun b hb =>
      decide_eq_true_iff.mp (List.all_eq_true.mp h b hb)
    rw [parse_eq_ofChars, Text.toList_eq_asciiChars hbytes]
  · rfl

end SchemaDoc

end SchemaGen
