/-!
# Blank text

White space as the Unicode property `White_Space` lists it, trimming, and the blank test that the
loader applies to every field that may not be empty.

Results:
1. `trimLeft_eq_nil_iff`: trimming leaves nothing exactly when every character is blank.
-/

namespace SchemaGen.Text

/-- The characters with the property `White_Space`, as closed ranges of code points. -/
def blankRanges : List (Nat × Nat) :=
  [(0x09, 0x0D), (0x20, 0x20), (0x85, 0x85), (0xA0, 0xA0), (0x1680, 0x1680), (0x2000, 0x200A),
   (0x2028, 0x2029), (0x202F, 0x202F), (0x205F, 0x205F), (0x3000, 0x3000)]

/-- A character is blank when it lies in one of the ranges. -/
def isBlank (c : Char) : Bool :=
  blankRanges.any fun r => r.1 ≤ c.toNat && c.toNat ≤ r.2

/-- Drops blank characters at the front. -/
def trimLeft (cs : List Char) : List Char := cs.dropWhile isBlank

/-- Drops blank characters at the back. -/
def trimRight (cs : List Char) : List Char := (cs.reverse.dropWhile isBlank).reverse

/-- Drops blank characters at both ends. -/
def trimChars (cs : List Char) : List Char := trimRight (trimLeft cs)

/-- The text without blank characters at its ends. -/
def trim (s : String) : String := String.ofList (trimChars s.toList)

/-- The text without blank characters at its end. -/
def trimEnd (s : String) : String := String.ofList (trimRight s.toList)

/-- Whether the text holds blank characters only. -/
def isBlankText (s : String) : Bool := s.toList.all isBlank

theorem trimLeft_eq_nil_iff (cs : List Char) : trimLeft cs = [] ↔ ∀ c ∈ cs, isBlank c = true := by
  unfold trimLeft
  induction cs with
  | nil => simp
  | cons c r ih => by_cases h : isBlank c = true <;> simp [h, ih]

example : trimChars [' ', 'a', '\u3000'] = ['a'] := by decide
example : isBlank '\u200b' = false := by decide

end SchemaGen.Text
