/-!
# Bytes as text

Reading UTF-8 in which some bytes may be wrong: each longest stretch of bytes that starts a character
but does not complete it, and each byte that cannot start one, reads as the replacement character.
-/

namespace SchemaGen.Text

/-- The character that stands for wrong bytes. -/
def replacement : Char := '\uFFFD'

/-- A character of which bytes are still to come: the bits that were read, how many bytes are to come,
and the bounds of the next one. -/
structure Partial where
  bits : Nat
  missing : Nat
  low : Nat
  high : Nat
  deriving DecidableEq, Repr

/-- The character that a byte starts, unless it is a whole one or starts none. -/
def startsPartial? (b : Nat) : Option Partial :=
  if 0xC2 ≤ b ∧ b ≤ 0xDF then some ⟨b - 0xC0, 1, 0x80, 0xBF⟩
  else if b = 0xE0 then some ⟨0, 2, 0xA0, 0xBF⟩
  else if b = 0xED then some ⟨0xD, 2, 0x80, 0x9F⟩
  else if 0xE1 ≤ b ∧ b ≤ 0xEF then some ⟨b - 0xE0, 2, 0x80, 0xBF⟩
  else if b = 0xF0 then some ⟨0, 3, 0x90, 0xBF⟩
  else if 0xF1 ≤ b ∧ b ≤ 0xF3 then some ⟨b - 0xF0, 3, 0x80, 0xBF⟩
  else if b = 0xF4 then some ⟨4, 3, 0x80, 0x8F⟩
  else none

/-- What a byte reads as at the start of a character, and what is to come. -/
def readStart (b : Nat) : List Char × Option Partial :=
  if b < 0x80 then ([Char.ofNat b], none)
  else match startsPartial? b with
    | some p => ([], some p)
    | none => ([replacement], none)

/-- What a byte reads as after the bytes of `p`. -/
def readNext (p : Partial) (b : Nat) : List Char × Option Partial :=
  if p.low ≤ b ∧ b ≤ p.high then
    let bits := p.bits * 64 + (b - 0x80)
    if p.missing ≤ 1 then ([Char.ofNat bits], none)
    else ([], some ⟨bits, p.missing - 1, 0x80, 0xBF⟩)
  else
    let (cs, next) := readStart b
    (replacement :: cs, next)

/-- The text of bytes that follow those of `p`. -/
def decodeFrom : Option Partial → List UInt8 → List Char
  | none, [] => []
  | some _, [] => [replacement]
  | p, b :: rest =>
    let (cs, next) := match p with
      | none => readStart b.toNat
      | some p => readNext p b.toNat
    cs ++ decodeFrom next rest

/-- The text of bytes. -/
def decode (bytes : ByteArray) : String :=
  match String.fromUTF8? bytes with
  | some s => s
  | none => String.ofList (decodeFrom none bytes.toList)

example : decodeFrom none [0x61, 0xE2, 0x82, 0xAC, 0xFF, 0xE2, 0x82, 0x62] =
    ['a', '€', '\uFFFD', '\uFFFD', 'b'] := by decide

end SchemaGen.Text
