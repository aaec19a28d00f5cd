import SchemaGen.Members
import SchemaGen.Text.Lines

/-!
# JSON documents

Texts, lists and objects, and how they are written over indented lines.
-/

namespace SchemaGen

/-- A JSON value without numbers. -/
inductive Json where
  | text (value : String)
  | list (items : List Json)
  | object (members : List (String × Json))
  deriving Repr

namespace Json

/-- A hexadecimal digit. -/
def hexDigit (n : Nat) : Char := "0123456789abcdef".toList.getD n '0'

/-- A character inside a text. -/
def escapeChar (c : Char) : List Char :=
  match c with
  | '"' => ['\\', '"']
  | '\\' => ['\\', '\\']
  | '\n' => ['\\', 'n']
  | '\r' => ['\\', 'r']
  | '\t' => ['\\', 't']
  | '\x08' => ['\\', 'b']
  | '\x0c' => ['\\', 'f']
  | c =>
    if c.toNat < 0x20 then ['\\', 'u', '0', '0', hexDigit (c.toNat / 16), hexDigit (c.toNat % 16)]
    else [c]

/-- A text between quotes. -/
def quoted (s : String) : String := "\"" ++ String.ofList (s.toList.flatMap escapeChar) ++ "\""

mutual

/-- The value as text, two spaces for each level of nesting; `depth` levels are open around it. -/
def render (depth : Nat) : Json → String
  | .text s => quoted s
  | .list [] => "[]"
  | .list (item :: rest) =>
    "[\n" ++ renderItems (depth + 1) (item :: rest) ++ "\n" ++ Text.spaces (2 * depth) ++ "]"
  | .object [] => "\x7b\x7d"
  | .object (m :: rest) =>
    "\x7b\n" ++ renderMembers (depth + 1) (m :: rest) ++ "\n" ++ Text.spaces (2 * depth) ++ "\x7d"

/-- The members of a list, one in a line. -/
def renderItems (depth : Nat) : List Json → String
  | [] => ""
  | [item] => Text.spaces (2 * depth) ++ render depth item
  | item :: rest => Text.spaces (2 * depth) ++ render depth item ++ ",\n" ++ renderItems depth rest

/-- The members of an object, one in a line. -/
def renderMembers (depth : Nat) : List (String × Json) → String
  | [] => ""
  | [(name, value)] => Text.spaces (2 * depth) ++ quoted name ++ ": " ++ render depth value
  | (name, value) :: rest =>
    Text.spaces (2 * depth) ++ quoted name ++ ": " ++ render depth value ++ ",\n" ++
      renderMembers depth rest

end

/-- The value as a document of its own. -/
def document (j : Json) : String := render 0 j ++ "\n"

end Json

end SchemaGen
