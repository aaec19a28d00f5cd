import SchemaGen.Naming.Words

/-!
# Case conversions

Camel and Pascal case put capitalised words next to each other by `compact`, so that no two words
merge; snake and kebab case put lower-case words between separators.

Results:
1. `toSnake_of_split_eq`: the conversions depend on the words of a text alone.
-/

namespace SchemaGen.Naming

/-- The word in lower case. -/
def lower (w : Word) : Word := w.map Char.toLower

/-- The word with its first letter in upper case and the others in lower case. -/
def capitalize : Word → Word
  | [] => []
  | c :: rest => c.toUpper :: lower rest

/-- The words of a camel-case identifier: the first in lower case, the others capitalised. -/
def camelWords : List Word → List Word
  | [] => []
  | first :: rest => lower first :: rest.map capitalize

/-- Camel case on characters. -/
def camelChars (cs : List Char) : List Char := compact (camelWords (split cs))

/-- Pascal case on characters. -/
def pascalChars (cs : List Char) : List Char := compact ((split cs).map capitalize)

/-- Snake case on characters. -/
def snakeChars (cs : List Char) : List Char := joinWith '_' ((split cs).map lower)

/-- Kebab case on characters. -/
def kebabChars (cs : List Char) : List Char := joinWith '-' ((split cs).map lower)

/-- The text in camel case: `createdAt`. -/
def toCamel (s : String) : String := String.ofList (camelChars s.toList)

/-- The text in Pascal case: `CreatedAt`. -/
def toPascal (s : String) : String := String.ofList (pascalChars s.toList)

/-- The text in snake case: `created_at`. -/
def toSnake (s : String) : String := String.ofList (snakeChars s.toList)

/-- The text in kebab case: `created-at`. -/
def toKebab (s : String) : String := String.ofList (kebabChars s.toList)

/-- The words of a text, with the case they were written in. -/
def words (s : String) : List String := (split s.toList).map String.ofList

theorem toSnake_of_split_eq {s t : String} (h : split s.toList = split t.toList) :
    toSnake s = toSnake t := by
  simp [toSnake, snakeChars, h]

example : pascalChars "x_y_z".toList = "X_Y_Z".toList := by decide
example : camelChars "x_y_z".toList = "xY_Z".toList := by decide
example : snakeChars "XMLHttpRequest".toList = "xml_http_request".toList := by decide

end SchemaGen.Naming
