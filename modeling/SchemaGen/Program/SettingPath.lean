import SchemaGen.Program.Setting

/-!
# Paths of settings

A path leads through tables by names and through lists by places: `logging.level`, `codegen[0]`. A
place below zero counts from the end of a list. A text that is no such path is one name.
-/

namespace SchemaGen.Program

/-- A step of a path. -/
inductive Step where
  /-- To the entry of a table. -/
  | name (name : String)
  /-- To the member of a list. -/
  | place (index : Int)
  deriving DecidableEq, Repr

namespace Step

/-- The characters of names in a path. -/
def isNameChar (c : Char) : Bool := c.isAlphanum || c == '_' || c == '-'

/-- A space or a tab. -/
def isGap (c : Char) : Bool := c == ' ' || c == '\t'

/-- The name that a path goes on with, and what follows it. -/
def name? (cs : List Char) : Option (Step × List Char) :=
  let name := cs.takeWhile isNameChar
  if name.isEmpty then none else some (.name (lower (String.ofList name)), cs.dropWhile isNameChar)

/-- The integer of 64 bits that digits after a minus or after no sign denote. -/
def index? : List Char → Option Int
  | '+' :: _ => none
  | cs => (Decimal.integer? cs).filter Decimal.fitsSigned

/-- The place that a path goes on with after its bracket, and what follows the closing one. Gaps may
stand around the number. -/
def place? (cs : List Char) : Option (Step × List Char) :=
  match cs.dropWhile (· ≠ ']') with
  | _ :: rest =>
    let number := ((cs.takeWhile (· ≠ ']')).dropWhile isGap).reverse.dropWhile isGap
    (index? number.reverse).map fun index => (.place index, rest)
  | [] => none

/-- The steps after the first name, each with its mark; there are fewer than `fuel`. -/
def further? : Nat → List Char → Option (List Step)
  | 0, _ => none
  | _ + 1, [] => some []
  | fuel + 1, mark :: rest => do
    let (step, rest) ← if mark = '.' then name? rest else if mark = '[' then place? rest else none
    return step :: (← further? fuel rest)

/-- The steps of a path. -/
def path? (cs : List Char) : Option (List Step) := do
  let (first, rest) ← name? cs
  return first :: (← further? (rest.length + 1) rest)

end Step

/-- The steps that a text leads through. -/
def stepsOf (path : String) : List Step := (Step.path? path.toList).getD [.name (lower path)]

example : Step.path? "Codegen.api-name".toList = some [.name "codegen", .name "api-name"] := by decide
example : Step.path? "a[ -1\t].b".toList = some [.name "a", .place (-1), .name "b"] := by decide
example : Step.path? "a b".toList = none ∧ Step.path? "a[+1]".toList = none := by decide

end SchemaGen.Program
