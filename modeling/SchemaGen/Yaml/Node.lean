import SchemaGen.Yaml.Token

/-!
# Nodes

What a source means: scalars, sequences and mappings, and aliases that stand for a node with an
anchor. An alias may stand inside the node that it names, so that aliases are looked up when a node is
read and not before.
-/

namespace SchemaGen.Yaml

/-- A node of a source. -/
inductive Node where
  | scalar (tag : Option Tag) (style : Style) (text : String)
  /-- The node with the anchor of that number. -/
  | alias (anchor : Nat)
  | sequence (tag : Option Tag) (items : List Node)
  | mapping (tag : Option Tag) (entries : List (Node × Node))
  deriving Repr

namespace Node

/-- A scalar of which nothing is written. -/
def blank : Node := .scalar none .plain ""

mutual

/-- How many marks make up a node: one for a scalar or an alias, and two around the members of a
collection. -/
def size : Node → Nat
  | .scalar _ _ _ => 1
  | .alias _ => 1
  | .sequence _ items => sizeItems items + 2
  | .mapping _ entries => sizeEntries entries + 2

/-- The marks of a list of nodes. -/
def sizeItems : List Node → Nat
  | [] => 0
  | item :: rest => size item + sizeItems rest

/-- The marks of a list of pairs of nodes. -/
def sizeEntries : List (Node × Node) → Nat
  | [] => 0
  | (k, v) :: rest => size k + size v + sizeEntries rest

end

end Node

/-- The nodes with an anchor. Anchors are numbered by how many different names there were before; a
name that is given anew gets a new number, and of the nodes with one number the last one counts. -/
structure Anchors where
  /-- The number that each name stands for at present. -/
  numbers : List (String × Nat)
  /-- For each number the places, last one first, at which its nodes start among the anchored ones. -/
  places : List (Nat × Nat)
  /-- The nodes by their places. -/
  nodes : List (Nat × Node)
  deriving Repr

namespace Anchors

/-- No anchors. -/
def empty : Anchors := ⟨[], [], []⟩

/-- The number that a name stands for. -/
def number? (a : Anchors) (name : String) : Option Nat := a.numbers.lookup name

/-- Gives a name to the node that starts next, whose place is returned too. -/
def announce (a : Anchors) (name : String) : Nat × Anchors :=
  let number := a.numbers.length
  let others := a.numbers.filter fun p => p.1 != name
  let place := a.places.length
  (place, { a with numbers := (name, number) :: others, places := (number, place) :: a.places })

/-- Puts in the node that starts at a place. -/
def define (a : Anchors) (place : Nat) (node : Node) : Anchors :=
  { a with nodes := (place, node) :: a.nodes }

/-- The node with the anchor of that number. -/
def node? (a : Anchors) (number : Nat) : Option Node := do
  let place ← a.places.lookup number
  a.nodes.lookup place

end Anchors

/-- The one document of a source, with its anchors. -/
structure Tree where
  /-- None if the source has no document. -/
  root : Option Node
  anchors : Anchors
  deriving Repr

/-- How often aliases may be followed in reading a tree: a hundred times the count of its marks. -/
def Tree.limit (t : Tree) : Nat := 100 * ((t.root.map Node.size).getD 1)

end SchemaGen.Yaml
