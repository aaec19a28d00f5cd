import SchemaGen.Yaml.Parser
import SchemaGen.Yaml.Scalar

/-!
# Reading nodes

What a reader expects of a node: a text, an optional node, a truth value, a list, the fields of a
record, or a value of any type. Reading follows aliases, but only so often in all, and a value of any
type may be nested only so deep. A node that is not read is not looked into.
-/

namespace SchemaGen.Yaml

/-- A reader of nodes; its state is how often an alias may still be followed. -/
abbrev Reading (α : Type) := StateT Nat Option α

namespace Reading

/-- Refuses the node. -/
def refuse {α : Type} : Reading α := fun _ => none

/-- What an optional result holds. -/
def ofOption {α : Type} (x : Option α) : Reading α := fun n => x.map fun a => (a, n)

/-- The node itself, or the one that it is an alias of. -/
def resolve (anchors : Anchors) (node : Node) : Reading Node :=
  match node with
  | .alias number => fun
    | 0 => none
    | n + 1 => (anchors.node? number).map fun target => (target, n)
  | node => pure node

/-- Any scalar, as its text. -/
def text (anchors : Anchors) (node : Node) : Reading String := do
  match ← resolve anchors node with
  | .scalar _ _ s => return s
  | _ => refuse

/-- Whether a plain scalar counts as absent. A tag keeps it from being absent, but for the one that
says so; that one is refused on any other scalar. -/
def isAbsent? (tag : Option Tag) (style : Style) (s : String) : Option Bool :=
  if style != .plain then some false
  else match tag with
    | some tag =>
      if tag == .core "null" then (if Atom.isNullWord s then some true else none)
      else some false
    | none => some (s.isEmpty || Atom.isNullWord s)

/-- A node that may be absent, and otherwise what `read` makes of it. -/
def optional {α : Type} (anchors : Anchors) (read : Node → Reading α) (node : Node) :
    Reading (Option α) := do
  match ← resolve anchors node with
  | .scalar tag style s =>
    if ← ofOption (isAbsent? tag style s) then return none
    else return some (← read (.scalar tag style s))
  | node => return some (← read node)

/-- A truth value: one of its words, unquoted, or in a literal block under its tag. -/
def bool (anchors : Anchors) (node : Node) : Reading Bool := do
  match ← resolve anchors node with
  | .scalar tag style s =>
    if style == .plain || (style == .literal && tag == some (.core "bool")) then
      ofOption (Atom.bool? s)
    else refuse
  | _ => refuse

/-- Whether nothing is written for a list or a record, which is then empty. -/
def isBlank (style : Style) (s : String) : Bool := style == .plain && s.isEmpty

/-- The members of a list. -/
def items (anchors : Anchors) (node : Node) : Reading (List Node) := do
  match ← resolve anchors node with
  | .sequence _ items => return items
  | .scalar _ style s => if isBlank style s then return [] else refuse
  | _ => refuse

/-- A list whose members are read by `read`. -/
def list {α : Type} (anchors : Anchors) (read : Node → Reading α) (node : Node) : Reading (List α) := do
  (← items anchors node).mapM read

/-- The entries of a mapping whose keys are scalars. -/
def entries (anchors : Anchors) (node : Node) : Reading (List (String × Node)) := do
  match ← resolve anchors node with
  | .mapping _ entries => entries.mapM fun e => do return (← text anchors e.1, e.2)
  | .scalar _ style s => if isBlank style s then return [] else refuse
  | _ => refuse

/-- The entries of a record: only those under known names, `rename` giving the name that a key stands
for; no name may occur twice. -/
def record (anchors : Anchors) (rename : String → String) (known : List String) (node : Node) :
    Reading (List (String × Node)) := do
  let fields := ((← entries anchors node).map fun e => (rename e.1, e.2)).filter fun e => known.contains e.1
  if (fields.map Prod.fst).Nodup then return fields else refuse

/-- A field of a record, absent if no entry gives it. -/
def field {α : Type} (anchors : Anchors) (read : Node → Reading α) (fields : List (String × Node))
    (name : String) : Reading (Option α) :=
  match fields.lookup name with
  | some node => optional anchors read node
  | none => return none

end Reading

/-- A value of any type. -/
inductive Value where
  | atom (atom : Atom)
  | list (items : List Value)
  | mapping (entries : List (Value × Value))
  /-- A value under a tag of the source's own. -/
  | tagged (name : String) (value : Value)
  deriving Repr

namespace Value

/-- How deep a value may be nested, the document around it included. -/
def depth : Nat := 128

/-- Whether two values count as one key; `fuel` exceeds how deep they are nested. Mappings are compared
without regard to the order of their entries. -/
def same : Nat → Value → Value → Bool
  | 0, _, _ => false
  | _ + 1, .atom a, .atom b => a.same b
  | fuel + 1, .list xs, .list ys =>
    xs.length == ys.length && (xs.zip ys).all fun p => same fuel p.1 p.2
  | fuel + 1, .mapping xs, .mapping ys =>
    xs.length == ys.length &&
      xs.all fun x => ys.any fun y => same fuel x.1 y.1 && same fuel x.2 y.2
  | fuel + 1, .tagged s a, .tagged t b => s == t && same fuel a b
  | _, _, _ => false

/-- Whether no key of a mapping occurs twice. -/
def distinctKeys : List (Value × Value) → Bool
  | [] => true
  | e :: rest => !(rest.any fun f => same (2 * depth) e.1 f.1) && distinctKeys rest

/-- A value under its own tag, if it has one. -/
def withTag (tag : Option Tag) (v : Value) : Value :=
  match tag.bind Tag.ownName? with
  | some name => .tagged name v
  | none => v

/-- Reads a scalar; under a tag of the source's own it is read as if it had none. -/
def readScalar (tag : Option Tag) (style : Style) (s : String) : Reading Value := do
  match tag.bind Tag.ownName? with
  | some name => return .tagged name (.atom (← Reading.ofOption (Atom.ofScalar? none style s)))
  | none => return .atom (← Reading.ofOption (Atom.ofScalar? tag style s))

/-- Reads a value with at most so many collections around its innermost parts. -/
def read (anchors : Anchors) : Nat → Node → Reading Value
  | 0, node => do
    match ← Reading.resolve anchors node with
    | .scalar tag style s => readScalar tag style s
    | _ => Reading.refuse
  | depth + 1, node => do
    match ← Reading.resolve anchors node with
    | .scalar tag style s => readScalar tag style s
    | .sequence tag items => return withTag tag (.list (← items.mapM (read anchors depth)))
    | .mapping tag entries =>
      let entries ← entries.mapM fun e => do
        let k ← read anchors depth e.1
        let v ← read anchors depth e.2
        return (k, v)
      if distinctKeys entries then return withTag tag (.mapping entries) else Reading.refuse
    | .alias _ => Reading.refuse

end Value

/-- What a reader makes of the root of a tree; a source without document reads as nothing written. -/
def Tree.run {α : Type} (t : Tree) (read : Node → Reading α) : Option α :=
  (read (t.root.getD Node.blank) t.limit).map Prod.fst

end SchemaGen.Yaml
