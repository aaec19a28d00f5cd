import SchemaGen.Yaml.Lexer
import SchemaGen.Yaml.Node

/-!
# From tokens to nodes

A node is written as a scalar, an alias, a collection in a block or in brackets, or only by its
properties. Where a member, a key or a value is left out, a blank scalar stands for it.

Each function takes the tokens that are left and returns those after what it has read, or none if the
tokens do not fit.
-/

namespace SchemaGen.Yaml

namespace Parser

/-- What the handles of tags stand for. -/
abbrev Handles := List (String × Tag)

/-- The handles that need no directive. -/
def defaultHandles : Handles := [("!", Tag.mark), ("!!", Tag.core "")]

/-- The tokens that are left, and the anchors so far. -/
structure State where
  tokens : List Token
  anchors : Anchors
  deriving Repr

/-- A node and what is left, or none. -/
abbrev Result := Option (Node × State)

/-- The next token. -/
def State.peek (s : State) : Option Token := s.tokens.head?

/-- The state after the next token. -/
def State.next (s : State) : State := { s with tokens := s.tokens.drop 1 }

/-- Whether the next token is one of those. -/
def State.isAt (s : State) (ts : List Token) : Bool := s.peek.any ts.contains

/-- The tag that a handle and a suffix stand for. -/
def expand (handles : Handles) (name : String) (suffix : Tag) : Option Tag :=
  if name.isEmpty then some suffix else (handles.lookup name).map fun p => p.append suffix

/-- The anchor and the tag before a node, in either order. -/
structure Properties where
  anchor : Option String
  tag : Option (String × Tag)
  deriving Repr

/-- The properties that stand here. -/
def properties (s : State) : Properties × State :=
  match s.tokens with
  | .anchor a :: .tag h t :: rest => (⟨some a, some (h, t)⟩, { s with tokens := rest })
  | .anchor a :: rest => (⟨some a, none⟩, { s with tokens := rest })
  | .tag h t :: .anchor a :: rest => (⟨some a, some (h, t)⟩, { s with tokens := rest })
  | .tag h t :: rest => (⟨none, some (h, t)⟩, { s with tokens := rest })
  | _ => (⟨none, none⟩, s)

/-- Gives the anchor to the node that starts here. -/
def announce (anchor : Option String) (s : State) : Option Nat × State :=
  match anchor with
  | some name =>
    let (place, anchors) := s.anchors.announce name
    (some place, { s with anchors })
  | none => (none, s)

/-- Puts in the node that was announced. -/
def define (place : Option Nat) (node : Node) (s : State) : Node × State :=
  match place with
  | some place => (node, { s with anchors := s.anchors.define place node })
  | none => (node, s)

mutual

/-- The node that starts here. `inBlock` tells whether it may be a block collection, `hanging`
whether it may be a block sequence that is not indented. -/
def node (handles : Handles) : Nat → (inBlock hanging : Bool) → State → Result
  | 0, _, _, _ => none
  | fuel + 1, inBlock, hanging, s =>
    match s.peek with
    | some (.alias name) => do
      let number ← s.anchors.number? name
      return (.alias number, s.next)
    | _ => do
      let (props, s) := properties s
      let tag ← match props.tag with
        | some (name, suffix) => (expand handles name suffix).map some
        | none => some none
      let (place, s) := announce props.anchor s
      let (content, s) ← match s.peek with
        | some (.scalar style text) => some (Node.scalar tag style text, s.next)
        | some .flowSequence => do
          let (items, s) ← flowItems handles fuel true s.next
          some (Node.sequence tag items, s)
        | some .flowMapping => do
          let (entries, s) ← flowEntries handles fuel true s.next
          some (Node.mapping tag entries, s)
        | next =>
          if hanging && next == some .dash then do
            let (items, s) ← hangingItems handles fuel s
            some (Node.sequence tag items, s)
          else if inBlock && next == some .blockSequence then do
            let (items, s) ← blockItems handles fuel s.next
            some (Node.sequence tag items, s)
          else if inBlock && next == some .blockMapping then do
            let (entries, s) ← blockEntries handles fuel s.next
            some (Node.mapping tag entries, s)
          else if props.anchor.isSome || props.tag.isSome then some (Node.scalar tag .plain "", s)
          else none
      return define place content s

/-- The node that starts here, or a blank one before any of the tokens in `ends`. -/
def nodeUnless (handles : Handles) : Nat → (inBlock hanging : Bool) → List Token → State → Result
  | 0, _, _, _, _ => none
  | fuel + 1, inBlock, hanging, ends, s =>
    if s.isAt ends then some (Node.blank, s) else node handles fuel inBlock hanging s

/-- The members of a block sequence up to its end. -/
def blockItems (handles : Handles) : Nat → State → Option (List Node × State)
  | 0, _ => none
  | fuel + 1, s =>
    match s.peek with
    | some .dash => do
      let (item, s) ← nodeUnless handles fuel true false [.dash, .blockEnd] s.next
      let (items, s) ← blockItems handles fuel s
      return (item :: items, s)
    | some .blockEnd => some ([], s.next)
    | _ => none

/-- The members of a block sequence that is not indented, up to the first token that is no dash. -/
def hangingItems (handles : Handles) : Nat → State → Option (List Node × State)
  | 0, _ => none
  | fuel + 1, s =>
    match s.peek with
    | some .dash => do
      let (item, s) ← nodeUnless handles fuel true false [.dash, .key, .value, .blockEnd] s.next
      let (items, s) ← hangingItems handles fuel s
      return (item :: items, s)
    | _ => some ([], s)

/-- The entries of a block mapping up to its end. -/
def blockEntries (handles : Handles) : Nat → State → Option (List (Node × Node) × State)
  | 0, _ => none
  | fuel + 1, s =>
    match s.peek with
    | some .key => do
      let (k, s) ← nodeUnless handles fuel true true [.key, .value, .blockEnd] s.next
      let (v, s) ← blockValue handles fuel s
      let (entries, s) ← blockEntries handles fuel s
      return ((k, v) :: entries, s)
    | some .blockEnd => some ([], s.next)
    | _ => none

/-- The value in a block mapping; one that is left out is blank. -/
def blockValue (handles : Handles) : Nat → State → Result
  | 0, _ => none
  | fuel + 1, s =>
    match s.peek with
    | some .value => nodeUnless handles fuel true true [.key, .value, .blockEnd] s.next
    | _ => some (Node.blank, s)

/-- The members of a sequence in brackets up to its end; every one but the `first` stands after a
comma. A member written as a key and a value is a mapping with that one entry. -/
def flowItems (handles : Handles) : Nat → (first : Bool) → State → Option (List Node × State)
  | 0, _, _ => none
  | fuel + 1, first, s =>
    if s.isAt [.flowSequenceEnd] then some ([], s.next)
    else if !first && !s.isAt [.comma] then none
    else
      let s := if first then s else s.next
      match s.peek with
      | some .flowSequenceEnd => some ([], s.next)
      | some .key => do
        let s := s.next
        let (k, s) ←
          if s.isAt [.value, .comma, .flowSequenceEnd] then some (Node.blank, s.next)
          else node handles fuel false false s
        let (v, s) ← flowValue handles fuel [.comma, .flowSequenceEnd] s
        let (items, s) ← flowItems handles fuel false s
        return (.mapping none [(k, v)] :: items, s)
      | _ => do
        let (item, s) ← node handles fuel false false s
        let (items, s) ← flowItems handles fuel false s
        return (item :: items, s)

/-- The value in a flow collection; one that is left out before any of the tokens in `ends` is
blank. -/
def flowValue (handles : Handles) : Nat → List Token → State → Result
  | 0, _, _ => none
  | fuel + 1, ends, s =>
    match s.peek with
    | some .value => nodeUnless handles fuel false false ends s.next
    | _ => some (Node.blank, s)

/-- The entries of a mapping in braces up to its end; every one but the `first` stands after a comma.
A member without `?` and `:` is a key with a blank value. -/
def flowEntries (handles : Handles) : Nat → (first : Bool) → State → Option (List (Node × Node) × State)
  | 0, _, _ => none
  | fuel + 1, first, s =>
    if s.isAt [.flowMappingEnd] then some ([], s.next)
    else if !first && !s.isAt [.comma] then none
    else
      let s := if first then s else s.next
      match s.peek with
      | some .flowMappingEnd => some ([], s.next)
      | some .key => do
        let (k, s) ← nodeUnless handles fuel false false [.value, .comma, .flowMappingEnd] s.next
        let (v, s) ← flowValue handles fuel [.comma, .flowMappingEnd] s
        let (entries, s) ← flowEntries handles fuel false s
        return ((k, v) :: entries, s)
      | _ => do
        let (k, s) ← node handles fuel false false s
        let (entries, s) ← flowEntries handles fuel false s
        return ((k, Node.blank) :: entries, s)

end

/-- The directives that stand here: the handles they define, whether a version is among them, and the
tokens after them. -/
def directives : Handles → Bool → List Token → Option (Handles × List Token)
  | handles, versioned, .version major minor :: rest =>
    if versioned || major != 1 || (minor != 1 && minor != 2) then none
    else directives handles true rest
  | handles, versioned, .handle name expansion :: rest =>
    if (handles.lookup name).isSome then none
    else directives (handles ++ [(name, expansion)]) versioned rest
  | handles, _, rest => some (handles ++ defaultHandles, rest)

/-- The tokens that end what a document holds. -/
def endsDocument : Token → Bool
  | .version _ _ | .handle _ _ | .documentStart | .documentEnd => true
  | _ => false

/-- The root of a document whose start is marked. -/
def content (handles : Handles) (tokens : List Token) : Result :=
  let s : State := ⟨tokens, .empty⟩
  if tokens.head?.all endsDocument then some (Node.blank, s)
  else node handles (4 * tokens.length + 4) true false s

/-- The first document that the tokens hold, and the tokens after it. -/
def document (tokens : List Token) : Result :=
  match tokens with
  | .version _ _ :: _ | .handle _ _ :: _ | .documentStart :: _ =>
    match directives [] false tokens with
    | some (handles, .documentStart :: rest) => content handles rest
    | _ => none
  | _ => node defaultHandles (4 * tokens.length + 4) true false ⟨tokens, .empty⟩

end Parser

/-- The tree of a source with one document or none. -/
def Tree.ofTokens? (tokens : List Token) : Option Tree :=
  if tokens.isEmpty then some ⟨none, .empty⟩
  else do
    let (root, s) ← Parser.document tokens
    if (s.tokens.dropWhile fun t => t == .documentEnd).isEmpty then some ⟨some root, s.anchors⟩ else none

/-- The tree of a source. -/
def Tree.read? (source : String) : Option Tree := do
  let tokens ← tokens? source
  Tree.ofTokens? tokens

end SchemaGen.Yaml
