import SchemaGen.Toml.Scalar

/-!
# Reading settings files

A file is a sequence of lines: headers, keys with their values, comments and empty lines. Lists may
run over lines, tables in braces may not. What is not well formed as a whole is nothing.
-/

namespace SchemaGen.Toml

/-- How deep lists and tables in braces may nest, and how many names a key may have. -/
def maxDepth : Nat := 79

/-- The source after gaps, line breaks and comments. -/
def skipSpace (comment : Bool) : Source → Source
  | [] => []
  | '\n' :: rest => skipSpace false rest
  | '\r' :: '\n' :: rest => skipSpace false rest
  | c :: rest =>
    if comment then if isLineChar c then skipSpace true rest else c :: rest
    else if isGap c then skipSpace false rest
    else if c = '#' then skipSpace true rest
    else c :: rest

/-- The source after the end of its first line, before which only a comment may stand. -/
def lineEnd? (cs : Source) : Option Source :=
  let rest := skipGaps cs
  let rest := if rest.head? = some '#' then rest.dropWhile isLineChar else rest
  if rest.isEmpty then some [] else newline? rest

/-- The characters of names without quotes. -/
def isNameChar (c : Char) : Bool := c.isAlphanum || c == '_' || c == '-'

/-- A name, with or without quotes. -/
def name? (cs : Source) : Option (String × Source) :=
  if cs.head?.any isQuote then line? cs
  else if cs.head?.any isNameChar then
    some (String.ofList (cs.takeWhile isNameChar), cs.dropWhile isNameChar)
  else none

/-- A key of at most so many names, and what follows it and the gaps after it. -/
def key? : Nat → Source → Option (Key × Source)
  | 0, _ => none
  | count + 1, cs => do
    let (name, rest) ← name? (skipGaps cs)
    match skipGaps rest with
    | '.' :: more =>
      let (key, rest) ← key? count more
      return (key.below name, rest)
    | rest => return (⟨[], name⟩, rest)

/-- A key and the sign after it. -/
def keyOfValue? (cs : Source) : Option (Key × Source) := do
  match ← key? maxDepth cs with
  | (key, '=' :: rest) => return (key, skipGaps rest)
  | _ => none

mutual

/-- A value in which lists and tables nest at most `depth` deep. -/
def value? : Nat → Nat → Source → Option (Value × Source)
  | 0, _, _ => none
  | fuel + 1, depth, cs =>
    match cs, depth with
    | '[' :: _, 0 => none
    | '{' :: _, 0 => none
    | '[' :: rest, depth + 1 => (items? fuel depth rest).map fun t => (.list t.1, t.2)
    | '{' :: rest, depth + 1 =>
      match skipGaps rest with
      | '}' :: rest => some (.table .inline [], rest)
      | rest => (fields? fuel depth [] rest).map fun t => (.table .inline t.1, t.2)
    | c :: rest, _ =>
      if isQuote c then (text? (c :: rest)).map fun t => (.text t.1, t.2) else bare? (c :: rest)
    | [], _ => none

/-- The values of a list, up to its closing bracket. -/
def items? : Nat → Nat → Source → Option (List Value × Source)
  | 0, _, _ => none
  | fuel + 1, depth, cs =>
    match skipSpace false cs with
    | ']' :: rest => some ([], rest)
    | cs => do
      let (value, rest) ← value? fuel depth cs
      match skipSpace false rest with
      | ',' :: rest =>
        let (values, rest) ← items? fuel depth rest
        return (value :: values, rest)
      | ']' :: rest => return ([value], rest)
      | _ => none

/-- The entries of a table in braces, up to its closing brace, after those that were read. -/
def fields? : Nat → Nat → Entries → Source → Option (Entries × Source)
  | 0, _, _, _ => none
  | fuel + 1, depth, entries, cs => do
    let (key, rest) ← keyOfValue? cs
    let (value, rest) ← value? fuel depth rest
    let entries ← put key value entries
    match skipGaps rest with
    | ',' :: rest => fields? fuel depth entries rest
    | '}' :: rest => return (entries, rest)
    | _ => none

end

/-- A header in single or double brackets, after the first bracket: the key of its table and the
entries with that table open. -/
def header? (entries : Entries) : Source → Option (Key × Entries × Source)
  | '[' :: rest => do
    match ← key? maxDepth rest with
    | (key, ']' :: ']' :: rest) => return (key, ← changeAt (openNext key.name) key.steps entries, rest)
    | _ => none
  | rest => do
    match ← key? maxDepth rest with
    | (key, ']' :: rest) => return (key, ← changeAt (openTable key.name) key.steps entries, rest)
    | _ => none

/-- The entries of a file: of the lines that were read, and of the lines still to read, which stand
under the header of the table `current`. -/
def lines? (fuel : Nat) : Nat → List String → Entries → Source → Option Entries
  | 0, _, _, _ => none
  | count + 1, current, entries, cs =>
    match skipSpace false cs with
    | [] => some entries
    | '[' :: rest => do
      let (key, entries, rest) ← header? entries rest
      lines? fuel count key.path entries (← lineEnd? rest)
    | cs => do
      let (key, rest) ← keyOfValue? cs
      let (value, rest) ← value? fuel maxDepth rest
      let entries ← changeAt (put key value) current entries
      lines? fuel count current entries (← lineEnd? rest)

/-- The entries of a file. A byte order mark at its start does not count. -/
def read? (source : String) : Option Entries :=
  let cs := source.toList
  let cs := if cs.head? = some '\uFEFF' then cs.drop 1 else cs
  lines? (2 * cs.length + 2) (cs.length + 1) [] [] cs

end SchemaGen.Toml
