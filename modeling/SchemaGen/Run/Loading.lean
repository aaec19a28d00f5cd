import SchemaGen.Disk.Access
import SchemaGen.Document.Corpus
import SchemaGen.Document.Source

/-!
# Loading

The schema documents of a directory, in the order of their file names, and the enum catalog if there
is one. The first document that cannot be read or violates a rule ends the run.
-/

namespace SchemaGen

/-- The endings of schema documents. -/
def schemaExtensions : List String := ["yml", "yaml", "json"]

/-- Whether a file of that name is a schema document: not a hidden one, and with one of the endings. -/
def isSchemaName (name : String) : Bool :=
  name.toList.head? != some '.' && ((⟨name⟩ : Path).extension?.any schemaExtensions.contains)

/-- What a run reads. -/
structure Loaded where
  documents : List SchemaDoc
  enums : List EnumDoc
  /-- The newest change of a file that was read. -/
  newest : Option Int
  deriving DecidableEq, Repr

/-- The documents and enums, taken together. -/
def Loaded.corpus (l : Loaded) : Corpus := ⟨l.documents, l.enums⟩

namespace Loading

/-- The later of two times, of which one may be unknown. -/
def newer (a b : Option Int) : Option Int :=
  match a, b with
  | some a, some b => some (max a b)
  | some a, none => some a
  | none, b => b

/-- The schema documents in a directory. -/
def discover (d : Disk) (dir : Path) : Except Fault (List Path) :=
  match d.list dir with
  | .ok entries =>
    .ok ((entries.pairs.filter fun e => e.2.isFile && isSchemaName e.1).map fun e => dir.child e.1)
  | .error kind => .error (.io dir kind)

/-- The text of a file, and the time of its last change. -/
def readText (d : Disk) (p : Path) : Except Fault (String × Int) :=
  match d.read p with
  | .ok (contents, modified) =>
    match String.fromUTF8? contents with
    | some text => .ok (text, modified)
    | none => .error (.io p .invalidData)
  | .error kind => .error (.io p kind)

/-- The documents in files, and the newest change of one. -/
def readDocuments (d : Disk) : List Path → Except Fault (List SchemaDoc × Option Int)
  | [] => .ok ([], none)
  | p :: rest => do
    let (text, modified) ← readText d p
    let doc ← (SchemaDoc.parse p text).mapError Fault.schema
    let (docs, newest) ← readDocuments d rest
    return (doc :: docs, newer (some modified) newest)

/-- The entries of the enum catalog, and when it was changed; without the file there are none. -/
def readEnums (d : Disk) (file : Path) : Except Fault (List EnumDoc × Option Int) :=
  if d.isFile file then do
    let (text, modified) ← readText d file
    let enums ← (EnumDoc.parseAll file text).mapError Fault.schema
    return (enums, some modified)
  else .ok ([], none)

end Loading

/-- Reads the documents of a directory and the enum catalog. -/
def Disk.load (d : Disk) (dir enums : Path) : Except Fault Loaded := do
  let paths ← Loading.discover d dir
  let (documents, newest) ← Loading.readDocuments d paths
  let (enums, changed) ← Loading.readEnums d enums
  return ⟨documents, enums, Loading.newer newest changed⟩

end SchemaGen
