import SchemaGen.Path
import SchemaGen.Text.Utf8

/-!
# Disks

Files and directories by their locations, without links and permissions. The root is always a
directory.

Results:
1. `get?_put`, `get?_erase`: what stands at a location after a change.
-/

namespace SchemaGen

/-- What stands at a location. -/
inductive Entry where
  /-- A file with its contents and the time of its last change, in seconds since 1970. -/
  | file (contents : ByteArray) (modified : Int)
  | directory

namespace Entry

/-- Whether the entry is a file. -/
def isFile : Entry → Bool
  | file _ _ => true
  | directory => false

/-- Whether the entry is a directory. -/
def isDirectory : Entry → Bool
  | file _ _ => false
  | directory => true

/-- The contents of a file as a text to look at; a directory has none. -/
def text? : Entry → Option String
  | file contents _ => some (Text.decode contents)
  | directory => none

end Entry

/-- The files and directories, the directory that relative paths start from, and the time that a file
written now gets. -/
structure Disk where
  entries : List (Location × Entry)
  cwd : Location
  clock : Int

namespace Disk

/-- The first entry at a location. -/
def lookup (loc : Location) : List (Location × Entry) → Option Entry
  | [] => none
  | (other, e) :: rest => if other = loc then some e else lookup loc rest

/-- What stands at a location. -/
def get? (d : Disk) (loc : Location) : Option Entry :=
  if loc = [] then some .directory else lookup loc d.entries

/-- The disk with `e` at a location, in place of what stood there. -/
def put (d : Disk) (loc : Location) (e : Entry) : Disk :=
  { d with entries := (loc, e) :: d.entries.filter fun p => p.1 != loc }

/-- The disk without what stands at a location. -/
def erase (d : Disk) (loc : Location) : Disk :=
  { d with entries := d.entries.filter fun p => p.1 != loc }

/-- The disk without what stands at a location and below it. -/
def eraseTree (d : Disk) (loc : Location) : Disk :=
  { d with entries := d.entries.filter fun p => !loc.isPrefixOf p.1 }

/-- A disk with an empty working directory. -/
def fresh (cwd : Location) : Disk :=
  ⟨(List.range cwd.length).map fun n => (cwd.take (n + 1), .directory), cwd, 0⟩

/-- The names in a directory, each with what stands there. -/
def children (d : Disk) (loc : Location) : List (String × Entry) :=
  d.entries.filterMap fun p =>
    if p.1.dropLast = loc then p.1.getLast?.map fun name => (name, p.2) else none

theorem lookup_filter_ne (loc other : Location) (entries : List (Location × Entry)) :
    lookup other (entries.filter fun p => p.1 != loc) =
      if other = loc then none else lookup other entries := by
  induction entries with
  | nil => simp [lookup]
  | cons p rest ih =>
    obtain ⟨l, e⟩ := p
    by_cases h : l = loc
    · subst h
      simp only [List.filter_cons, bne_self_eq_false, Bool.false_eq_true, if_false, ih, lookup]
      grind
    · have hb : (l != loc) = true := by simpa using h
      simp only [List.filter_cons, hb, if_true, lookup, ih]
      grind

theorem get?_put (d : Disk) (loc other : Location) (e : Entry) (h : loc ≠ []) :
    (d.put loc e).get? other = if other = loc then some e else d.get? other := by
  unfold get? put
  by_cases h₀ : other = []
  · have : other ≠ loc := fun e => h (e ▸ h₀)
    simp [h₀, h.symm]
  · simp only [h₀, if_false, lookup, lookup_filter_ne]
    grind

theorem get?_erase (d : Disk) (loc other : Location) (h : loc ≠ []) :
    (d.erase loc).get? other = if other = loc then none else d.get? other := by
  unfold get? erase
  by_cases h₀ : other = []
  · simp [h₀, h.symm]
  · simp only [h₀, if_false, lookup_filter_ne]

end Disk

end SchemaGen
