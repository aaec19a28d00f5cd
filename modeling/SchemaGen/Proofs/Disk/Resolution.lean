import SchemaGen.Disk.Access
import SchemaGen.Proofs.Disk.Tree

/-!
# Where a path leads

On a tree a path leads to its location, if it is followed at all, and what an access sees is what stands
there. A path is followed only through directories, so that a path with `..` after a name may fail to
lead to what stands at its location. A direct path is followed whenever a directory stands there.

Results:
1. `find_eq_ok`: a path leads nowhere but to its location.
2. `walk_append`: a direct way to a directory is walked to its end.
3. `find_child`: the child of a directory is found, also where nothing stands.
4. `isDirectory_iff`, `read_eq_ok`, `list_eq_ok`: what an access sees.
-/

namespace SchemaGen.Disk

/-- The location that a path leads to from the working directory. -/
def locate (d : Disk) (p : Path) : Location := Location.resolve d.cwd p

variable {d : Disk} {p : Path}

theorem locate_of_isPlain (h : p.isPlain = true) : d.locate p = d.cwd ++ p.names :=
  Path.resolve_of_isPlain h d.cwd

theorem locate_child (p : Path) {n : String} (hn : IsName n) :
    d.locate (p.child n) = d.locate p ++ [n] := Path.resolve_child p d.cwd hn

/-- Different plain paths of the same names lead to one place, and only they do. -/
theorem locate_eq_iff {q : Path} (hp : p.isPlain = true) (hq : q.isPlain = true) :
    d.locate p = d.locate q ↔ p.names = q.names := by
  rw [locate_of_isPlain hp, locate_of_isPlain hq]
  exact List.append_right_inj d.cwd

/-! ## Walking -/

theorem component?_name {s : String} (hdot : s ≠ ".") (hup : s ≠ "..") :
    Path.component? s = some (.name s) := by
  unfold Path.component?
  rw [if_neg hdot, if_neg hup]

/-- A walk ends where its steps lead, in a directory. -/
theorem walk_eq_ok (ht : d.IsTree) {loc l : Location} {e : Option Entry} {steps : List String}
    (hd : d.get? loc = some .directory) (h : d.walk loc steps = .ok (l, e)) :
    l = Location.ofSteps loc (steps.filterMap Path.component?) ∧ e = d.get? l ∧
      d.get? l.dropLast = some .directory := by
  induction steps generalizing loc with
  | nil =>
    cases h
    exact ⟨rfl, hd.symm, ht.directory_dropLast hd⟩
  | cons s rest ih =>
    unfold walk at h
    unfold Path.component? at ih ⊢
    rw [List.filterMap_cons]
    split at h
    · next hdot =>
      rw [if_pos hdot]
      exact ih hd h
    · next hdot =>
      rw [if_neg hdot]
      split at h
      · next hup =>
        rw [if_pos hup]
        exact ih (ht.directory_dropLast hd) h
      · next hup =>
        rw [if_neg hup]
        split at h
        · next he =>
          subst he
          cases h
          exact ⟨rfl, rfl, by simpa using hd⟩
        · split at h
          · next hg => exact ih hg h
          · cases h
          · cases h

/-- Names lead down. -/
theorem prefix_ofSteps {loc : Location} {steps : List String}
    (h : .parent ∉ steps.filterMap Path.component?) :
    loc <+: Location.ofSteps loc (steps.filterMap Path.component?) := by
  induction steps generalizing loc with
  | nil => exact List.prefix_refl _
  | cons s rest ih =>
    by_cases hdot : s = "."
    · subst hdot
      exact ih h
    · by_cases hup : s = ".."
      · subst hup
        exact absurd List.mem_cons_self h
      · rw [List.filterMap_cons_some (component?_name hdot hup)] at h ⊢
        exact (List.prefix_append loc [s]).trans (ih fun hm => h (List.mem_cons_of_mem _ hm))

/-- Where a direct way leads to a directory, it is walked to its end, and from there on. -/
theorem walk_append (ht : d.IsTree) {loc : Location} {steps more : List String}
    (hl : d.get? loc = some .directory)
    (hs : Path.isDirectFrom (steps.filterMap Path.component?) = true)
    (hd : d.get? (Location.ofSteps loc (steps.filterMap Path.component?)) = some .directory) :
    d.walk loc (steps ++ more) =
      d.walk (Location.ofSteps loc (steps.filterMap Path.component?)) more := by
  induction steps generalizing loc with
  | nil => rfl
  | cons s rest ih =>
    rw [List.cons_append, walk]
    by_cases hdot : s = "."
    · subst hdot
      rw [if_pos rfl]
      exact ih hl hs hd
    · by_cases hup : s = ".."
      · subst hup
        rw [if_neg hdot, if_pos rfl]
        exact ih (ht.directory_dropLast hl) hs hd
      · rw [List.filterMap_cons_some (component?_name hdot hup)] at hs hd ⊢
        have hdown : .parent ∉ rest.filterMap Path.component? := by simpa [Path.isDirectFrom] using hs
        have hstep : d.get? (loc ++ [s]) = some .directory :=
          ht.directory_of_le (prefix_ofSteps hdown) hd
        rw [if_neg hdot, if_neg hup, hstep]
        split
        · next he =>
          obtain ⟨rfl, rfl⟩ := List.append_eq_nil_iff.mp he
          rfl
        · exact ih hstep (Path.isDirectFrom_of_not_mem hdown) hd

/-- Dots are always followed. -/
theorem walk_dots {loc : Location} {steps : List String} (hs : ∀ s ∈ steps, s = "." ∨ s = "..") :
    ∃ l, d.walk loc steps = .ok (l, some .directory) := by
  induction steps generalizing loc with
  | nil => exact ⟨loc, rfl⟩
  | cons s rest ih =>
    obtain ⟨hhead, htail⟩ := List.forall_mem_cons.mp hs
    rw [walk]
    by_cases hdot : s = "."
    · rw [if_pos hdot]
      exact ih htail
    · rw [if_neg hdot, if_pos (hhead.resolve_left hdot)]
      exact ih htail

/-! ## Finding -/

/-- Where the steps of a path start. -/
theorem directory_start (ht : d.IsTree) (p : Path) :
    d.get? (if p.isAbsolute then [] else d.cwd) = some .directory := by
  split
  · exact d.get?_nil
  · exact ht.working

/-- A path that is followed leads to its location, in a directory. -/
theorem find_eq_ok (ht : d.IsTree) {l : Location} {e : Option Entry} (h : d.find p = .ok (l, e)) :
    l = d.locate p ∧ e = d.get? l ∧ d.get? l.dropLast = some .directory := by
  unfold find at h
  split at h
  · cases h
  · unfold locate
    rw [Path.resolve_eq]
    exact walk_eq_ok ht (directory_start ht p) h

/-- A direct path to a directory is followed. -/
theorem find_directory (ht : d.IsTree) (hp : p.isDirect = true) (hne : p.isEmpty = false)
    (hd : d.get? (d.locate p) = some .directory) :
    d.find p = .ok (d.locate p, some .directory) := by
  unfold locate at hd ⊢
  rw [Path.resolve_eq] at hd ⊢
  rw [Path.isDirect_eq] at hp
  unfold find
  rw [if_neg (by simp [hne]), ← List.append_nil p.steps, walk_append ht (directory_start ht p) hp hd,
    List.append_nil]
  rfl

/-- The child of a directory is found, also where nothing stands. -/
theorem find_child (ht : d.IsTree) (hp : p.isDirect = true)
    (hd : d.get? (d.locate p) = some .directory) {n : String} (hn : IsName n) :
    d.find (p.child n) = .ok (d.locate p ++ [n], d.get? (d.locate p ++ [n])) := by
  unfold locate at hd ⊢
  rw [Path.resolve_eq] at hd ⊢
  rw [Path.isDirect_eq] at hp
  unfold find
  rw [if_neg (by simp [Path.isEmpty_child p hn]), Path.isAbsolute_child p hn, Path.steps_child p hn,
    walk_append ht (directory_start ht p) hp hd, walk, if_neg hn.2.1, if_neg hn.2.2.1, if_pos rfl]

/-! ## Access -/

theorem entry_eq_ok (ht : d.IsTree) {l : Location} {e : Entry}
    (h : d.entry p = .ok (l, e)) : l = d.locate p ∧ d.get? l = some e := by
  unfold entry at h
  split at h
  · next l' e' hf =>
    split at h
    · cases h
    · cases h
      obtain ⟨hl, he, -⟩ := find_eq_ok ht hf
      exact ⟨hl, he.symm⟩
  · cases h
  · cases h

theorem entry_directory (ht : d.IsTree) (hp : p.isDirect = true) (hne : p.isEmpty = false)
    (hd : d.get? (d.locate p) = some .directory) :
    d.entry p = .ok (d.locate p, .directory) := by
  unfold entry
  rw [find_directory ht hp hne hd]
  simp [Entry.isFile]

theorem entry_child (ht : d.IsTree) (hp : p.isDirect = true)
    (hd : d.get? (d.locate p) = some .directory) {n : String} (hn : IsName n) {e : Entry}
    (he : d.get? (d.locate p ++ [n]) = some e) :
    d.entry (p.child n) = .ok (d.locate p ++ [n], e) := by
  unfold entry
  rw [find_child ht hp hd hn, he]
  simp [Path.endsInSlash_child p hn]

theorem directory_of_isDirectory (ht : d.IsTree) (h : d.isDirectory p = true) :
    d.get? (d.locate p) = some .directory := by
  unfold isDirectory at h
  split at h
  · next l e he =>
    obtain ⟨rfl, hg⟩ := entry_eq_ok ht he
    cases e with
    | file c m => simp [Entry.isDirectory] at h
    | directory => exact hg
  · cases h

theorem isDirectory_iff (ht : d.IsTree) (hp : p.isDirect = true) (hne : p.isEmpty = false) :
    d.isDirectory p = true ↔ d.get? (d.locate p) = some .directory := by
  refine ⟨directory_of_isDirectory ht, fun h => ?_⟩
  unfold isDirectory
  rw [entry_directory ht hp hne h]
  rfl

theorem read_eq_ok (ht : d.IsTree) {c : ByteArray} {m : Int} (h : d.read p = .ok (c, m)) :
    d.get? (d.locate p) = some (.file c m) := by
  unfold read at h
  split at h
  · next l c' m' he =>
    cases h
    obtain ⟨rfl, hg⟩ := entry_eq_ok ht he
    exact hg
  · cases h
  · cases h

theorem list_eq_ok (ht : d.IsTree) {entries : NameMap Entry} (h : d.list p = .ok entries) :
    d.get? (d.locate p) = some .directory ∧ entries = NameMap.ofList (d.children (d.locate p)) := by
  unfold list at h
  split at h
  · next l he =>
    cases h
    obtain ⟨rfl, hg⟩ := entry_eq_ok ht he
    exact ⟨hg, rfl⟩
  · cases h
  · cases h

theorem list_directory (ht : d.IsTree) (hp : p.isDirect = true) (hne : p.isEmpty = false)
    (hd : d.get? (d.locate p) = some .directory) :
    d.list p = .ok (NameMap.ofList (d.children (d.locate p))) := by
  unfold list
  rw [entry_directory ht hp hne hd]

end SchemaGen.Disk
