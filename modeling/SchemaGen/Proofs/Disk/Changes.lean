import SchemaGen.Proofs.Disk.Resolution

/-!
# What a change leaves alone

Every change of a tree at a path concerns the location of that path only, or directories that are made on
the way to it. Two relations say so:

* `Grown target`: directories on the way to `target` have been made, and nothing else.
* `Touched S`: no file outside `S` has changed, and no directory has gone.

Results:
1. `touched_write`, `touched_removeFile`: one file is written or removed.
2. `touched_makeDirectories`: only directories are made, and for a direct path only those on the way to it
   (`makeDirectories_spec`).
3. `Touched.refl`, `Touched.trans`, `Grown.touched`: the relations compose.
4. `read_iff_of_touched`: outside what was touched the same files are read.
-/

namespace SchemaGen.Disk

/-- No file outside `S` has changed, and no directory has gone. -/
structure Touched (S : Location → Prop) (d d' : Disk) : Prop where
  tree : d'.IsTree
  cwd : d'.cwd = d.cwd
  clock : d'.clock = d.clock
  files : ∀ loc, ¬ S loc → ∀ c m, d'.get? loc = some (.file c m) ↔ d.get? loc = some (.file c m)
  directories : ∀ loc, d.get? loc = some .directory → d'.get? loc = some .directory

/-- Directories on the way to `target` have been made, and nothing else. -/
structure Grown (target : Location) (d d' : Disk) : Prop where
  tree : d'.IsTree
  cwd : d'.cwd = d.cwd
  clock : d'.clock = d.clock
  made : ∀ loc, d'.get? loc = d.get? loc ∨
    (d.get? loc = none ∧ d'.get? loc = some .directory ∧ loc <+: target)

variable {S T : Location → Prop} {d d' d'' : Disk} {p : Path}

namespace Touched

theorem refl (ht : d.IsTree) : Touched S d d := ⟨ht, rfl, rfl, fun _ _ _ _ => Iff.rfl, fun _ h => h⟩

theorem trans (h : Touched S d d') (h' : Touched S d' d'') : Touched S d d'' :=
  ⟨h'.tree, h'.cwd.trans h.cwd, h'.clock.trans h.clock,
    fun loc hl c m => (h'.files loc hl c m).trans (h.files loc hl c m),
    fun loc hl => h'.directories loc (h.directories loc hl)⟩

theorem mono (h : Touched S d d') (hs : ∀ loc, S loc → T loc) : Touched T d d' :=
  ⟨h.tree, h.cwd, h.clock, fun loc hl => h.files loc fun hS => hl (hs loc hS), h.directories⟩

end Touched

theorem locate_congr (h : d'.cwd = d.cwd) (p : Path) : d'.locate p = d.locate p := by
  unfold locate
  rw [h]

namespace Grown

variable {target target' : Location}

theorem refl (ht : d.IsTree) : Grown target d d := ⟨ht, rfl, rfl, fun _ => .inl rfl⟩

theorem trans (h : Grown target d d') (h' : Grown target d' d'') : Grown target d d'' := by
  refine ⟨h'.tree, h'.cwd.trans h.cwd, h'.clock.trans h.clock, fun loc => ?_⟩
  rcases h'.made loc with he' | ⟨hn, hd, hl⟩
  · rw [he']
    exact h.made loc
  · rcases h.made loc with he | ⟨-, hd', -⟩
    · exact .inr ⟨he ▸ hn, hd, hl⟩
    · rw [hn] at hd'
      cases hd'

theorem mono (h : Grown target d d') (hp : target <+: target') : Grown target' d d' :=
  ⟨h.tree, h.cwd, h.clock, fun loc => (h.made loc).imp_right fun ⟨hn, hd, hl⟩ => ⟨hn, hd, hl.trans hp⟩⟩

theorem get?_eq_of_some (h : Grown target d d') {loc : Location} {e : Entry}
    (hg : d.get? loc = some e) : d'.get? loc = some e := by
  rcases h.made loc with he | ⟨hn, -, -⟩
  · rw [he]
    exact hg
  · rw [hn] at hg
    cases hg

theorem file_iff (h : Grown target d d') (loc : Location) (c : ByteArray) (m : Int) :
    d'.get? loc = some (.file c m) ↔ d.get? loc = some (.file c m) := by
  rcases h.made loc with he | ⟨hn, hd, -⟩
  · rw [he]
  · rw [hn, hd]
    simp

theorem touched (h : Grown target d d') : Touched S d d' :=
  ⟨h.tree, h.cwd, h.clock, fun loc _ => h.file_iff loc, fun _ hg => h.get?_eq_of_some hg⟩

end Grown

/-! ## One location -/

theorem isName_of_mem_locate (ht : d.IsTree) {n : String} (hn : n ∈ d.locate p) : IsName n :=
  Path.isName_of_mem_resolve (ht.isName ht.working) hn

theorem isTree_put_locate (ht : d.IsTree) {e : Entry} (hd : d.get? (d.locate p).dropLast = some .directory)
    (hfree : d.get? (d.locate p) ≠ some .directory) : (d.put (d.locate p) e).IsTree := by
  have hnames : ∀ n ∈ d.locate p, IsName n := fun n hn => isName_of_mem_locate ht hn
  have hne : d.locate p ≠ [] := by
    intro he
    exact hfree (he ▸ d.get?_nil)
  generalize d.locate p = loc at hd hfree hnames hne
  obtain ⟨init, n, rfl⟩ : ∃ init n, loc = init ++ [n] :=
    ⟨loc.dropLast, loc.getLast hne, (List.dropLast_append_getLast hne).symm⟩
  rw [List.dropLast_concat] at hd
  exact ht.put (hnames n (by simp)) hd hfree

/-- Putting a file where no directory stands touches its location only. -/
theorem touched_put {loc : Location} {c : ByteArray} {m : Int} (hne : loc ≠ [])
    (ht : (d.put loc (.file c m)).IsTree) (hfree : d.get? loc ≠ some .directory) :
    Touched (· = loc) d (d.put loc (.file c m)) := by
  refine ⟨ht, rfl, rfl, fun l hl => ?_, fun l hd => ?_⟩
  · intro c' m'
    rw [get?_put _ _ _ _ hne, if_neg hl]
  · rw [get?_put _ _ _ _ hne, if_neg]
    · exact hd
    · rintro rfl
      exact hfree hd

/-- Erasing a file touches its location only. -/
theorem touched_erase (ht : d.IsTree) {loc : Location} (hne : loc ≠ [])
    (hfree : d.get? loc ≠ some .directory) : Touched (· = loc) d (d.erase loc) := by
  refine ⟨ht.erase hfree, rfl, rfl, fun l hl => ?_, fun l hd => ?_⟩
  · intro c' m'
    rw [get?_erase _ _ _ hne, if_neg hl]
  · rw [get?_erase _ _ _ hne, if_neg]
    · exact hd
    · rintro rfl
      exact hfree hd

/-! ## Files -/

/-- A file is written to the location of its path, where no directory stands. -/
theorem write_spec (ht : d.IsTree) {c : ByteArray} (h : d.write p c = .ok d') :
    d' = d.put (d.locate p) (.file c d.clock) ∧ d.get? (d.locate p) ≠ some .directory ∧
      d'.IsTree := by
  have key : ∀ {l : Location} {e : Option Entry}, d.find p = .ok (l, e) → e ≠ some .directory →
      d' = d.put l (.file c d.clock) →
      d' = d.put (d.locate p) (.file c d.clock) ∧ d.get? (d.locate p) ≠ some .directory ∧
        d'.IsTree := by
    intro l e hf he hd'
    obtain ⟨rfl, rfl, hd⟩ := find_eq_ok ht hf
    exact ⟨hd', he, hd' ▸ isTree_put_locate ht hd he⟩
  unfold write at h
  split at h
  · cases h
  · next l c' m' hf =>
    split at h
    · cases h
    · exact key hf (by simp) (Except.ok.inj h).symm
  · next l hf =>
    split at h
    · cases h
    · exact key hf (by simp) (Except.ok.inj h).symm
  · cases h

/-- Writing touches the location of the path only. -/
theorem touched_write (ht : d.IsTree) {c : ByteArray} (h : d.write p c = .ok d') :
    Touched (· = d.locate p) d d' := by
  obtain ⟨rfl, hfree, ht'⟩ := write_spec ht h
  have hne : d.locate p ≠ [] := by
    intro he
    exact hfree (he ▸ d.get?_nil)
  exact touched_put hne ht' hfree

/-- Removing touches the location of the path only. -/
theorem touched_removeFile (ht : d.IsTree) (h : d.removeFile p = .ok d') :
    Touched (· = d.locate p) d d' := by
  unfold removeFile at h
  split at h
  · next l c m he =>
    cases h
    obtain ⟨rfl, hg⟩ := entry_eq_ok ht he
    have hfree : d.get? (d.locate p) ≠ some .directory := by simp [hg]
    have hne : d.locate p ≠ [] := by
      intro hl
      exact hfree (hl ▸ d.get?_nil)
    exact touched_erase ht hne hfree
  · cases h
  · cases h

/-- A file is written into a directory unless a directory has its name. -/
theorem write_child (ht : d.IsTree) (hp : p.isDirect = true)
    (hd : d.get? (d.locate p) = some .directory) {n : String} (hn : IsName n) (c : ByteArray)
    (hfree : d.get? (d.locate p ++ [n]) ≠ some .directory) :
    d.write (p.child n) c = .ok (d.put (d.locate p ++ [n]) (.file c d.clock)) := by
  unfold write
  rw [find_child ht hp hd hn]
  cases he : d.get? (d.locate p ++ [n]) with
  | none => simp [Path.endsInSlash_child p hn]
  | some e =>
    cases e with
    | file c' m' => simp [Path.endsInSlash_child p hn]
    | directory => exact absurd he hfree

/-- A file in a directory can be removed. -/
theorem removeFile_child (ht : d.IsTree) (hp : p.isDirect = true) {n : String} {c : ByteArray}
    {m : Int} (hg : d.get? (d.locate p ++ [n]) = some (.file c m)) :
    d.removeFile (p.child n) = .ok (d.erase (d.locate p ++ [n])) := by
  unfold removeFile
  rw [entry_child ht hp (ht.directory_of_child hg) (ht.isName_last hg) hg]

/-! ## Reading afterwards -/

/-- Trees that have the same file at the end of a direct way are walked alike. -/
theorem walk_congr_file (ht : d.IsTree) (ht' : d'.IsTree) {c : ByteArray} {m : Int} {loc : Location}
    {steps : List String} (hs : Path.isDirectFrom (steps.filterMap Path.component?) = true)
    (hf : d.get? (Location.ofSteps loc (steps.filterMap Path.component?)) = some (.file c m))
    (hf' : d'.get? (Location.ofSteps loc (steps.filterMap Path.component?)) = some (.file c m)) :
    d'.walk loc steps = d.walk loc steps := by
  induction steps generalizing loc with
  | nil => rfl
  | cons s rest ih =>
    rw [walk, walk]
    by_cases hdot : s = "."
    · subst hdot
      rw [if_pos rfl, if_pos rfl]
      exact ih hs hf hf'
    · by_cases hup : s = ".."
      · subst hup
        rw [if_neg hdot, if_pos rfl, if_neg hdot, if_pos rfl]
        exact ih hs hf hf'
      · rw [List.filterMap_cons_some (component?_name hdot hup)] at hs hf hf'
        have hdown : .parent ∉ rest.filterMap Path.component? := by simpa [Path.isDirectFrom] using hs
        rw [if_neg hdot, if_neg hup, if_neg hdot, if_neg hup]
        obtain ⟨down, hl⟩ : loc ++ [s] <+: Location.ofSteps (loc ++ [s]) (rest.filterMap Path.component?) :=
          prefix_ofSteps hdown
        change d.get? (Location.ofSteps (loc ++ [s]) _) = _ at hf
        change d'.get? (Location.ofSteps (loc ++ [s]) _) = _ at hf'
        by_cases hlast : down = []
        · rw [← hl, hlast, List.append_nil] at hf hf'
          rw [hf, hf']
        · -- everything on the way to the file is a directory in both
          have hstep : d.get? (loc ++ [s]) = some .directory := by
            rw [← hl] at hf
            exact ht.directory_of_prefix hlast hf
          have hstep' : d'.get? (loc ++ [s]) = some .directory := by
            rw [← hl] at hf'
            exact ht'.directory_of_prefix hlast hf'
          rw [hstep, hstep', ih (Path.isDirectFrom_of_not_mem hdown) hf hf']

/-- A file that stands in the same place is read alike. -/
theorem read_congr_file (ht : d.IsTree) (ht' : d'.IsTree) (hp : p.isDirect = true)
    (hcwd : d'.cwd = d.cwd) {c : ByteArray} {m : Int} (hf : d.get? (d.locate p) = some (.file c m))
    (hf' : d'.get? (d.locate p) = some (.file c m)) : d'.read p = d.read p := by
  unfold locate at hf hf'
  rw [Path.resolve_eq] at hf hf'
  rw [Path.isDirect_eq] at hp
  have hfind : d'.find p = d.find p := by
    unfold find
    rw [hcwd, walk_congr_file ht ht' hp hf hf']
  unfold read entry
  rw [hfind]

/-- Outside what was touched the same files are read. -/
theorem read_iff_of_touched (ht : d.IsTree) (hp : p.isDirect = true) {c : ByteArray} {m : Int}
    (h : Touched S d d') (hl : ¬ S (d.locate p)) : d'.read p = .ok (c, m) ↔ d.read p = .ok (c, m) := by
  constructor
  · intro hr
    have hf' := read_eq_ok h.tree hr
    rw [locate_congr h.cwd] at hf'
    rw [← read_congr_file ht h.tree hp h.cwd ((h.files _ hl c m).mp hf') hf']
    exact hr
  · intro hr
    have hf := read_eq_ok ht hr
    rw [read_congr_file ht h.tree hp h.cwd hf ((h.files _ hl c m).mpr hf)]
    exact hr

/-- A file outside what was touched is read as before. -/
theorem read_of_touched (ht : d.IsTree) (hp : p.isPlain = true) {c : ByteArray} {m : Int}
    (h : Touched S d d') (hl : ¬ S (d.locate p)) (hr : d.read p = .ok (c, m)) :
    d'.read p = .ok (c, m) :=
  (read_iff_of_touched ht (Path.isDirect_of_isPlain hp) h hl).mpr hr

theorem isFile_iff_read : d.isFile p = true ↔ ∃ c m, d.read p = .ok (c, m) := by
  unfold isFile read
  cases d.entry p with
  | error kind => simp
  | ok r =>
    obtain ⟨l, e⟩ := r
    cases e with
    | file c m => simp [Entry.isFile]
    | directory => simp [Entry.isFile]

theorem isFile_of_touched (ht : d.IsTree) (hp : p.isDirect = true) (h : Touched S d d')
    (hl : ¬ S (d.locate p)) : d'.isFile p = d.isFile p := by
  rw [Bool.eq_iff_iff, isFile_iff_read, isFile_iff_read]
  simp only [read_iff_of_touched ht hp h hl]

/-! ## Following a path again -/

/-- Where a walk has led, it leads as long as no directory has gone. -/
theorem walk_again (ht : d.IsTree) (hkept : ∀ l, d.get? l = some .directory → d'.get? l = some .directory)
    {loc l : Location} {e : Option Entry} {steps : List String} (hl : d.get? loc = some .directory)
    (h : d.walk loc steps = .ok (l, e)) : d'.walk loc steps = .ok (l, d'.get? l) := by
  induction steps generalizing loc with
  | nil =>
    cases h
    rw [walk, hkept _ hl]
  | cons s rest ih =>
    rw [walk] at h ⊢
    by_cases hdot : s = "."
    · rw [if_pos hdot] at h ⊢
      exact ih hl h
    · by_cases hup : s = ".."
      · rw [if_neg hdot, if_pos hup] at h ⊢
        exact ih (ht.directory_dropLast hl) h
      · rw [if_neg hdot, if_neg hup] at h ⊢
        split at h
        · next he =>
          cases h
          rw [if_pos he]
        · next he =>
          rw [if_neg he]
          split at h
          · next hg =>
            rw [hkept _ hg]
            exact ih hg h
          · cases h
          · cases h

/-- Where a path has led, it leads after a change that takes no directory away. -/
theorem find_again (ht : d.IsTree) (h : Touched S d d') {l : Location} {e : Option Entry}
    (hf : d.find p = .ok (l, e)) : d'.find p = .ok (l, d'.get? l) := by
  unfold find at hf ⊢
  split at hf
  · cases hf
  · next he =>
    rw [if_neg he, h.cwd]
    exact walk_again ht h.directories (directory_start ht p) hf

/-- A path that is followed to where a directory stands leads to it. -/
theorem isDirectory_of_find {l : Location} (h : d.find p = .ok (l, some .directory)) :
    d.isDirectory p = true := by
  unfold isDirectory entry
  rw [h]
  rfl

theorem find_of_isDirectory (h : d.isDirectory p = true) : ∃ l, d.find p = .ok (l, some .directory) := by
  unfold isDirectory entry at h
  split at h
  · next l e he =>
    split at he
    · next l' e' hf =>
      split at he
      · cases he
      · cases he
        cases e with
        | file c m => simp [Entry.isDirectory] at h
        | directory => exact ⟨l, hf⟩
    · cases he
    · cases he
  · cases h

/-- A directory that a path leads to is found there again. -/
theorem isDirectory_again (ht : d.IsTree) (h : Touched S d d') (hd : d.isDirectory p = true) :
    d'.isDirectory p = true := by
  obtain ⟨l, hf⟩ := find_of_isDirectory hd
  obtain ⟨rfl, hg, -⟩ := find_eq_ok ht hf
  have hf' := find_again ht h hf
  rw [h.directories _ hg.symm] at hf'
  exact isDirectory_of_find hf'

/-- A path leads to a file when it is followed to one and no slash ends it. -/
theorem isFile_iff_find : d.isFile p = true ↔
    p.endsInSlash = false ∧ ∃ l c m, d.find p = .ok (l, some (.file c m)) := by
  unfold isFile entry
  cases hf : d.find p with
  | error kind => simp
  | ok r =>
    obtain ⟨l, e | e⟩ := r
    · simp
    · cases e with
      | file c m => cases p.endsInSlash <;> simp [Entry.isFile]
      | directory => simp [Entry.isFile]

/-- A path that led to a file leads to the one that stands in its place. -/
theorem isFile_again (ht : d.IsTree) (h : Touched S d d') (hf : d.isFile p = true)
    (hg : ∃ c m, d'.get? (d.locate p) = some (.file c m)) : d'.isFile p = true := by
  obtain ⟨hslash, l, c, m, hfind⟩ := isFile_iff_find.mp hf
  obtain ⟨rfl, -, -⟩ := find_eq_ok ht hfind
  obtain ⟨c', m', hg⟩ := hg
  refine isFile_iff_find.mpr ⟨hslash, d.locate p, c', m', ?_⟩
  rw [find_again ht h hfind, hg]

/-- A file that has been written is found. -/
theorem isFile_of_write (ht : d.IsTree) {c : ByteArray} (h : d.write p c = .ok d') : d'.isFile p = true := by
  have htouch := touched_write ht h
  obtain ⟨hd', hfree, -⟩ := write_spec ht h
  have hne : d.locate p ≠ [] := by
    intro he
    exact hfree (he ▸ d.get?_nil)
  obtain ⟨hslash, l, e, hf⟩ : p.endsInSlash = false ∧ ∃ l e, d.find p = .ok (l, e) := by
    unfold write at h
    split at h
    · cases h
    · next l c' m' hf =>
      split at h
      · cases h
      · next hslash => exact ⟨by simpa using hslash, l, _, hf⟩
    · next l hf =>
      split at h
      · cases h
      · next hslash => exact ⟨by simpa using hslash, l, _, hf⟩
    · cases h
  obtain ⟨rfl, -, -⟩ := find_eq_ok ht hf
  refine isFile_iff_find.mpr ⟨hslash, d.locate p, c, d.clock, ?_⟩
  rw [find_again ht htouch hf, hd', get?_put _ _ _ _ hne, if_pos rfl]

/-! ## Directories -/

/-- Where a directory is made it stands, and nothing else is made. -/
theorem makeDirectory_spec (ht : d.IsTree) (h : d.makeDirectory p = .ok d') :
    Grown (d.locate p) d d' ∧ d'.get? (d.locate p) = some .directory := by
  unfold makeDirectory at h
  split at h
  · cases h
  · next l hf =>
    cases h
    obtain ⟨rfl, he, hd⟩ := find_eq_ok ht hf
    have hne : d.locate p ≠ [] := by
      intro hl
      rw [hl, get?_nil] at he
      cases he
    refine ⟨⟨isTree_put_locate ht hd (by simp [← he]), rfl, rfl, fun loc => ?_⟩, ?_⟩
    · rw [get?_put _ _ _ _ hne]
      split
      · next hl =>
        subst hl
        exact .inr ⟨he.symm, rfl, List.prefix_refl _⟩
      · exact .inl rfl
    · rw [get?_put _ _ _ _ hne, if_pos rfl]
  · cases h

/-- Where a directory is made its path leads to it. -/
theorem isDirectory_of_makeDirectory (ht : d.IsTree) (h : d.makeDirectory p = .ok d') :
    d'.isDirectory p = true := by
  obtain ⟨hgrown, hd⟩ := makeDirectory_spec ht h
  unfold makeDirectory at h
  split at h
  · cases h
  · next l hf =>
    obtain ⟨rfl, -, -⟩ := find_eq_ok ht hf
    have hf' := find_again ht (hgrown.touched (S := fun _ => False)) hf
    rw [hd] at hf'
    exact isDirectory_of_find hf'
  · cases h

theorem isDirectory_of_ensureDirectory (ht : d.IsTree) (h : d.ensureDirectory p = .ok d') :
    d'.isDirectory p = true := by
  unfold ensureDirectory at h
  split at h
  · next d₁ hm =>
    cases h
    exact isDirectory_of_makeDirectory ht hm
  · split at h
    · next hd =>
      cases h
      exact hd
    · cases h

theorem grown_ensureDirectory (ht : d.IsTree) (h : d.ensureDirectory p = .ok d') :
    Grown (d.locate p) d d' := by
  unfold ensureDirectory at h
  split at h
  · next d₁ hm =>
    cases h
    exact (makeDirectory_spec ht hm).1
  · split at h
    · cases h
      exact .refl ht
    · cases h

/-- Whatever directories are made for a path, no file changes. The induction is on the depth. -/
theorem touched_makeDirectoriesFrom (depth : Nat) (p : Path) (ht : d.IsTree) :
    Touched S d (makeDirectoriesFrom depth p d).2 := by
  induction depth generalizing p d with
  | zero => exact .refl ht
  | succ depth ih =>
    unfold makeDirectoriesFrom
    split
    · exact .refl ht
    · split
      · next d₁ hm => exact (makeDirectory_spec ht hm).1.touched
      · have hup := ih (p.parent?.getD ⟨""⟩) ht
        rcases hrun : makeDirectoriesFrom depth (p.parent?.getD ⟨""⟩) d with ⟨kind | u, d₁⟩
        · rw [hrun] at hup
          exact hup
        · rw [hrun] at hup
          dsimp only
          split
          · next d₂ hm => exact hup.trans (grown_ensureDirectory hup.tree hm).touched
          · exact hup
      · split <;> exact .refl ht

theorem touched_makeDirectories (ht : d.IsTree) (p : Path) : Touched S d (d.makeDirectories p).2 :=
  touched_makeDirectoriesFrom _ p ht

/-- Where directories are made the path leads to the last of them. -/
theorem isDirectory_of_makeDirectories (ht : d.IsTree) (hne : p.isEmpty = false)
    (h : d.makeDirectories p = (.ok (), d')) : d'.isDirectory p = true := by
  unfold makeDirectories makeDirectoriesFrom at h
  rw [if_neg (by simp [hne])] at h
  split at h
  · next d₁ hm =>
    cases h
    exact isDirectory_of_makeDirectory ht hm
  · have hup := touched_makeDirectoriesFrom (S := fun _ => False) p.components.length (p.parent?.getD ⟨""⟩) ht
    split at h
    · next d₁ hr =>
      rw [hr] at hup
      split at h
      · next d₂ hm =>
        cases h
        exact isDirectory_of_ensureDirectory hup.tree hm
      · cases h
    · cases h
  · split at h
    · next hd =>
      cases h
      exact hd
    · cases h

theorem makeDirectories_of_isEmpty (he : p.isEmpty = true) : d.makeDirectories p = (.ok (), d) := by
  unfold makeDirectories makeDirectoriesFrom
  rw [if_pos he]

/-- Where a directory stands already nothing is made. -/
theorem makeDirectories_of_isDirectory (h : d.isDirectory p = true) : d.makeDirectories p = (.ok (), d) := by
  obtain ⟨l, hf⟩ := find_of_isDirectory h
  have hmake : d.makeDirectory p = .error .alreadyExists := by
    unfold makeDirectory
    rw [hf]
  unfold makeDirectories makeDirectoriesFrom
  simp only [hmake, h, if_true, ite_self]

/-- A direct path that leads through what is not there has a directory around it. -/
theorem exists_parent (hp : p.isDirect = true) (hne : p.isEmpty = false) (hm : d.makeDirectory p = .error .notFound) :
    ∃ q, p.parent? = some q ∧ q.isDirect = true ∧ ∀ d : Disk, d.locate q <+: d.locate p := by
  obtain ⟨s, hs, hdot, hup⟩ : ∃ s ∈ p.steps, s ≠ "." ∧ s ≠ ".." := by
    by_contra hall
    have hdots : ∀ s ∈ p.steps, s = "." ∨ s = ".." := fun s hs => by
      by_contra hn
      exact hall ⟨s, hs, not_or.mp hn⟩
    obtain ⟨l, hw⟩ : ∃ l, d.walk (if p.isAbsolute then [] else d.cwd) p.steps = .ok (l, some .directory) :=
      walk_dots hdots
    unfold makeDirectory find at hm
    rw [if_neg (by simp [hne]), hw] at hm
    cases hm
  obtain ⟨n, hn⟩ := Path.exists_fileName? hp hs hdot hup
  obtain ⟨q, hq, -, hdirect, hl⟩ := Path.parent?_of_fileName? hn
  refine ⟨q, hq, hdirect.trans hp, fun d => ?_⟩
  unfold locate
  rw [hl]
  exact List.prefix_append _ _

/-- Making directories makes directories on the way to the path only. The induction is on the depth. -/
theorem grown_makeDirectoriesFrom (depth : Nat) {res : Except IoKind Unit} (ht : d.IsTree)
    (hp : p.isDirect = true) (h : makeDirectoriesFrom depth p d = (res, d')) :
    Grown (d.locate p) d d' := by
  induction depth generalizing p res d' with
  | zero =>
    cases h
    exact .refl ht
  | succ depth ih =>
    unfold makeDirectoriesFrom at h
    split at h
    · cases h
      exact .refl ht
    · next he =>
      have hne : p.isEmpty = false := by simpa using he
      split at h
      · next d₁ hm =>
        cases h
        exact (makeDirectory_spec ht hm).1
      · next hm =>
        obtain ⟨q, hq, hqp, hup⟩ := exists_parent hp hne hm
        rw [hq, Option.getD_some] at h
        split at h
        · next d₁ hr =>
          have hg := (ih hqp hr).mono (hup d)
          split at h
          · next d₂ hm =>
            cases h
            have hg' := grown_ensureDirectory hg.tree hm
            rw [locate_congr hg.cwd] at hg'
            exact hg.trans hg'
          · cases h
            exact hg
        · next d₁ hr =>
          cases h
          exact (ih hqp hr).mono (hup d)
      · split at h <;>
          · cases h
            exact .refl ht

/-- Making a directory with those around it makes nothing else, and after a success it is there. -/
theorem makeDirectories_spec {res : Except IoKind Unit} (ht : d.IsTree) (hp : p.isDirect = true)
    (h : d.makeDirectories p = (res, d')) :
    Grown (d.locate p) d d' ∧ (res = .ok () → d'.get? (d.locate p) = some .directory) := by
  have hg : Grown (d.locate p) d d' := grown_makeDirectoriesFrom _ ht hp h
  refine ⟨hg, ?_⟩
  rintro rfl
  rw [← locate_congr hg.cwd]
  cases he : p.isEmpty with
  | false => exact directory_of_isDirectory hg.tree (isDirectory_of_makeDirectories ht he h)
  | true =>
    have hp : p = ⟨""⟩ := by
      obtain ⟨text⟩ := p
      simpa [Path.isEmpty] using he
    subst hp
    exact hg.tree.working

end SchemaGen.Disk
