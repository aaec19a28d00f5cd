import SchemaGen.Proofs.Run.Staging

/-!
# The inputs of a run

A run reads the schema documents and the enum catalog. Valid settings keep the managed directories
apart from the schema directory, so no document is ever touched. Nothing keeps the enum catalog out of
a managed directory: there it is a file like any other, which goes when the target has no file of its
name, and is written over when the target has one with another text.

Results:
1. `run_apply`: a run works on what it staged, or leaves the disk as it is.
2. `touched_run`, `touched_run_managed`: the files that a run touches, whatever the outcome.
3. `run_write_inputs`: when a run keeps its inputs.
4. `exists_input_lost`: a run that removes its enum catalog.
-/

namespace SchemaGen

variable {s : Settings} {d d' : Disk}

/-- The locations directly inside a managed directory. -/
def Settings.Manages (s : Settings) (d : Disk) (loc : Location) : Prop :=
  ∃ t : Target, ∃ n, loc = d.locate (s.outputDir t) ++ [n]

/-- The files that loading reads: the documents of the schema directory, and the enum catalog if it is
there. -/
def Settings.Reads (s : Settings) (d : Disk) (p : Path) : Prop :=
  (∃ paths, Loading.discover d s.schemaDir = .ok paths ∧ p ∈ paths) ∨
    (p = s.enumsFile ∧ d.isFile p = true)

/-! ## Documents -/

/-- A document is a file directly inside the schema directory, with the name of one. -/
theorem Loading.exists_of_mem_discover (ht : d.IsTree) {dir : Path} {paths : List Path}
    (h : discover d dir = .ok paths) {p : Path} (hm : p ∈ paths) :
    ∃ n, IsName n ∧ isSchemaName n = true ∧ p = dir.child n := by
  unfold discover at h
  split at h
  · next entries hl =>
    cases h
    obtain ⟨e, he, rfl⟩ := List.mem_map.mp hm
    obtain ⟨he, hpicked⟩ := List.mem_filter.mp he
    exact ⟨e.1, ht.isName_last (Disk.get?_of_mem_list ht hl he), (Bool.and_eq_true_iff.mp hpicked).2, rfl⟩
  · cases h

theorem Loading.mem_discover (ht : d.IsTree) {dir : Path} {paths : List Path}
    (h : discover d dir = .ok paths) {p : Path} (hm : p ∈ paths) : ∃ n, IsName n ∧ p = dir.child n := by
  obtain ⟨n, hn, -, hp⟩ := exists_of_mem_discover ht h hm
  exact ⟨n, hn, hp⟩

namespace Settings

/-- Valid settings manage nothing directly inside the schema directory. -/
theorem not_manages_document (hv : s.validate = .ok ()) (hp : s.IsPlain) (n : String) :
    ¬ s.Manages d (d.locate s.schemaDir ++ [n]) := by
  rintro ⟨t, m, he⟩
  obtain ⟨-, -, -, hdirs, -⟩ := (s.validate_eq_ok_iff).mp hv
  have hsame := (hdirs _ (List.mem_map_of_mem t.mem_all)).2
  rw [Path.same_eq_false_iff (hp.outputDir t) hp.schemaDir] at hsame
  have hl := (List.append_inj' he rfl).1
  rw [Disk.locate_eq_iff hp.schemaDir (hp.outputDir t)] at hl
  exact hsame hl.symm

/-- Of what is read, at most the enum catalog stands directly inside a managed directory. -/
theorem not_manages_of_reads (ht : d.IsTree) (hv : s.validate = .ok ()) (hp : s.IsPlain) {p : Path}
    (hr : s.Reads d p) (he : ¬ s.Manages d (d.locate s.enumsFile)) :
    p.isPlain = true ∧ ¬ s.Manages d (d.locate p) := by
  rcases hr with ⟨paths, hpaths, hm⟩ | ⟨rfl, -⟩
  · obtain ⟨n, hn, rfl⟩ := Loading.mem_discover ht hpaths hm
    rw [Disk.locate_child s.schemaDir hn]
    exact ⟨Path.isPlain_child hp.schemaDir hn, not_manages_document hv hp n⟩
  · exact ⟨hp.enumsFile, he⟩

end Settings

/-- The default settings place the enum catalog outside the managed directories. -/
theorem Settings.not_manages_default (d : Disk) :
    ¬ Settings.default.Manages d (d.locate Settings.default.enumsFile) := by
  have hp : Settings.default.IsPlain := by decide
  rintro ⟨t, n, h⟩
  rw [Disk.locate_of_isPlain hp.enumsFile, Disk.locate_of_isPlain (hp.outputDir t), List.append_assoc,
    List.append_right_inj] at h
  have hdir : (Settings.default.outputDir t).names.length = 2 := by cases t <;> decide
  have hfile : Settings.default.enumsFile.names.length = 1 := by decide
  rw [h, List.length_append, hdir] at hfile
  cases hfile

namespace Run

variable {staged : Staged} {loc : Location}

/-- What stands directly inside the directory of a staged target does so in a managed directory. -/
theorem manages_of_within (h : stage s d = .ok staged) (hl : Within d staged.targets loc) :
    s.Manages d loc := by
  obtain ⟨-, files, hts, -⟩ := stage_files h
  obtain ⟨u, hu, n, rfl⟩ := hl
  rw [hts] at hu
  obtain ⟨t, -, rfl⟩ := List.mem_map.mp hu
  exact ⟨t, n, rfl⟩

end Run

/-! ## Runs -/

/-- A run works on what it staged; where staging fails it leaves the disk as it is. -/
theorem run_apply (s : Settings) (mode : Mode) (d : Disk) :
    run s mode d = match Run.stage s d with
      | .ok staged => match mode with
        | .write => Run.commit staged d
        | .check => Run.compare staged d
      | .error fault => (.error fault, d) := by
  unfold run
  rw [Action.bind_apply]
  unfold Action.reads
  cases Run.stage s d with
  | ok staged => cases mode <;> rfl
  | error fault => rfl

theorem run_write_apply (s : Settings) (d : Disk) :
    run s .write d = match Run.stage s d with
      | .ok staged => Run.commit staged d
      | .error fault => (.error fault, d) := run_apply s .write d

/-- A run touches the stale and the outdated files of what it staged only, whatever the outcome. -/
theorem touched_run (ht : d.IsTree) (hp : s.IsPlain) :
    d.Touched (fun loc => ∃ staged, Run.stage s d = .ok staged ∧
      (Run.Stale d staged.targets loc ∨ Run.Outdated d staged.targets loc)) (run s .write d).2 := by
  rw [run_write_apply]
  cases hs : Run.stage s d with
  | error fault => exact .refl ht
  | ok staged =>
    exact (Run.commit_spec ht (Run.stage_eq_ok hp hs).2.1).1.mono fun _ hl => ⟨staged, rfl, hl⟩

/-- What a run touches stands directly inside a managed directory, whatever the settings. -/
theorem touched_run_managed (s : Settings) (ht : d.IsTree) : d.Touched (s.Manages d) (run s .write d).2 := by
  rw [run_write_apply]
  cases hs : Run.stage s d with
  | error fault => exact .refl ht
  | ok staged =>
    exact (Run.touched_commit ht (Run.isName_of_stage hs)).mono fun _ => Run.manages_of_within hs

/-- A run keeps every document, whatever the outcome. It keeps the enum catalog if that does not stand
directly inside a managed directory, if nothing was staged, or if the catalog is neither stale nor
outdated there. A stale one is gone whatever the outcome, and an outdated one has been written over
when the run succeeds. -/
theorem run_write_inputs (ht : d.IsTree) (hv : s.validate = .ok ()) (hp : s.IsPlain) :
    (∀ paths, Loading.discover d s.schemaDir = .ok paths → ∀ p ∈ paths, ∀ c m,
      d.read p = .ok (c, m) → (run s .write d).2.read p = .ok (c, m)) ∧
    ∀ c m, d.read s.enumsFile = .ok (c, m) →
      (¬ s.Manages d (d.locate s.enumsFile) → (run s .write d).2.read s.enumsFile = .ok (c, m)) ∧
      (∀ fault, Run.stage s d = .error fault → (run s .write d).2.read s.enumsFile = .ok (c, m)) ∧
      ∀ staged, Run.stage s d = .ok staged →
        (¬ Run.Stale d staged.targets (d.locate s.enumsFile) →
          ¬ Run.Outdated d staged.targets (d.locate s.enumsFile) →
          (run s .write d).2.read s.enumsFile = .ok (c, m)) ∧
        (Run.Stale d staged.targets (d.locate s.enumsFile) →
          ∀ c' m', (run s .write d).2.read s.enumsFile ≠ .ok (c', m')) ∧
        (Run.Outdated d staged.targets (d.locate s.enumsFile) →
          ∀ sum, (run s .write d).1 = .ok sum →
            ∀ m', (run s .write d).2.read s.enumsFile ≠ .ok (c, m')) := by
  have htouch := touched_run (s := s) ht hp
  have hmanaged := touched_run_managed s ht
  refine ⟨?_, fun c m hr => ⟨fun hl => ?_, fun fault hs => ?_, fun staged hs => ⟨?_, ?_, ?_⟩⟩⟩
  · intro paths hpaths p hm c m hr
    obtain ⟨n, hn, rfl⟩ := Loading.mem_discover ht hpaths hm
    refine Disk.read_of_touched ht (Path.isPlain_child hp.schemaDir hn) hmanaged ?_ hr
    rw [Disk.locate_child s.schemaDir hn]
    exact Settings.not_manages_document hv hp n
  · exact Disk.read_of_touched ht hp.enumsFile hmanaged hl hr
  · rw [run_write_apply, hs]
    exact hr
  · intro hstale hout
    refine Disk.read_of_touched ht hp.enumsFile htouch ?_ hr
    rintro ⟨staged', hs', hl⟩
    rw [hs] at hs'
    cases hs'
    exact hl.elim hstale hout
  · intro hstale c' m' hr'
    have hf := Disk.read_eq_ok htouch.tree hr'
    rw [Disk.locate_congr htouch.cwd] at hf
    rw [run_write_apply, hs] at hf
    exact (Run.commit_spec ht (Run.stage_eq_ok hp hs).2.1).2 _ hstale c' m' hf
  · intro hout sum hok m' hr'
    have hf := Disk.read_eq_ok htouch.tree hr'
    rw [Disk.locate_congr htouch.cwd] at hf
    rw [run_write_apply, hs] at hok hf
    dsimp only at hok hf
    obtain ⟨report, -, hw⟩ := Run.commit_eq_ok ht (Run.stage_eq_ok hp hs).2.1 (Prod.ext hok rfl)
    obtain ⟨t, htm, f, hfm, hl, hh⟩ := hout
    -- afterwards the file holds the rendered text, which it did not hold before
    obtain ⟨m'', hg⟩ := Disk.holds_iff.mp (hw.held t htm f hfm)
    rw [← hl, hf] at hg
    cases hg
    rw [Bool.eq_false_iff] at hh
    exact hh (Disk.holds_iff.mpr ⟨m, Disk.read_eq_ok ht hr⟩)

/-- A disk with an enum catalog beside the schema directory. -/
def besideDisk : Disk :=
  ⟨[(["schemas"], .directory), (["enums.yml"], .file "Color: [red]".toUTF8 7)], [], 9⟩

theorem run_write_inputs_beside :
    besideDisk.IsTree ∧ Settings.default.validate = .ok () ∧ Settings.default.IsPlain ∧
      (run .default .write besideDisk).2.read ⟨"enums.yml"⟩ = .ok ("Color: [red]".toUTF8, 7) := by
  have ht : besideDisk.IsTree := by decide
  have hv : Settings.default.validate = .ok () := by decide
  have hp : Settings.default.IsPlain := by decide
  exact ⟨ht, hv, hp, ((run_write_inputs ht hv hp).2 _ _ (by decide)).1 (Settings.not_manages_default _)⟩

/-! ## A lost enum catalog -/

/-- Settings that place the enum catalog among the files of the host models. -/
def misplacedEnums : Settings := { Settings.default with enumsFile := ⟨"generated/rust/enums.yml"⟩ }

/-- A disk with an enum catalog among the files of the host models. -/
def misplacedEnumsDisk : Disk :=
  ⟨[(["schemas"], .directory), (["generated"], .directory), (["generated", "rust"], .directory),
    (["generated", "rust", "enums.yml"], .file "Color: [red]".toUTF8 0)], [], 0⟩

/-- With valid settings and plain paths, a run that succeeds removes the enum catalog that it has
read. -/
theorem exists_input_lost : ∃ s d p c m, d.IsTree ∧ s.validate = .ok () ∧ s.IsPlain ∧
    s.Reads d p ∧ d.read p = .ok (c, m) ∧ (run s .write d).1.toOption.isSome = true ∧
    (run s .write d).2.read p = .error .notFound := by
  have hrun : (run misplacedEnums .write misplacedEnumsDisk).1.toOption.isSome = true ∧
      (run misplacedEnums .write misplacedEnumsDisk).2.read misplacedEnums.enumsFile =
        .error .notFound := by
    decide +kernel
  refine ⟨misplacedEnums, misplacedEnumsDisk, misplacedEnums.enumsFile, "Color: [red]".toUTF8, 0,
    ?_, ?_, ?_, .inr ⟨rfl, ?_⟩, ?_, hrun⟩ <;> decide

end SchemaGen
