import SchemaGen.Proofs.Run.Inputs

/-!
# Loading again

A change outside the inputs leaves what a run reads, and with it what the run stages: a file is read
alike on two trees that have it in the same place, and a directory lists the same documents as long
as the same files stand in it, whatever directories have been made beside them.

Results:
1. `read_iff_of_touched`: outside what was touched the same files are read.
2. `discover_of_touched`: a directory without touched documents has the documents it had.
3. `load_of_touched`: what was loaded is loaded again.
4. `stage_of_spared`, `stage_later`: what was staged is staged again, also at another time.
-/

namespace SchemaGen

namespace Loading

variable {S : Location → Prop} {d d' : Disk} {dir : Path}

theorem discover_eq_ok_iff (ht : d.IsTree) (hp : dir.isDirect = true) (hne : dir.isEmpty = false)
    {paths : List Path} : discover d dir = .ok paths ↔
      d.get? (d.locate dir) = some .directory ∧
        paths = (d.fileNames (d.locate dir) isSchemaName).map dir.child := by
  have hmap : ∀ entries : List (String × Entry),
      ((entries.filter fun e => e.2.isFile && isSchemaName e.1).map fun e => dir.child e.1) =
        ((entries.filter fun e => e.2.isFile && isSchemaName e.1).map Prod.fst).map dir.child :=
    fun entries => by rw [List.map_map]; rfl
  unfold discover
  constructor
  · intro h
    split at h
    · next entries hl =>
      cases h
      obtain ⟨hd, rfl⟩ := Disk.list_eq_ok ht hl
      exact ⟨hd, hmap _⟩
    · cases h
  · rintro ⟨hd, rfl⟩
    rw [Disk.list_directory ht hp hne hd]
    exact congrArg _ (hmap _)

/-- A directory whose documents were not touched has the documents it had. -/
theorem discover_of_touched (ht : d.IsTree) (hp : dir.isDirect = true) (hne : dir.isEmpty = false)
    (h : d.Touched S d') (hs : ∀ n, isSchemaName n = true → ¬ S (d.locate dir ++ [n])) {paths : List Path}
    (hd : discover d dir = .ok paths) : discover d' dir = .ok paths := by
  obtain ⟨hdir, rfl⟩ := (discover_eq_ok_iff ht hp hne).mp hd
  rw [discover_eq_ok_iff h.tree hp hne, Disk.locate_congr h.cwd]
  refine ⟨h.directories _ hdir, congrArg _ ?_⟩
  exact (Disk.fileNames_congr ht h.tree fun n hn => h.files _ (hs n hn)).symm

theorem readDocuments_congr {paths : List Path} (h : ∀ p ∈ paths, d'.read p = d.read p) :
    readDocuments d' paths = readDocuments d paths := by
  induction paths with
  | nil => rfl
  | cons p rest ih =>
    obtain ⟨hp, hrest⟩ := List.forall_mem_cons.mp h
    unfold readDocuments readText
    rw [hp, ih hrest]

theorem readEnums_congr {file : Path} (hf : d'.isFile file = d.isFile file)
    (hr : d.isFile file = true → d'.read file = d.read file) : readEnums d' file = readEnums d file := by
  unfold readEnums readText
  rw [hf]
  cases hd : d.isFile file with
  | false => rfl
  | true => rw [hr hd]

end Loading

variable {S : Location → Prop} {s : Settings} {d d' : Disk}

/-- What was loaded is loaded again as long as no input was touched. -/
theorem Disk.load_of_touched (ht : d.IsTree) {dir file : Path} (hp : dir.isDirect = true)
    (hne : dir.isEmpty = false) (hpf : file.isDirect = true) (h : d.Touched S d')
    (hs : ∀ n, isSchemaName n = true → ¬ S (d.locate dir ++ [n])) (hf : ¬ S (d.locate file)) {loaded : Loaded}
    (hl : d.load dir file = .ok loaded) : d'.load dir file = .ok loaded := by
  unfold Disk.load at hl ⊢
  obtain ⟨paths, hpaths, hl⟩ := bind_eq_ok.mp hl
  obtain ⟨⟨docs, newest⟩, hdocs, hl⟩ := bind_eq_ok.mp hl
  have hread : ∀ p ∈ paths, d'.read p = d.read p := by
    intro p hm
    obtain ⟨n, hn, hschema, rfl⟩ := Loading.exists_of_mem_discover ht hpaths hm
    obtain ⟨c, m, hr⟩ := (Loading.readDocuments_eq_ok hdocs).2 _ hm
    rw [hr]
    refine (read_iff_of_touched ht (Path.isDirect_child hp hn) h ?_).mpr hr
    rw [locate_child dir hn]
    exact hs n hschema
  have henum : d.isFile file = true → d'.read file = d.read file := by
    intro hd
    obtain ⟨c, m, hr⟩ := isFile_iff_read.mp hd
    rw [hr]
    exact (read_iff_of_touched ht hpf h hf).mpr hr
  rw [Loading.discover_of_touched ht hp hne h hs hpaths,
    Loading.readEnums_congr (isFile_of_touched ht hpf h hf) henum]
  refine bind_eq_ok.mpr ⟨paths, rfl, ?_⟩
  rw [Loading.readDocuments_congr hread]
  exact bind_eq_ok.mpr ⟨(docs, newest), hdocs, hl⟩

/-- A run stages the same again after a change that spared its inputs. -/
theorem Run.stage_of_spared (ht : d.IsTree) (hp : s.IsDirect) (h : d.Touched S d')
    (hs : ∀ n, isSchemaName n = true → ¬ S (d.locate s.schemaDir ++ [n])) (hf : ¬ S (d.locate s.enumsFile))
    {staged : Staged} (hst : Run.stage s d = .ok staged) : Run.stage s d' = .ok staged := by
  unfold Run.stage at hst ⊢
  obtain ⟨_, hv, hst⟩ := bind_eq_ok.mp hst
  obtain ⟨loaded, hl, hst⟩ := bind_eq_ok.mp hst
  have hne := ((s.validate_eq_ok_iff).mp (mapError_eq_ok.mp hv)).2.1
  refine bind_eq_ok.mpr ⟨(), hv, bind_eq_ok.mpr ⟨loaded, ?_, ?_⟩⟩
  · exact Disk.load_of_touched ht hp.schemaDir hne hp.enumsFile h hs hf hl
  · rw [h.cwd]
    exact hst

/-- With plain settings, a change outside the schema directory and the enum catalog spares the inputs. -/
theorem Run.stage_of_touched (ht : d.IsTree) (hp : s.IsPlain) (h : d.Touched S d')
    (hs : ∀ n, ¬ S (d.locate s.schemaDir ++ [n])) (hf : ¬ S (d.locate s.enumsFile)) {staged : Staged}
    (hst : Run.stage s d = .ok staged) : Run.stage s d' = .ok staged :=
  stage_of_spared ht hp.isDirect h (fun n _ => hs n) hf hst

/-! ## Time -/

namespace Disk

theorem isTree_later (h : d.IsTree) (now : Int) : IsTree { d with clock := now } :=
  ⟨h.unique, h.below, h.named, h.around, h.working⟩

theorem walk_later (d : Disk) (now : Int) (loc : Location) (steps : List String) :
    { d with clock := now }.walk loc steps = d.walk loc steps := by
  induction steps generalizing loc with
  | nil => rfl
  | cons s rest ih =>
    unfold walk
    simp only [ih]
    rfl

theorem entry_later (d : Disk) (now : Int) (p : Path) :
    { d with clock := now }.entry p = d.entry p := by
  unfold entry find
  rw [walk_later]

theorem read_later (d : Disk) (now : Int) (p : Path) :
    { d with clock := now }.read p = d.read p := by
  unfold read
  rw [entry_later]

theorem list_later (d : Disk) (now : Int) (p : Path) :
    { d with clock := now }.list p = d.list p := by
  unfold list
  rw [entry_later]
  rfl

theorem isDirectory_later (d : Disk) (now : Int) (p : Path) :
    { d with clock := now }.isDirectory p = d.isDirectory p := by
  unfold isDirectory
  rw [entry_later]

theorem isFile_later (d : Disk) (now : Int) (p : Path) :
    { d with clock := now }.isFile p = d.isFile p := by
  unfold isFile
  rw [entry_later]

end Disk

/-- What a run stages does not depend on the time of the run. -/
theorem Run.stage_later (s : Settings) (d : Disk) (now : Int) :
    Run.stage s { d with clock := now } = Run.stage s d := by
  unfold Run.stage Disk.load Loading.discover
  rw [Disk.list_later, Loading.readEnums_congr (Disk.isFile_later d now _) fun _ => d.read_later now _]
  simp only [Loading.readDocuments_congr fun p _ => d.read_later now p]

end SchemaGen
