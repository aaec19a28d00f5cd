import SchemaGen.Proofs.Run.Staging

/-!
# Where valid settings lead

A run keeps the files of each target in a directory of its own and reads the schema from another one, with
the enum catalog outside of it. Settings are checked for this as they are spelled, while one place has many
spellings: `schemas` and `./schemas` are told apart by their components and lead to one directory. So valid
settings may still place directories on each other. They do not if all their paths set out alike, and
whether they do is what the check says of the same paths written in full.

Results:
1. `Location.components_fullPath`, `Location.resolve_fullPath`: a path written in full.
2. `keepsApart_of_setOut`: valid settings whose paths set out alike.
3. `keepsApart_of_validate`: when valid settings keep their places apart.
4. `exists_places_shared`: valid settings that do not.
-/

namespace SchemaGen

variable {s : Settings} {cwd : Location} {p q : Path}

/-! ## Paths -/

/-- The place that a path leads to, written from the root. -/
def Location.fullPath (loc : Location) : Path := Path.ofComponents (.root :: loc.map .name)

theorem Location.components_fullPath {loc : Location} (h : ∀ n ∈ loc, IsName n) :
    loc.fullPath.components = .root :: loc.map .name := by
  have hcs : ∀ c ∈ loc.map Component.name, Path.component? (Path.segment c) = some c ∧
      Path.segment c ≠ "" ∧ '/' ∉ (Path.segment c).toList := List.forall_mem_map.mpr fun n hn =>
    ⟨Path.component?_of_isName (h n hn), (h n hn).1, (h n hn).2.2.2⟩
  have hfull : loc.fullPath = Path.ofComponents ([.root] ++ loc.map .name) := rfl
  obtain ⟨habsolute, hsteps⟩ : loc.fullPath.isAbsolute = true ∧
      loc.fullPath.steps.filterMap Path.component? = loc.map .name := by
    rw [hfull]
    exact Path.ofComponents_start (.inl ⟨rfl, rfl⟩) hcs
  unfold Path.components
  rw [if_pos habsolute, hsteps]

/-- Written in full, a path leads to the place from anywhere. -/
theorem Location.resolve_fullPath {loc : Location} (h : ∀ n ∈ loc, IsName n) (cwd : Location) :
    Location.resolve cwd loc.fullPath = loc := by
  unfold Location.resolve
  rw [components_fullPath h]
  exact Location.ofSteps_names [] loc

theorem Location.isEmpty_fullPath (loc : Location) : loc.fullPath.isEmpty = false := by
  have habsolute : loc.fullPath.isAbsolute = true := Path.isAbsolute_slash _
  cases hempty : loc.fullPath.isEmpty with
  | false => rfl
  | true =>
    have htext : loc.fullPath.text = "" := by simpa [Path.isEmpty] using hempty
    simp [Path.isAbsolute, htext] at habsolute

/-- The path has those components first, and then only names. -/
def Path.SetsOut (start : List Component) (p : Path) : Prop :=
  ∃ names : List String, p.components = start ++ names.map .name

section SettingOut

variable {start : List Component}

theorem Path.resolve_of_setsOut {names : List String} (h : p.components = start ++ names.map .name) :
    Location.resolve cwd p = Location.ofSteps cwd start ++ names := by
  unfold Location.resolve
  rw [h, Location.ofSteps_append, Location.ofSteps_names]

/-- Paths that set out alike are the same exactly if they lead to one place. -/
theorem Path.same_iff_of_setsOut (cwd : Location) (hp : p.SetsOut start) (hq : q.SetsOut start) :
    p.same q = true ↔ Location.resolve cwd p = Location.resolve cwd q := by
  obtain ⟨names, hp⟩ := hp
  obtain ⟨names', hq⟩ := hq
  rw [resolve_of_setsOut hp, resolve_of_setsOut hq, List.append_cancel_left_eq]
  unfold same
  rw [hp, hq, beq_iff_eq, List.append_cancel_left_eq]
  exact List.map_inj_right fun _ _ h => Component.name.inj h

/-- Of paths that set out alike one starts with the other exactly if it leads there or below. -/
theorem Path.startsWith_iff_of_setsOut (cwd : Location) (hp : p.SetsOut start) (hq : q.SetsOut start) :
    p.startsWith q = true ↔ Location.resolve cwd q <+: Location.resolve cwd p := by
  obtain ⟨names, hp⟩ := hp
  obtain ⟨names', hq⟩ := hq
  rw [resolve_of_setsOut hp, resolve_of_setsOut hq, List.prefix_append_right_inj]
  unfold startsWith
  rw [hp, hq, List.isPrefixOf_iff_prefix, List.prefix_append_right_inj]
  exact List.prefix_map_iff_of_injective fun _ _ h => Component.name.inj h

end SettingOut

/-! ## Settings -/

namespace Settings

/-- The places of the settings are apart, read from the working directory: the managed directories from
each other and from the schema directory, and the enum catalog is not in the schema directory. -/
structure KeepsApart (s : Settings) (cwd : Location) : Prop where
  outputs : s.IsApart cwd
  schema : ∀ dir ∈ s.managedDirs, Location.resolve cwd dir ≠ Location.resolve cwd s.schemaDir
  enums : ¬ Location.resolve cwd s.schemaDir <+: Location.resolve cwd s.enumsFile

/-- All paths of the settings have those components first, and then only names. -/
def SetOut (s : Settings) (start : List Component) : Prop := ∀ p ∈ s.paths, p.SetsOut start

/-- The settings with each path written in full, as it is read from the working directory. -/
def inFull (s : Settings) (cwd : Location) : Settings :=
  { s with
    schemaDir := (Location.resolve cwd s.schemaDir).fullPath
    enumsFile := (Location.resolve cwd s.enumsFile).fullPath
    rustDir := (Location.resolve cwd s.rustDir).fullPath
    typescriptDir := (Location.resolve cwd s.typescriptDir).fullPath
    graphqlDir := (Location.resolve cwd s.graphqlDir).fullPath
    infraDir := (Location.resolve cwd s.infraDir).fullPath }

theorem managedDirs_inFull (s : Settings) (cwd : Location) :
    (s.inFull cwd).managedDirs = s.managedDirs.map fun dir => (Location.resolve cwd dir).fullPath := rfl

theorem IsPlain.setOut (h : s.IsPlain) : s.SetOut [] := fun p hp =>
  ⟨p.names, Path.components_of_isPlain (h p hp)⟩

/-- Where all paths set out alike, the places are apart exactly if the paths are told apart. -/
theorem keepsApart_iff_of_setOut {start : List Component} (h : s.SetOut start) (cwd : Location) :
    s.KeepsApart cwd ↔ s.enumsFile.startsWith s.schemaDir = false ∧
      (∀ dir ∈ s.managedDirs, dir.same s.schemaDir = false) ∧
        s.managedDirs.Pairwise fun a b => a.same b = false := by
  have hschema : s.schemaDir.SetsOut start := h _ List.mem_cons_self
  have henums : s.enumsFile.SetsOut start := h _ (List.mem_cons_of_mem _ List.mem_cons_self)
  have hdirs : ∀ dir ∈ s.managedDirs, dir.SetsOut start := fun dir hd =>
    h _ (List.mem_cons_of_mem _ (List.mem_cons_of_mem _ hd))
  have hsame : ∀ {p q : Path}, p.SetsOut start → q.SetsOut start →
      (p.same q = false ↔ Location.resolve cwd p ≠ Location.resolve cwd q) := fun hp hq => by
    rw [← Bool.not_eq_true, Path.same_iff_of_setsOut cwd hp hq]
  have houtputs : s.IsApart cwd ↔ s.managedDirs.Pairwise fun a b => a.same b = false :=
    List.Pairwise.iff_of_mem fun ha hb => (hsame (hdirs _ ha) (hdirs _ hb)).symm
  rw [← Bool.not_eq_true, Path.startsWith_iff_of_setsOut cwd henums hschema, ← houtputs]
  constructor
  · rintro ⟨hapart, hdir, hfile⟩
    exact ⟨hfile, fun dir hd => (hsame (hdirs dir hd) hschema).mpr (hdir dir hd), hapart⟩
  · rintro ⟨hfile, hdir, hapart⟩
    exact ⟨hapart, fun dir hd => (hsame (hdirs dir hd) hschema).mp (hdir dir hd), hfile⟩

theorem keepsApart_of_setOut {start : List Component} (hv : s.validate = .ok ()) (h : s.SetOut start)
    (cwd : Location) : s.KeepsApart cwd := by
  obtain ⟨-, -, henums, hdirs, houtputs⟩ := (s.validate_eq_ok_iff).mp hv
  exact (keepsApart_iff_of_setOut h cwd).mpr ⟨henums, fun dir hd => (hdirs dir hd).2, houtputs⟩

section InFull

variable (hcwd : ∀ n ∈ cwd, IsName n)

include hcwd

theorem setOut_inFull : (s.inFull cwd).SetOut [.root] := by
  have hfull : ∀ p : Path, (Location.resolve cwd p).fullPath.SetsOut [.root] := fun p =>
    ⟨_, Location.components_fullPath fun _ => Path.isName_of_mem_resolve hcwd⟩
  have hpaths : (s.inFull cwd).paths = s.paths.map fun p => (Location.resolve cwd p).fullPath := rfl
  intro p hp
  rw [hpaths] at hp
  obtain ⟨q, -, rfl⟩ := List.mem_map.mp hp
  exact hfull q

/-- Paths that are written in full lead where they led. -/
theorem keepsApart_inFull_iff : (s.inFull cwd).KeepsApart cwd ↔ s.KeepsApart cwd := by
  have hplace : ∀ p : Path,
      Location.resolve cwd (Location.resolve cwd p).fullPath = Location.resolve cwd p := fun p =>
    Location.resolve_fullPath (fun _ => Path.isName_of_mem_resolve hcwd) cwd
  have houtputs : (s.inFull cwd).IsApart cwd ↔ s.IsApart cwd := by
    unfold IsApart
    rw [managedDirs_inFull, List.pairwise_map]
    simp only [hplace]
  have hschema : (∀ dir ∈ (s.inFull cwd).managedDirs,
      Location.resolve cwd dir ≠ Location.resolve cwd (s.inFull cwd).schemaDir) ↔
        ∀ dir ∈ s.managedDirs, Location.resolve cwd dir ≠ Location.resolve cwd s.schemaDir := by
    rw [managedDirs_inFull, List.forall_mem_map]
    simp only [inFull, hplace]
  have henums : (¬ Location.resolve cwd (s.inFull cwd).schemaDir <+:
      Location.resolve cwd (s.inFull cwd).enumsFile) ↔
        ¬ Location.resolve cwd s.schemaDir <+: Location.resolve cwd s.enumsFile := by
    simp only [inFull, hplace]
  constructor
  · exact fun h => ⟨houtputs.mp h.outputs, hschema.mp h.schema, henums.mp h.enums⟩
  · exact fun h => ⟨houtputs.mpr h.outputs, hschema.mpr h.schema, henums.mpr h.enums⟩

/-- The places are apart exactly if the check passes for the paths written in full. -/
theorem keepsApart_iff_validate_inFull (hname : Text.isBlankText s.apiName = false) :
    s.KeepsApart cwd ↔ (s.inFull cwd).validate = .ok () := by
  rw [← keepsApart_inFull_iff hcwd, keepsApart_iff_of_setOut (setOut_inFull hcwd), validate_eq_ok_iff]
  have hdirs : ∀ dir ∈ (s.inFull cwd).managedDirs, dir.isEmpty = false := by
    rw [managedDirs_inFull]
    exact List.forall_mem_map.mpr fun _ _ => Location.isEmpty_fullPath _
  constructor
  · rintro ⟨henums, hschema, hapart⟩
    exact ⟨hname, Location.isEmpty_fullPath _, henums, fun dir hd => ⟨hdirs dir hd, hschema dir hd⟩, hapart⟩
  · rintro ⟨-, -, henums, hschema, hapart⟩
    exact ⟨henums, fun dir hd => (hschema dir hd).2, hapart⟩

end InFull

/-- Valid settings keep their places apart if all paths set out alike, and in any case exactly if the paths
are valid as well when they are written in full. -/
theorem keepsApart_of_validate (hv : s.validate = .ok ()) :
    (∀ start, s.SetOut start → ∀ cwd, s.KeepsApart cwd) ∧
      ∀ cwd, (∀ n ∈ cwd, IsName n) → (s.KeepsApart cwd ↔ (s.inFull cwd).validate = .ok ()) :=
  ⟨fun _ => keepsApart_of_setOut hv, fun _ hcwd =>
    keepsApart_iff_validate_inFull hcwd ((s.validate_eq_ok_iff).mp hv).1⟩

/-- The settings where nothing is set. -/
theorem keepsApart_of_validate_default : default.validate = .ok () ∧ (∀ n ∈ ["srv", "app"], IsName n) ∧
    (∀ cwd, default.KeepsApart cwd) ∧ (default.inFull ["srv", "app"]).validate = .ok () := by
  have hv : default.validate = .ok () := by decide +kernel
  have hplain : default.IsPlain := by decide +kernel
  have hcwd : ∀ n ∈ ["srv", "app"], IsName n := by decide +kernel
  have hapart : ∀ cwd, default.KeepsApart cwd := (keepsApart_of_validate hv).1 [] hplain.setOut
  exact ⟨hv, hcwd, hapart, ((keepsApart_of_validate hv).2 _ hcwd).mp (hapart _)⟩

/-- Settings with two spellings of one output directory, and with another spelling of the schema directory
for one and for the place of the enum catalog. -/
def respelled : Settings :=
  { default with
    enumsFile := ⟨"./schemas/enums.yml"⟩
    rustDir := ⟨"out"⟩
    typescriptDir := ⟨"./out"⟩
    graphqlDir := ⟨"./schemas"⟩ }

/-- Valid settings with two targets in one directory, a target in the schema directory, and the enum catalog
in it. -/
theorem exists_places_shared : respelled.validate = .ok () ∧ ∀ cwd,
    Location.resolve cwd respelled.rustDir = Location.resolve cwd respelled.typescriptDir ∧
      Location.resolve cwd respelled.graphqlDir = Location.resolve cwd respelled.schemaDir ∧
      Location.resolve cwd respelled.enumsFile = Location.resolve cwd respelled.schemaDir ++ ["enums.yml"] ∧
      ¬ respelled.KeepsApart cwd := by
  have hcomponents : respelled.rustDir.components = [.name "out"] ∧
      respelled.typescriptDir.components = [.current, .name "out"] ∧
      respelled.graphqlDir.components = [.current, .name "schemas"] ∧
      respelled.schemaDir.components = [.name "schemas"] ∧
      respelled.enumsFile.components = [.current, .name "schemas", .name "enums.yml"] := by decide +kernel
  obtain ⟨hrust, htypescript, hgraphql, hschema, henums⟩ := hcomponents
  refine ⟨by decide +kernel, fun cwd => ?_⟩
  have hfile : Location.resolve cwd respelled.enumsFile =
      Location.resolve cwd respelled.schemaDir ++ ["enums.yml"] := by
    unfold Location.resolve
    rw [henums, hschema]
    rfl
  refine ⟨?_, ?_, hfile, fun h => h.enums ⟨_, hfile.symm⟩⟩
  · unfold Location.resolve
    rw [hrust, htypescript]
    rfl
  · unfold Location.resolve
    rw [hgraphql, hschema]
    rfl

end Settings

end SchemaGen
