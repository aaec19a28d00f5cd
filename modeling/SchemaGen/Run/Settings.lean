import SchemaGen.Fault
import SchemaGen.Text.Blank

/-!
# Settings of a run

Where the schema documents lie and where each target's files go. The directories must be told apart by
their spelling: none of the four output directories may be another one or the schema directory, and
the enum catalog must not lie inside the schema directory, where it would be read as a document.

Results:
1. `validate_eq_ok_iff`: what valid settings are.
-/

namespace SchemaGen

/-- The settings of a run. -/
structure Settings where
  schemaDir : Path
  enumsFile : Path
  rustDir : Path
  typescriptDir : Path
  graphqlDir : Path
  infraDir : Path
  apiName : String
  docs : Bool
  /-- When the schema counts as generated, in seconds since 1970; none stands for the newest change of
  a document. -/
  epoch : Option Int
  deriving DecidableEq, Repr

namespace Settings

/-- The settings where nothing is set. -/
def default : Settings :=
  ⟨⟨"schemas"⟩, ⟨"enums.yml"⟩, ⟨"generated/rust"⟩, ⟨"generated/typescript"⟩, ⟨"generated/graphql"⟩,
    ⟨"generated/infra"⟩, "tessera-api", true, none⟩

/-- The default settings with every path below `root`. -/
def rootedAt (root : Path) : Settings :=
  { default with
    schemaDir := root.join default.schemaDir
    enumsFile := root.join default.enumsFile
    rustDir := root.join default.rustDir
    typescriptDir := root.join default.typescriptDir
    graphqlDir := root.join default.graphqlDir
    infraDir := root.join default.infraDir }

/-- The directory of a target's files. -/
def outputDir (s : Settings) : Target → Path
  | .rust => s.rustDir
  | .typescript => s.typescriptDir
  | .graphql => s.graphqlDir
  | .infra => s.infraDir

/-- The managed directories, in the order of a run. -/
def managedDirs (s : Settings) : List Path := Target.all.map s.outputDir

/-- The output directories differ from the schema directory and from those after them. -/
def checkDirs (schemaDir : Path) : List Path → Except ConfigFault Unit
  | [] => .ok ()
  | dir :: rest =>
    if dir.isEmpty then .error .emptyOutputDir
    else if dir.same schemaDir then .error (.outputIsSchemaDir dir)
    else if rest.any dir.same then .error (.sharedOutputDir dir)
    else checkDirs schemaDir rest

/-- Refuses settings that a run cannot work with. -/
def validate (s : Settings) : Except ConfigFault Unit :=
  if Text.isBlankText s.apiName then .error .blankApiName
  else if s.schemaDir.isEmpty then .error .emptySchemaDir
  else if s.enumsFile.startsWith s.schemaDir then .error (.enumsInSchemaDir s.enumsFile s.schemaDir)
  else checkDirs s.schemaDir s.managedDirs

theorem checkDirs_eq_ok_iff (schemaDir : Path) (dirs : List Path) :
    checkDirs schemaDir dirs = .ok () ↔
      (∀ dir ∈ dirs, dir.isEmpty = false ∧ dir.same schemaDir = false) ∧
        dirs.Pairwise fun a b => a.same b = false := by
  induction dirs with
  | nil => simp [checkDirs]
  | cons dir rest ih =>
    unfold checkDirs
    by_cases h₁ : dir.isEmpty = true
    · simp [h₁]
    · by_cases h₂ : dir.same schemaDir = true
      · simp [h₁, h₂]
      · by_cases h₃ : rest.any dir.same = true
        · simp only [h₁, h₂, h₃, if_true, if_false, reduceCtorEq, false_iff, List.pairwise_cons]
          simp only [List.any_eq_true] at h₃
          obtain ⟨x, hx, hs⟩ := h₃
          rintro ⟨_, hp, _⟩
          simp [hp x hx] at hs
        · rw [if_neg h₁, if_neg h₂, if_neg h₃, ih]
          simp only [List.mem_cons, forall_eq_or_imp, List.pairwise_cons]
          simp only [Bool.not_eq_true, List.any_eq_false] at h₁ h₂ h₃
          constructor
          · rintro ⟨ha, hp⟩
            exact ⟨⟨⟨h₁, h₂⟩, ha⟩, h₃, hp⟩
          · rintro ⟨⟨_, ha⟩, _, hp⟩
            exact ⟨ha, hp⟩

theorem validate_eq_ok_iff (s : Settings) :
    s.validate = .ok () ↔
      Text.isBlankText s.apiName = false ∧ s.schemaDir.isEmpty = false ∧
        s.enumsFile.startsWith s.schemaDir = false ∧
        (∀ dir ∈ s.managedDirs, dir.isEmpty = false ∧ dir.same s.schemaDir = false) ∧
        s.managedDirs.Pairwise fun a b => a.same b = false := by
  unfold validate
  split
  · simp_all
  · split
    · simp_all
    · split
      · simp_all
      · simp_all [checkDirs_eq_ok_iff]

end Settings

end SchemaGen
