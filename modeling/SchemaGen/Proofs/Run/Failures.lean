import SchemaGen.Proofs.Run.Repetition

/-!
# Runs that fail

Everything that a run refuses it refuses before it changes the disk: settings, documents, the catalog, the
time and all targets are judged while it is staged. What comes after that can be stopped by a file operation
only, and even then nothing was touched but files directly inside managed directories.

Results:
1. `failsWithIo_commit`: a commit fails with I/O faults only.
2. `run_failure`: what a run leaves when it fails.
-/

namespace SchemaGen

namespace Action

variable {α β : Type}

/-- The action fails with I/O faults only. -/
def FailsWithIo (x : Action α) : Prop :=
  ∀ d fault, (x d).1 = .error fault → ∃ p kind, fault = .io p kind

theorem failsWithIo_pure (a : α) : FailsWithIo (pure a : Action α) := fun _ _ h => by cases h

theorem FailsWithIo.bind {x : Action α} {f : α → Action β} (hx : FailsWithIo x)
    (hf : ∀ a, FailsWithIo (f a)) : FailsWithIo (x >>= f) := by
  intro d fault h
  rw [bind_apply] at h
  rcases hrun : x d with ⟨fault' | a, d₁⟩
  · rw [hrun] at h
    cases h
    exact hx d fault (congrArg Prod.fst hrun)
  · rw [hrun] at h
    exact hf a d₁ fault h

theorem failsWithIo_reads {f : Disk → Except Fault α}
    (h : ∀ d fault, f d = .error fault → ∃ p kind, fault = .io p kind) : FailsWithIo (reads f) := h

theorem failsWithIo_change (p : Path) (f : Disk → Except IoKind Disk) : FailsWithIo (change p f) := by
  intro d fault h
  unfold change at h
  split at h
  · cases h
  · next kind _ =>
    cases h
    exact ⟨p, kind, rfl⟩

theorem failsWithIo_makeDirectories (p : Path) : FailsWithIo (makeDirectories p) := by
  intro d fault h
  unfold makeDirectories at h
  split at h
  · cases h
  · next kind _ _ =>
    cases h
    exact ⟨p, kind, rfl⟩

theorem failsWithIo_isCurrent (p : Path) (text : String) :
    FailsWithIo (reads fun d => d.isCurrent p text) := by
  refine failsWithIo_reads fun d fault h => ?_
  unfold Disk.isCurrent at h
  split at h
  · cases h
  · cases h
  · next kind _ _ =>
    cases h
    exact ⟨p, kind, rfl⟩

theorem failsWithIo_removeAll (paths : List Path) : FailsWithIo (removeAll paths) := by
  induction paths with
  | nil => exact failsWithIo_pure ()
  | cons p rest ih => exact (failsWithIo_change p _).bind fun _ => ih

theorem failsWithIo_reconcile (dir : Path) (expected : List String) :
    FailsWithIo (reconcile dir expected) :=
  (failsWithIo_reads fun d fault h => by cases h).bind fun stale =>
    (failsWithIo_removeAll stale).bind fun _ => failsWithIo_pure _

theorem failsWithIo_writeAll (dir : Path) (files : List (String × String)) :
    FailsWithIo (writeAll dir files) := by
  induction files with
  | nil => exact failsWithIo_pure _
  | cons f rest ih =>
    refine (failsWithIo_isCurrent _ _).bind fun current => ?_
    cases current with
    | true => exact ih.bind fun _ => failsWithIo_pure _
    | false => exact (failsWithIo_change _ _).bind fun _ => ih.bind fun _ => failsWithIo_pure _

theorem failsWithIo_writeFiles (dir : Path) (files : NameMap String) : FailsWithIo (writeFiles dir files) :=
  (failsWithIo_makeDirectories dir).bind fun _ => failsWithIo_writeAll dir files.pairs

end Action

namespace Run

open SchemaGen.Action

theorem failsWithIo_reconcileAll (ts : List StagedTarget) : FailsWithIo (reconcileAll ts) := by
  induction ts with
  | nil => exact failsWithIo_pure _
  | cons t rest ih =>
    exact (failsWithIo_reconcile _ _).bind fun _ => ih.bind fun _ => failsWithIo_pure _

theorem failsWithIo_writeAll (ts : List StagedTarget) : FailsWithIo (writeAll ts) := by
  induction ts with
  | nil => exact failsWithIo_pure _
  | cons t rest ih =>
    exact (failsWithIo_writeFiles _ _).bind fun _ => ih.bind fun _ => failsWithIo_pure _

theorem failsWithIo_commit (staged : Staged) : FailsWithIo (commit staged) :=
  (failsWithIo_reconcileAll _).bind fun _ => (failsWithIo_writeAll _).bind fun _ => failsWithIo_pure _

end Run

/-- A run that fails, but not in a file operation, leaves the disk as it was. Whatever its outcome, files
that are not directly inside a managed directory are as they were. -/
theorem run_failure (s : Settings) (mode : Mode) {d : Disk} (ht : d.IsTree) :
    (∀ fault, (run s mode d).1 = .error fault → (∀ p kind, fault ≠ .io p kind) → (run s mode d).2 = d) ∧
      ∀ loc, ¬ s.Manages d loc → ∀ c m,
        (run s mode d).2.get? loc = some (.file c m) ↔ d.get? loc = some (.file c m) := by
  cases hs : Run.stage s d with
  | error fault =>
    rw [run_apply, hs]
    exact ⟨fun _ _ _ => rfl, fun _ _ _ _ => Iff.rfl⟩
  | ok staged =>
    cases mode with
    | check =>
      rw [run_apply_of_stage hs, Run.compare_apply]
      exact ⟨fun _ _ _ => rfl, fun _ _ _ _ => Iff.rfl⟩
    | write =>
      refine ⟨fun fault hfault hio => ?_, (touched_run_managed s ht).files⟩
      rw [run_apply_of_stage hs] at hfault
      obtain ⟨p, kind, he⟩ := Run.failsWithIo_commit staged d fault hfault
      exact absurd he (hio p kind)

/-- Settings whose first managed directory is given by a way around. -/
def detourSettings : Settings := { Settings.default with rustDir := ⟨"generated/../models"⟩ }

/-- A disk with a stale file in the first managed directory, and with a directory in the place of the
schema. -/
def blockedDisk : Disk :=
  ⟨[(["schemas"], .directory), (["models"], .directory), (["models", "gone.rs"], .file "".toUTF8 1),
    (["notes.txt"], .file "kept".toUTF8 2), (["generated"], .directory), (["generated", "graphql"], .directory),
    (["generated", "graphql", "schema.graphql"], .directory)], [], 9⟩

/-- The same disk with a document that does not bear the name of its file. -/
def misnamedDisk : Disk :=
  blockedDisk.put ["schemas", "Order.yml"] (.file "{name: Point, kind: static, attributes: []}".toUTF8 5)

/-- The first run fails after it has removed the stale file, the second one before it changes anything. -/
theorem run_failure_blocked :
    (blockedDisk.IsTree ∧ ¬ detourSettings.Manages blockedDisk ["notes.txt"] ∧
      (run detourSettings .write blockedDisk).1 =
        .error (.io ⟨"generated/graphql/schema.graphql"⟩ .isADirectory) ∧
      (run detourSettings .write blockedDisk).2.get? ["models", "gone.rs"] = none ∧
      (run detourSettings .write blockedDisk).2.get? ["notes.txt"] = some (.file "kept".toUTF8 2)) ∧
    misnamedDisk.IsTree ∧ ∃ fault, (run detourSettings .write misnamedDisk).1 = .error (.schema fault) ∧
      (run detourSettings .write misnamedDisk).2 = misnamedDisk := by
  have ht : blockedDisk.IsTree := by decide
  have ht' : misnamedDisk.IsTree := by decide
  have hout : ¬ detourSettings.Manages blockedDisk ["notes.txt"] :=
    Settings.not_manages_of_dropLast fun t => by cases t <;> decide
  have hkept : blockedDisk.get? ["notes.txt"] = some (.file "kept".toUTF8 2) := by decide
  refine ⟨⟨ht, hout, by decide +kernel, by decide +kernel, ?_⟩, ht', ?_⟩
  · exact ((run_failure detourSettings .write ht).2 _ hout _ _).mpr hkept
  · have hfault : ∃ fault, (run detourSettings .write misnamedDisk).1 = .error (.schema fault) :=
      ⟨⟨⟨"schemas/Order.yml"⟩, "name", .fileName "Order.yml" "Point" "yml"⟩, by decide +kernel⟩
    obtain ⟨fault, hfault⟩ := hfault
    refine ⟨fault, hfault, (run_failure detourSettings .write ht').1 _ hfault fun p kind he => ?_⟩
    cases he

end SchemaGen
