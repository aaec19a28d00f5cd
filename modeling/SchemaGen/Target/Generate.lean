import SchemaGen.Target.ApiSchema.Schema
import SchemaGen.Target.Infra.Api
import SchemaGen.Target.HostModel.Modules
import SchemaGen.Target.ClientModel.Modules

/-!
# All targets

Each target renders its files from the catalog, and must render exactly those that the catalog calls
for. All targets of a run share one registry.

Results:
1. `render_eq_ok`: a target that renders yields the files that are expected.
-/

namespace SchemaGen

namespace Target

/-- The files that a catalog calls for, in name order. -/
def expectedFiles (c : Catalog) : Target → List String
  | .rust => sortedNames (HostModel.expectedFiles c)
  | .typescript => sortedNames (ClientModel.expectedFiles c)
  | .graphql => sortedNames ApiSchema.expectedFiles
  | .infra => sortedNames Infra.expectedFiles

/-- The files that a target renders, unchecked. -/
def generate (o : Options) (c : Catalog) : Target → Emit Files
  | .rust => HostModel.generate o c
  | .typescript => ClientModel.generate o c
  | .graphql => ApiSchema.generate o c
  | .infra => Infra.generate o c

/-- The files, if they are those that are expected. -/
def checkFiles (c : Catalog) (t : Target) (files : Files) : Except RenderFault Files :=
  let expected := t.expectedFiles c
  if files.names = expected then .ok files
  else .error (.otherFiles t (expected.filter fun n => !files.names.contains n)
    (files.names.filter fun n => !expected.contains n))

/-- The files of a target. -/
def render (o : Options) (c : Catalog) (t : Target) : Emit Files := do
  let files ← t.generate o c
  Emit.ofExcept (checkFiles c t files)

end Target

theorem Target.checkFiles_eq_ok_iff (c : Catalog) (t : Target) (files rendered : Files) :
    Target.checkFiles c t files = .ok rendered ↔ files = rendered ∧ files.names = t.expectedFiles c := by
  unfold Target.checkFiles
  dsimp only
  split
  · rename_i h
    simp [h]
  · rename_i h
    simp [h]

theorem Target.render_eq_ok {o : Options} {c : Catalog} {t : Target} {r r' : Registry} {files : Files}
    (h : Target.render o c t r = (.ok files, r')) : files.names = t.expectedFiles c := by
  simp only [Target.render, bind, Emit.bind] at h
  split at h
  · simp only [Emit.ofExcept, Prod.mk.injEq, Target.checkFiles_eq_ok_iff] at h
    obtain ⟨⟨rfl, hn⟩, _⟩ := h
    exact hn
  · simp at h

end SchemaGen
