import SchemaGen.Proofs.Target.StoredKeys
import SchemaGen.Proofs.Target.TypeNames

/-!
# What renders

From a registry that is fresh for it, a target renders the files that a sound catalog calls for. For the
client models and the infrastructure that is so without further ado. The host models check that the values
of every enum have variants, and that their files are modules of different names; the API schema checks
that no enum has a reserved value. No other check of the rendering ever fails, and since each target leaves
the marks of the others alone, a run renders exactly when these checks pass.

Results:
1. `Modelled.free`: the types of entities leave the names of enums free.
2. `ClientModel.generate_made`, `Infra.generate_ends`: the files of the targets that render in any case.
3. `HostModel.generate_made`, `ApiSchema.generate_endsIf`: the files of the two others, and their checks.
4. `verdict_renderAll`: whether a run renders.
-/

namespace SchemaGen

open Emission Registry

variable {c : Catalog} {o : Options} {r r' : Registry} {t : Target} {files : Files}

/-! ## Files of types and enums -/

/-- Names of enums are not those of types, so that they are still free when all types were rendered. -/
theorem Emission.Modelled.free {name : Entity → String} {models : List (String × String)} (hc : c.IsSound)
    (h : Modelled t name c.entityList r models r') (hr : r.IsFresh t) {enum : EnumType}
    (he : enum ∈ c.enumList) : r'.hasType t enum.name = false := by
  rw [Bool.eq_false_iff]
  intro hm
  rcases h.types _ hm with hm | ⟨e, hmem, hn⟩
  · rw [hr.types] at hm
    cases hm
  · have hnone := hc.enum?_eq_none (hc.entity?_of_mem hmem) hn
    obtain ⟨n, hn⟩ := hc.enums.mem_values_iff.mp he
    rw [hc.enum_name n enum hn, show c.enum? n = some enum from hn] at hnone
    cases hnone

theorem nodup_names_enumList (hc : c.IsSound) : (c.enumList.map EnumType.name).Nodup := by
  rw [ApiSchema.names_enumList hc]
  exact hc.enums.nodup_names

/-- Files of several kinds, each named for what it is of, and a last file have different names if what they end
with tells the kinds apart. -/
theorem nodup_markedFiles (kinds : List (String × List String)) (ext last : String)
    (hnames : ∀ kind ∈ kinds, kind.2.Nodup)
    (hends : ((kinds.map fun kind => kind.1 ++ ext) ++ [last]).Pairwise fun a b =>
      ¬ a.toList <:+ b.toList ∧ ¬ b.toList <:+ a.toList) :
    ((kinds.flatMap fun kind => kind.2.map fun stem => stem ++ kind.1 ++ ext) ++ [last]).Nodup := by
  induction kinds with
  | nil => exact List.nodup_singleton last
  | cons kind rest ih =>
    obtain ⟨hkind, hrest⟩ := List.forall_mem_cons.mp hnames
    obtain ⟨hapart, hends⟩ := List.pairwise_cons.mp hends
    rw [List.flatMap_cons, List.append_assoc, List.nodup_append]
    refine ⟨Naming.nodup_files (by rwa [List.map_id']) _ _, ih hrest hends, fun n hn m hm => ?_⟩
    obtain ⟨stem, -, rfl⟩ := List.mem_map.mp hn
    -- what a later file ends with stands among the ends that are told from this one
    obtain ⟨other, mark, hmark, rfl⟩ : ∃ other, ∃ mark ∈ (rest.map fun kind => kind.1 ++ ext) ++ [last],
        m = other ++ mark := by
      rcases List.mem_append.mp hm with hm | hm
      · obtain ⟨kind', hkind', hm⟩ := List.mem_flatMap.mp hm
        obtain ⟨stem', -, rfl⟩ := List.mem_map.mp hm
        exact ⟨stem', _, List.mem_append_left _ (List.mem_map_of_mem hkind'), String.append_assoc ..⟩
      · exact ⟨"", last, List.mem_append_right _ (List.mem_singleton.mpr rfl), by simpa using hm⟩
    obtain ⟨h, h'⟩ := hapart mark hmark
    rw [String.append_assoc]
    exact Naming.append_ne_of_suffix h h'

/-- Files that were put together by names that differ are found by these. -/
theorem get?_iff_of_names {pairs : List (String × String)} {names : List String}
    (hfiles : files = NameMap.ofList pairs) (hnames : pairs.map Prod.fst = names) (h : names.Nodup)
    {name text : String} : files.get? name = some text ↔ (name, text) ∈ pairs := by
  rw [hfiles]
  exact NameMap.get?_ofList (hnames ▸ h) name text

section

variable {α : Type} {x : EnumType → Except RenderFault α} {f : EnumType → α → String × String}

theorem names_mapM {name : EnumType → String} (hname : ∀ e a, (f e a).1 = name e) {enums : List EnumType}
    {files : List (String × String)} (h : enums.mapM (fun e => (x e).map (f e)) = .ok files) :
    files.map Prod.fst = enums.map name := by
  induction enums generalizing files with
  | nil =>
    cases h
    rfl
  | cons e rest ih =>
    rw [List.mapM_cons] at h
    obtain ⟨file, hfile, h⟩ := bind_eq_ok.mp h
    obtain ⟨more, hmore, h⟩ := bind_eq_ok.mp h
    cases h
    obtain ⟨a, -, rfl⟩ := map_eq_ok.mp hfile
    rw [List.map_cons, List.map_cons, ih hmore, hname]

/-- The files of the enums, one for each, if they can be made. -/
theorem enumFiles_endsIf (hc : c.IsSound) (hf : ∀ e ∈ c.enumList, r.hasType t e.name = false) :
    (Emit.collect (fun e => do
      if ← Emit.mark t e.name then return [f e (← Emit.ofExcept (x e))] else return []) c.enumList).EndsIf r
      (c.enumList.forM fun e => verdict (x e)) fun files _ =>
        c.enumList.mapM (fun e => (x e).map (f e)) = .ok files := by
  have hrun := Emit.fst_collect_ifFree (f := f) (x := x) c.enumList (nodup_names_enumList hc) hf
  constructor
  · rw [hrun, verdict_mapM]
    simp only [verdict_map]
  · intro files r' h
    rw [h] at hrun
    exact hrun.symm

end

/-! ## Host models -/

namespace HostModel

/-- The files that the module file declares, in order. -/
def moduleFiles (c : Catalog) : List String :=
  sortedNames ((c.entityList.map fun e => Naming.modelFile e.name "rs") ++
    c.enumList.map fun e => Naming.enumFile e.name "rs")

/-- The files of the enums. -/
def enumFiles (docs : Bool) (c : Catalog) : Except RenderFault (List (String × String)) :=
  c.enumList.mapM fun e => (HostModel.enum docs e).map fun enum =>
    (Naming.enumFile e.name "rs", enumText enum)

/-- What the host models check: the enums have variants, and the files are modules of different names. -/
def check (docs : Bool) (c : Catalog) : Except RenderFault Unit := do
  c.enumList.forM fun e => verdict (HostModel.enum docs e)
  verdict (moduleNames [] (moduleFiles c))

theorem nodup_expectedFiles (hc : c.IsSound) : (HostModel.expectedFiles c).Nodup := by
  have hfiles := nodup_markedFiles
    [(".model.", c.entityList.map Entity.name), (".enum.", c.enumList.map EnumType.name)] "rs" indexFile
    (by simp [nodup_names_entityList hc, nodup_names_enumList hc])
    (show List.Pairwise _ [".model.rs", ".enum.rs", "mod.rs"] by decide)
  simpa [expectedFiles, Naming.modelFile, Naming.enumFile, Function.comp_def] using hfiles

/-- The files of the host models, made from a registry: those of the entities, those of the enums, and the
one that declares all of them as modules. -/
structure Made (o : Options) (c : Catalog) (r : Registry) (models enums modules : List (String × String))
    (files : Files) : Prop where
  collected : (Emit.collect (modelFile o c) c.entityList r).1 = .ok models
  worked : enumFiles o.docs c = .ok enums
  declared : moduleNames [] (moduleFiles c) = .ok modules
  names : (models ++ enums ++ [(indexFile, indexText modules)]).map Prod.fst = HostModel.expectedFiles c
  eq : files = NameMap.ofList (models ++ enums ++ [(indexFile, indexText modules)])

theorem Made.get?_iff {models enums modules : List (String × String)} (hc : c.IsSound)
    (h : Made o c r models enums modules files) {name text : String} : files.get? name = some text ↔
      (name, text) ∈ models ++ enums ++ [(indexFile, indexText modules)] :=
  get?_iff_of_names h.eq h.names (nodup_expectedFiles hc)

theorem generate_made (hc : c.IsSound) (hr : r.IsFresh .rust) :
    (HostModel.generate o c).EndsIf r (check o.docs c) fun files _ =>
      ∃ models enums modules, Made o c r models enums modules files := by
  have hmodels : (Emit.collect (modelFile o c) c.entityList).Ends r
      (Modelled .rust (fun e => Naming.modelFile e.name "rs") c.entityList r) :=
    modelArtifacts_end hc (f := fun e ds => (Naming.modelFile e.name "rs",
      modelText e.name (imports c (Declaration.types ds)) ((Declaration.types ds).map (struct o.docs))))
      (fun _ _ => rfl) c.entityList (fun _ => hc.entity?_of_mem) r
  refine hmodels.endsIf.ran.bind fun models r₁ ⟨hran, hmodelled⟩ => ?_
  have henums : (Emit.collect (enumFile o) c.enumList).EndsIf r₁
      (c.enumList.forM fun e => verdict (HostModel.enum o.docs e)) fun files _ =>
        enumFiles o.docs c = .ok files :=
    enumFiles_endsIf (f := fun e enum => (Naming.enumFile e.name "rs", enumText enum))
      hc fun _ => hmodelled.free hc hr
  refine henums.bind fun enums r₂ hmade => ?_
  have hnames : enums.map Prod.fst = c.enumList.map fun e => Naming.enumFile e.name "rs" :=
    names_mapM (f := fun e enum => (Naming.enumFile e.name "rs", enumText enum)) (fun _ _ => rfl) hmade
  -- the last file declares all others, so that their names decide whether it can be made
  have hdeclared : (NameMap.ofList (models ++ enums)).names = moduleFiles c := by
    rw [NameMap.names_ofList, List.map_append, hmodelled.names, hnames]
    rfl
  dsimp only
  rw [hdeclared]
  refine (Emit.endsIf_ofExcept _).bind_pure fun modules _ ⟨hmodules, _⟩ => ?_
  refine ⟨models, enums, modules, by rw [hran], hmade, hmodules, ?_, NameMap.insert_ofList _ _ _⟩
  rw [List.map_append, List.map_append, hmodelled.names, hnames]
  rfl

/-- The files of the host models, among them the one of each entity as it was made. -/
theorem generate_endsIf (hc : c.IsSound) (hr : r.IsFresh .rust) :
    (HostModel.generate o c).EndsIf r (check o.docs c) fun files _ =>
      files.names = Target.expectedFiles c .rust ∧
        ∃ models, (Emit.collect (modelFile o c) c.entityList r).1 = .ok models ∧
          ∀ name text, (name, text) ∈ models → files.get? name = some text := by
  refine (generate_made hc hr).mono fun files _ ⟨models, enums, modules, hmade⟩ => ?_
  refine ⟨?_, models, hmade.collected, fun name text hp => ?_⟩
  · rw [hmade.eq, NameMap.names_ofList, hmade.names]
    rfl
  · exact (hmade.get?_iff hc).mpr (List.mem_append_left _ (List.mem_append_left _ hp))

end HostModel

/-! ## Client models -/

namespace Registry

/-- The marked types are the same in both registries. -/
def SameTypes (r r' : Registry) : Prop := r'.types = r.types

instance : IsPreorder Registry SameTypes where
  refl _ := rfl
  trans _ _ _ h₁ h₂ := Eq.trans h₂ h₁

end Registry

namespace ClientModel

theorem keeps_operationsFile (c : Catalog) (table : Table) :
    Emit.Keeps SameTypes (operationsFile c table) := by
  have hoperations : Emit.Keeps SameTypes (Emit.fragment c .typescript (.table table) .operations) := by
    intro r
    obtain ⟨ds, r', hrun, hstep⟩ := operations_ends c .typescript (.table table) r
    show SameTypes r (single c .typescript (.table table) .operations r).2
    rw [hrun]
    exact hstep.types
  exact hoperations.bind fun _ => Emit.keeps_pure _

theorem nodup_expectedFiles (hc : c.IsSound) : (ClientModel.expectedFiles c).Nodup := by
  have hfiles := nodup_markedFiles
    [(".model.", c.entityList.map Entity.name), (".graphql.", c.tables.map fun table => table.name),
      (".enum.", c.enumList.map EnumType.name)] "ts" indexFile
    (by simp [nodup_names_entityList hc, nodup_names_tables hc, nodup_names_enumList hc])
    (show List.Pairwise _ [".model.ts", ".graphql.ts", ".enum.ts", "index.ts"] by decide)
  simpa [expectedFiles, Naming.modelFile, Naming.operationsFile, Naming.enumFile, Function.comp_def] using hfiles

/-- The files of the operations that the tables keep. -/
def keptFiles (c : Catalog) : List (String × String) :=
  c.tables.map fun table => (Naming.operationsFile table.name "ts",
    operationsText table.name (Selection.ofName c table.name) (kept c table))

/-- The files of the enums. -/
def enumFiles (c : Catalog) : List (String × String) :=
  c.enumList.map fun e => (Naming.enumFile e.name "ts", enumText e)

/-- The files of the client models, made from a registry: those of the entities, of the tables' operations
and of the enums, and the one that exports what all of them do. -/
structure Made (o : Options) (c : Catalog) (r : Registry) (models : List (String × String)) (index : String)
    (files : Files) : Prop where
  collected : (Emit.collect (modelFile o c) c.entityList r).1 = .ok models
  exported : index = indexText (NameMap.ofList (models ++ keptFiles c ++ enumFiles c)).names
  names : (models ++ keptFiles c ++ enumFiles c ++ [(indexFile, index)]).map Prod.fst =
    ClientModel.expectedFiles c
  eq : files = NameMap.ofList (models ++ keptFiles c ++ enumFiles c ++ [(indexFile, index)])

theorem Made.get?_iff {models : List (String × String)} {index : String} (hc : c.IsSound)
    (h : Made o c r models index files) {name text : String} : files.get? name = some text ↔
      (name, text) ∈ models ++ keptFiles c ++ enumFiles c ++ [(indexFile, index)] :=
  get?_iff_of_names h.eq h.names (nodup_expectedFiles hc)

theorem generate_made (hc : c.IsSound) (hr : r.IsFresh .typescript) :
    (ClientModel.generate o c).Ends r fun files _ => ∃ models index, Made o c r models index files := by
  obtain ⟨models, r₁, hran, hmodelled⟩ := modelFiles_end hc o r
  refine Emit.Ends.bind (P := fun a r' => a = models ∧ r' = r₁) ⟨models, r₁, hran, rfl, rfl⟩ ?_
  rintro _ _ ⟨rfl, rfl⟩
  have hoperations := operationsFiles_kept hc (hr.seen.congr hmodelled.operations)
  have hkeeps : Emit.Keeps SameTypes (Emit.collect (operationsFile c) c.tables) :=
    Emit.keeps_collect fun table _ => keeps_operationsFile c table
  refine (hkeeps.ends hoperations).bind fun operations r₂ ⟨hfiles, hsame⟩ => ?_
  -- operations mark no type, so that the names of the enums are still free
  have hfree : ∀ e ∈ c.enumList, r₂.hasType .typescript e.name = false := by
    intro e he
    unfold Registry.hasType
    rw [show r₂.types = _ from hsame]
    exact hmodelled.free hc hr he
  have henums : (Emit.collect enumFile c.enumList).Ends r₂ fun files _ => files = enumFiles c := by
    have hmade := enumFiles_endsIf (x := fun e => .ok e)
      (f := fun e _ => (Naming.enumFile e.name "ts", enumText e)) hc hfree
    refine (hmade.ends (forM_eq_ok.mpr fun _ _ => rfl)).mono fun files _ hfiles => ?_
    exact (Except.ok.inj ((List.mapM_pure (m := Except RenderFault)).symm.trans hfiles)).symm
  refine henums.bind fun enums r₃ henums => Emit.ends_pure ?_
  subst hfiles henums
  refine ⟨_, _, congrArg Prod.fst hran, rfl, ?_, NameMap.insert_ofList _ _ _⟩
  rw [List.map_append, List.map_append, List.map_append, hmodelled.names]
  unfold keptFiles enumFiles
  rw [List.map_map, List.map_map]
  rfl

/-- The files of the client models, among them one for the operations of each table. -/
theorem generate_ends (hc : c.IsSound) (hr : r.IsFresh .typescript) :
    (ClientModel.generate o c).Ends r fun files _ => files.names = Target.expectedFiles c .typescript ∧
      ∀ table ∈ c.tables, files.get? (Naming.operationsFile table.name "ts") =
        some (operationsText table.name (Selection.ofName c table.name) (kept c table)) := by
  refine (generate_made hc hr).mono fun files _ ⟨models, index, hmade⟩ => ⟨?_, fun table ht => ?_⟩
  · rw [hmade.eq, NameMap.names_ofList, hmade.names]
    rfl
  · refine (hmade.get?_iff hc).mpr (List.mem_append_left _ (List.mem_append_left _ ?_))
    exact List.mem_append_right _ (List.mem_map_of_mem ht)

end ClientModel

/-! ## Infrastructure -/

namespace Infra

/-- The files of the infrastructure, among them the storage description with the keys of every table and the
description of the API with its resources. -/
theorem generate_stores (hc : c.IsSound) (hr : r.IsFresh .infra) :
    (Infra.generate o c).Ends r fun files _ => ∃ storage description : Json,
      files = NameMap.ofList [(storageFile, storage.document), (apiFile, description.document)] ∧
        (∀ table ∈ c.tables, StoresKeys storage table) ∧
        description.member? "Resources" = some (.object (resources o c)) := by
  have hkeeps : Emit.Keeps SameOperations (storage c) :=
    keeps_storage fun name => sameOperations_markType name
  -- tables are marked as types, so that no operation was seen when the API is described
  refine (hkeeps.ends (storage_ends hc hr)).bind fun storage r₁ ⟨hstored, hsame⟩ => ?_
  refine (api_ends hc (hr.seen.congr hsame)).bind fun description r₂ hresources => ?_
  exact Emit.ends_pure ⟨storage, description, rfl, hstored, hresources⟩

theorem generate_ends (hc : c.IsSound) (hr : r.IsFresh .infra) :
    (Infra.generate o c).Ends r fun files _ => ∃ storage description : Json,
      files = NameMap.ofList [(storageFile, storage.document), (apiFile, description.document)] ∧
        description.member? "Resources" = some (.object (resources o c)) :=
  (generate_stores hc hr).mono fun _ _ ⟨storage, description, hfiles, _, hresources⟩ =>
    ⟨storage, description, hfiles, hresources⟩

end Infra

/-! ## The API schema -/

namespace ApiSchema

/-- What the API schema checks: no enum has a reserved value. -/
def check (c : Catalog) : Except RenderFault Unit := c.enumList.forM fun e => verdict (ApiSchema.enum e)

theorem generate_endsIf (hc : c.IsSound) (hr : r.IsFresh .graphql) :
    (ApiSchema.generate o c).EndsIf r (check c) fun files _ =>
      files.names = Target.expectedFiles c .graphql := by
  have hdefinitions : (definitions o c).EndsIf r (check c) fun _ _ => True := by
    refine (declarations_ends hc hr).endsIf.bind fun ds r₁ ⟨_, _, henums⟩ => ?_
    refine Emit.EndsIf.bind_pure (P := fun _ _ => True) ⟨?_, fun _ _ _ => trivial⟩ fun _ _ _ => trivial
    rw [henums]
    exact verdict_mapM _ _
  exact hdefinitions.bind_pure fun _ _ _ => NameMap.names_ofList _

end ApiSchema

/-! ## Runs -/

/-- The checks of a target that can fail. -/
def Target.check (docs : Bool) (c : Catalog) : Target → Except RenderFault Unit
  | .rust => HostModel.check docs c
  | .graphql => ApiSchema.check c
  | _ => .ok ()

/-- A target renders exactly when it passes its checks. -/
theorem Target.verdict_render (hc : c.IsSound) (t : Target) (hr : r.IsFresh t) :
    verdict (t.render o c r).1 = t.check o.docs c := by
  have hgenerate : (t.generate o c).EndsIf r (t.check o.docs c) fun files _ =>
      files.names = t.expectedFiles c := by
    cases t with
    | rust => exact (HostModel.generate_endsIf hc hr).mono fun _ _ h => h.1
    | typescript => exact ((ClientModel.generate_ends hc hr).mono fun _ _ h => h.1).endsIf
    | graphql => exact ApiSchema.generate_endsIf hc hr
    | infra =>
      refine ((Infra.generate_ends hc hr).mono fun files _ h => ?_).endsIf
      obtain ⟨storage, description, rfl, -⟩ := h
      exact NameMap.names_ofList _
  have hrender : (t.render o c).EndsIf r (t.check o.docs c >>= fun _ => .ok ()) fun _ _ => True := by
    refine hgenerate.bind fun files r' hnames => ?_
    rw [show checkFiles c t files = .ok files from (checkFiles_eq_ok_iff _ _ _ _).mpr ⟨rfl, hnames⟩]
    exact (Emit.ends_pure trivial).endsIf
  refine hrender.1.trans ?_
  cases t.check o.docs c <;> rfl

/-- A target that passes its checks renders. -/
theorem Target.exists_render_of_check (hc : c.IsSound) (hr : r.IsFresh t)
    (h : t.check o.docs c = .ok ()) : ∃ files r', t.render o c r = (.ok files, r') := by
  obtain ⟨files, hfiles⟩ := verdict_eq_ok.mp ((Target.verdict_render hc t hr).trans h)
  exact ⟨files, (t.render o c r).2, Prod.ext hfiles rfl⟩

namespace Run

variable {s : Settings}

/-- Targets whose registries are fresh for them render in order as long as they pass their checks. -/
theorem verdict_renderAll (hc : c.IsSound) {targets : List Target} (hu : targets.Nodup)
    (hr : ∀ t ∈ targets, IsFresh t r) :
    verdict (renderAll s o c targets r) = targets.forM (Target.check o.docs c) := by
  induction targets generalizing r with
  | nil => rfl
  | cons t rest ih =>
    rw [List.nodup_cons] at hu
    show _ = (t.check o.docs c >>= fun _ => rest.forM (Target.check o.docs c))
    rw [← Target.verdict_render hc t (hr t List.mem_cons_self)]
    unfold renderAll
    rcases hrun : t.render o c r with ⟨fault | files, r'⟩
    · rfl
    · have hfresh : ∀ u ∈ rest, IsFresh u r' := by
        intro u hm
        have hsame := Target.keeps_render (o := o) (c := c) (fun he : u = t => hu.1 (he ▸ hm)) r
        rw [hrun] at hsame
        exact (hr u (List.mem_cons_of_mem _ hm)).of_sameMarks hsame
      dsimp only
      rw [verdict_map, ih hu.2 hfresh]
      rfl

/-- A run renders exactly when the host models and the API schema pass their checks. -/
theorem exists_renderAll_iff (hc : c.IsSound) :
    (∃ staged, renderAll s o c Target.all .empty = .ok staged) ↔
      HostModel.check o.docs c = .ok () ∧ ApiSchema.check c = .ok () := by
  rw [← verdict_eq_ok, verdict_renderAll hc (by decide) fun t _ => isFresh_empty t, forM_eq_ok]
  simp only [Target.all, List.forall_mem_cons, Target.check]
  simp

end Run

end SchemaGen
