import SchemaGen.Proofs.Document.Assembled
import SchemaGen.Proofs.Run.Commit

/-!
# What is staged

A run that gets to its commit has loaded a corpus of parsed documents, made a sound catalog of it and
rendered every target. Each target has exactly the files that the catalog calls for, whose names are
proper since they are made from type names; so what is staged can be committed.

Results:
1. `load_eq_ok`: what was loaded was parsed, and every file of it was read.
2. `isName_expectedFiles`: the files that a sound catalog calls for have proper names.
3. `renderAll_eq_ok`: what the targets render.
4. `stage_files`, `separate_of_stage`, `stage_eq_ok`: what is staged.
-/

namespace SchemaGen

/-- The paths of the settings: the inputs, then the managed directories. -/
def Settings.paths (s : Settings) : List Path := s.schemaDir :: s.enumsFile :: s.managedDirs

/-- Every path of the settings is plain. -/
def Settings.IsPlain (s : Settings) : Prop := ∀ p ∈ s.paths, p.isPlain = true

instance (s : Settings) : Decidable s.IsPlain := by unfold Settings.IsPlain; infer_instance

/-- Every path of the settings is direct. -/
def Settings.IsDirect (s : Settings) : Prop := ∀ p ∈ s.paths, p.isDirect = true

instance (s : Settings) : Decidable s.IsDirect := by unfold Settings.IsDirect; infer_instance

/-- The managed directories are in different places, read from the working directory `cwd`. -/
def Settings.IsApart (s : Settings) (cwd : Location) : Prop :=
  s.managedDirs.Pairwise fun p q => Location.resolve cwd p ≠ Location.resolve cwd q

instance (s : Settings) (cwd : Location) : Decidable (s.IsApart cwd) := by
  unfold Settings.IsApart; infer_instance

theorem Target.mem_all (t : Target) : t ∈ Target.all := by cases t <;> decide

namespace Settings

variable {s : Settings}

theorem IsPlain.schemaDir (h : s.IsPlain) : s.schemaDir.isPlain = true := h _ List.mem_cons_self

theorem IsPlain.enumsFile (h : s.IsPlain) : s.enumsFile.isPlain = true :=
  h _ (List.mem_cons_of_mem _ List.mem_cons_self)

theorem IsPlain.outputDir (h : s.IsPlain) (t : Target) : (s.outputDir t).isPlain = true :=
  h _ (List.mem_cons_of_mem _ (List.mem_cons_of_mem _ (List.mem_map_of_mem t.mem_all)))

theorem IsPlain.isDirect (h : s.IsPlain) : s.IsDirect := fun p hp => Path.isDirect_of_isPlain (h p hp)

theorem IsDirect.schemaDir (h : s.IsDirect) : s.schemaDir.isDirect = true := h _ List.mem_cons_self

theorem IsDirect.enumsFile (h : s.IsDirect) : s.enumsFile.isDirect = true :=
  h _ (List.mem_cons_of_mem _ List.mem_cons_self)

theorem IsDirect.outputDir (h : s.IsDirect) (t : Target) : (s.outputDir t).isDirect = true :=
  h _ (List.mem_cons_of_mem _ (List.mem_cons_of_mem _ (List.mem_map_of_mem t.mem_all)))

end Settings

/-- Plain paths that are not the same have different names. -/
theorem Path.same_eq_false_iff {p q : Path} (hp : p.isPlain = true) (hq : q.isPlain = true) :
    p.same q = false ↔ p.names ≠ q.names := by
  unfold same
  rw [components_of_isPlain hp, components_of_isPlain hq, beq_eq_false_iff_ne, ne_eq,
    List.map_inj_right fun _ _ h => by injection h]

/-- Valid plain settings place the managed directories apart. -/
theorem Settings.IsPlain.isApart {s : Settings} (hp : s.IsPlain) (hv : s.validate = .ok ())
    (cwd : Location) : s.IsApart cwd := by
  obtain ⟨-, -, -, -, hapart⟩ := (s.validate_eq_ok_iff).mp hv
  unfold IsApart managedDirs at *
  rw [List.pairwise_map] at hapart ⊢
  refine hapart.imp fun {t u} h he => ?_
  rw [Path.same_eq_false_iff (hp.outputDir t) (hp.outputDir u)] at h
  rw [Path.resolve_of_isPlain (hp.outputDir t), Path.resolve_of_isPlain (hp.outputDir u)] at he
  exact h (List.append_cancel_left he)

/-! ## Loading -/

namespace Loading

variable {d : Disk}

theorem readText_eq_ok {p : Path} {text : String} {m : Int} (h : readText d p = .ok (text, m)) :
    ∃ c, d.read p = .ok (c, m) := by
  unfold readText at h
  split at h
  · next c m' hr =>
    split at h
    · cases h
      exact ⟨c, hr⟩
    · cases h
  · cases h

theorem readDocuments_eq_ok {paths : List Path} {docs : List SchemaDoc} {newest : Option Int}
    (h : readDocuments d paths = .ok (docs, newest)) :
    (∀ doc ∈ docs, ∃ file source, SchemaDoc.parse file source = .ok doc) ∧
      ∀ p ∈ paths, ∃ c m, d.read p = .ok (c, m) := by
  induction paths generalizing docs newest with
  | nil =>
    cases h
    simp
  | cons p rest ih =>
    unfold readDocuments at h
    obtain ⟨⟨text, m⟩, ht, h⟩ := bind_eq_ok.mp h
    obtain ⟨doc, hd, h⟩ := bind_eq_ok.mp h
    obtain ⟨⟨more, newest'⟩, hr, h⟩ := bind_eq_ok.mp h
    cases h
    obtain ⟨hdocs, hpaths⟩ := ih hr
    obtain ⟨c, hc⟩ := readText_eq_ok ht
    refine ⟨fun doc' hm => ?_, fun q hq => ?_⟩
    · rcases List.mem_cons.mp hm with rfl | hm
      · exact ⟨p, text, mapError_eq_ok.mp hd⟩
      · exact hdocs doc' hm
    · rcases List.mem_cons.mp hq with rfl | hq
      · exact ⟨c, m, hc⟩
      · exact hpaths q hq

theorem readEnums_eq_ok {file : Path} {enums : List EnumDoc} {changed : Option Int}
    (h : readEnums d file = .ok (enums, changed)) :
    enums = [] ∨ ∃ file source, EnumDoc.parseAll file source = .ok enums := by
  unfold readEnums at h
  split at h
  · obtain ⟨⟨text, m⟩, -, h⟩ := bind_eq_ok.mp h
    obtain ⟨enums', he, h⟩ := bind_eq_ok.mp h
    cases h
    exact .inr ⟨file, text, mapError_eq_ok.mp he⟩
  · cases h
    exact .inl rfl

end Loading

/-- What was loaded was parsed. -/
theorem Disk.load_eq_ok {d : Disk} {dir enums : Path} {loaded : Loaded}
    (h : d.load dir enums = .ok loaded) : loaded.corpus.IsParsed := by
  unfold Disk.load at h
  obtain ⟨paths, -, h⟩ := bind_eq_ok.mp h
  obtain ⟨⟨docs, newest⟩, hd, h⟩ := bind_eq_ok.mp h
  obtain ⟨⟨entries, changed⟩, he, h⟩ := bind_eq_ok.mp h
  cases h
  exact ⟨(Loading.readDocuments_eq_ok hd).1, Loading.readEnums_eq_ok he⟩

/-! ## File names -/

theorem isName_append {name suffix : String} (hn : isTypeName name.toList = true)
    (hs : '/' ∉ suffix.toList) : IsName (name ++ suffix) := by
  cases hc : name.toList with
  | nil => simp [hc, isTypeName] at hn
  | cons c rest =>
    rw [hc] at hn
    unfold isTypeName at hn
    obtain ⟨hupper, hrest⟩ := Bool.and_eq_true_iff.mp hn
    have hlist : (name ++ suffix).toList = c :: (rest ++ suffix.toList) := by
      rw [String.toList_append, hc, List.cons_append]
    have hdot : c ≠ '.' := by
      rintro rfl
      exact absurd hupper (by decide)
    refine ⟨?_, ?_, ?_, ?_⟩
    · intro he
      rw [he] at hlist
      cases hlist
    · intro he
      rw [he] at hlist
      exact hdot (List.cons.inj hlist).1.symm
    · intro he
      rw [he] at hlist
      exact hdot (List.cons.inj hlist).1.symm
    · rw [hlist, List.mem_cons, List.mem_append, not_or, not_or]
      refine ⟨?_, fun hm => ?_, hs⟩
      · rintro rfl
        exact absurd hupper (by decide)
      · have := List.all_eq_true.mp hrest _ hm
        exact absurd this (by decide)

/-- A file name made of a type name, a mark and an extension. -/
theorem isName_append_append {name mark ext : String} (hn : isTypeName name.toList = true)
    (hs : '/' ∉ (mark ++ ext).toList) : IsName (name ++ mark ++ ext) := by
  rw [String.append_assoc]
  exact isName_append hn hs

/-- The files that a sound catalog calls for have proper names. -/
theorem Target.isName_expectedFiles {c : Catalog} (hc : c.IsSound) (t : Target) :
    ∀ n ∈ t.expectedFiles c, IsName n := by
  have htable : ∀ u ∈ c.tables, isTypeName u.name.toList = true := fun u hu =>
    hc.entity_typeName u.name _ (hc.entity?_of_mem_tables hu)
  intro n hn
  cases t with
  | rust =>
    simp only [Target.expectedFiles, mem_sortedNames, HostModel.expectedFiles, List.mem_append,
      List.mem_map, List.mem_singleton] at hn
    rcases hn with (⟨e, he, rfl⟩ | ⟨e, he, rfl⟩) | rfl
    · exact isName_append_append (hc.isTypeName_entity he) (by decide)
    · exact isName_append_append (hc.isTypeName_enum he) (by decide)
    · decide
  | typescript =>
    simp only [Target.expectedFiles, mem_sortedNames, ClientModel.expectedFiles, List.mem_append,
      List.mem_map, List.mem_singleton] at hn
    rcases hn with ((⟨e, he, rfl⟩ | ⟨u, hu, rfl⟩) | ⟨e, he, rfl⟩) | rfl
    · exact isName_append_append (hc.isTypeName_entity he) (by decide)
    · exact isName_append_append (htable u hu) (by decide)
    · exact isName_append_append (hc.isTypeName_enum he) (by decide)
    · decide
  | graphql =>
    simp only [Target.expectedFiles, mem_sortedNames, ApiSchema.expectedFiles, List.mem_singleton] at hn
    subst hn
    decide
  | infra =>
    simp only [Target.expectedFiles, mem_sortedNames, Infra.expectedFiles, List.mem_cons,
      List.not_mem_nil, or_false] at hn
    rcases hn with rfl | rfl <;> decide

namespace Run

/-! ## Rendering -/

variable {s : Settings} {o : Options} {c : Catalog}

/-- Targets render their files one after another, each for its own directory. What a registry is for
targets that are still to come, it stays if rendering another one keeps it so. -/
theorem renderAll_eq_ok {P : Target → Registry → Prop}
    (hkeep : ∀ t u r, u ≠ t → P u r → P u (t.render o c r).2) {targets : List Target} {r : Registry}
    {staged : List StagedTarget} (hu : targets.Nodup) (hp : ∀ t ∈ targets, P t r)
    (h : renderAll s o c targets r = .ok staged) :
    ∃ files : Target → Files, staged = targets.map (fun t => ⟨s.outputDir t, files t⟩) ∧
      ∀ t ∈ targets, ∃ r r', P t r ∧ t.render o c r = (.ok (files t), r') := by
  induction targets generalizing r staged with
  | nil =>
    cases h
    exact ⟨fun _ => .empty, rfl, by simp⟩
  | cons t rest ih =>
    rw [List.nodup_cons] at hu
    unfold renderAll at h
    split at h
    · next own r' hr =>
      obtain ⟨more, hm, rfl⟩ := map_eq_ok.mp h
      have hne : ∀ u ∈ rest, u ≠ t := fun u hu' he => hu.1 (he ▸ hu')
      have hrest : ∀ u ∈ rest, P u r' := by
        intro u hu'
        have hkept := hkeep t u r (hne u hu') (hp u (List.mem_cons_of_mem _ hu'))
        rw [hr] at hkept
        exact hkept
      obtain ⟨files, rfl, hf⟩ := ih hu.2 hrest hm
      refine ⟨fun u => if u = t then own else files u, ?_, fun u hu' => ?_⟩
      · rw [List.map_cons]
        dsimp only
        rw [if_pos rfl]
        congr 1
        refine List.map_congr_left fun u hu' => ?_
        rw [if_neg (hne u hu')]
      · dsimp only
        rcases List.mem_cons.mp hu' with rfl | hu'
        · rw [if_pos rfl]
          exact ⟨r, r', hp _ List.mem_cons_self, hr⟩
        · rw [if_neg (hne u hu')]
          exact hf u hu'
    · cases h

theorem mem_names_of_mem_pairs {files : Files} {f : String × String} (h : f ∈ files.pairs) :
    f.1 ∈ files.names := List.mem_map_of_mem h

variable {d : Disk} {staged : Staged}

/-- What is staged are the targets with the files they render, which have proper names. -/
theorem stage_files (h : stage s d = .ok staged) : s.validate = .ok () ∧
    ∃ files : Target → Files, staged.targets = Target.all.map (fun t => ⟨s.outputDir t, files t⟩) ∧
      ∀ t, (files t).names = t.expectedFiles staged.catalog ∧ ∀ f ∈ (files t).pairs, IsName f.1 := by
  unfold stage at h
  obtain ⟨_, hv, h⟩ := bind_eq_ok.mp h
  obtain ⟨loaded, hl, h⟩ := bind_eq_ok.mp h
  obtain ⟨c, hc, h⟩ := bind_eq_ok.mp h
  obtain ⟨time, -, h⟩ := bind_eq_ok.mp h
  obtain ⟨targets, ht, h⟩ := bind_eq_ok.mp h
  cases h
  rw [mapError_eq_ok] at hv hc ht
  have hsound := Corpus.isSound_of_catalog (Disk.load_eq_ok hl) hc
  obtain ⟨files, rfl, hf⟩ := renderAll_eq_ok (P := fun _ _ => True) (fun _ _ _ _ h => h) (by decide)
    (fun _ _ => trivial) ht
  refine ⟨hv, files, rfl, fun t => ?_⟩
  obtain ⟨r, r', -, hr⟩ := hf t t.mem_all
  have hnames : (files t).names = t.expectedFiles c := Target.render_eq_ok hr
  refine ⟨hnames, fun f hm => t.isName_expectedFiles hsound f.1 ?_⟩
  rw [← hnames]
  exact mem_names_of_mem_pairs hm

theorem isName_of_stage (h : stage s d = .ok staged) : ∀ u ∈ staged.targets, ∀ f ∈ u.files.pairs, IsName f.1 := by
  obtain ⟨-, files, hts, hfiles⟩ := stage_files h
  intro u hu
  rw [hts] at hu
  obtain ⟨t, -, rfl⟩ := List.mem_map.mp hu
  exact (hfiles t).2

/-- Settings that place the managed directories apart give each target a directory of its own. -/
theorem separate_of_stage (hp : s.IsDirect) (ha : s.IsApart d.cwd) (h : stage s d = .ok staged) :
    Separate d.cwd staged.targets := by
  have hnamed := isName_of_stage h
  obtain ⟨hv, files, hts, hfiles⟩ := stage_files h
  obtain ⟨-, -, -, hdirs, -⟩ := (s.validate_eq_ok_iff).mp hv
  refine ⟨?_, ?_, hnamed, ?_, ?_⟩
  all_goals rw [hts]
  · intro u hu
    obtain ⟨t, -, rfl⟩ := List.mem_map.mp hu
    exact hp.outputDir t
  · intro u hu
    obtain ⟨t, -, rfl⟩ := List.mem_map.mp hu
    exact (hdirs _ (List.mem_map_of_mem t.mem_all)).1
  · intro u hu
    obtain ⟨t, -, rfl⟩ := List.mem_map.mp hu
    show (files t).names.Nodup
    rw [(hfiles t).1]
    cases t <;> exact nodup_sortedNames _
  · unfold Settings.IsApart Settings.managedDirs at ha
    rw [List.pairwise_map] at ha ⊢
    exact ha

/-- What is staged with plain settings. -/
theorem stage_eq_ok (hp : s.IsPlain) (h : stage s d = .ok staged) :
    s.validate = .ok () ∧ Separate d.cwd staged.targets ∧
      ∃ files : Target → Files, staged.targets = Target.all.map (fun t => ⟨s.outputDir t, files t⟩) ∧
        ∀ t, (files t).names = t.expectedFiles staged.catalog := by
  obtain ⟨hv, files, hts, hfiles⟩ := stage_files h
  exact ⟨hv, separate_of_stage hp.isDirect (hp.isApart hv d.cwd) h, files, hts, fun t => (hfiles t).1⟩

end Run

end SchemaGen
