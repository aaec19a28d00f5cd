import Mathlib.Data.List.Nodup
import SchemaGen.Proofs.Run.Inputs

/-!
# The outputs of a run

After a run that succeeds the files directly inside each managed directory are the files that the
target renders, whatever the directories held before. Everything else is as it was, and the summary
says what was removed and written.

Results:
1. `nodup_children_of_separate`: no file is reported twice.
2. `run_write_exact`: what a successful run leaves and reports.
-/

namespace SchemaGen.Run

/-- What a run leaves and reports, compared with the disk before it, when `files` are the files that
the targets render. -/
structure Exact (s : Settings) (d d' : Disk) (files : Target → Files) (sum : Summary) : Prop where
  managed : ∀ t n c, (∃ m, d'.get? (d.locate (s.outputDir t) ++ [n]) = some (.file c m)) ↔
    ∃ text, (n, text) ∈ (files t).pairs ∧ c = text.toUTF8
  others : ∀ loc, ¬ s.Manages d loc →
    ∀ c m, d'.get? loc = some (.file c m) ↔ d.get? loc = some (.file c m)
  inputs : ∀ p c m, s.Reads d p → d.read p = .ok (c, m) → d'.read p = .ok (c, m)
  removed_nodup : sum.removed.Nodup
  mem_removed : ∀ q, q ∈ sum.removed ↔ ∃ t n, q = (s.outputDir t).child n ∧
    (∃ c m, d.get? (d.locate (s.outputDir t) ++ [n]) = some (.file c m)) ∧ n ∉ (files t).names
  written_nodup : sum.written.Nodup
  mem_written : ∀ q, q ∈ sum.written ↔ ∃ t n text, q = (s.outputDir t).child n ∧
    (n, text) ∈ (files t).pairs ∧
    ¬ ∃ m, d.get? (d.locate (s.outputDir t) ++ [n]) = some (.file text.toUTF8 m)
  unchanged : sum.written.length + sum.unchanged = (Target.all.map fun t => (files t).size).sum

variable {s : Settings} {d d' : Disk} {ts : List StagedTarget}

/-! ## Reports -/

/-- Different names in directories of different targets are different paths. -/
theorem nodup_children_of_separate {cwd : Location} (hs : Separate cwd ts) {names : StagedTarget → List String}
    (hn : ∀ t ∈ ts, ∀ n ∈ names t, IsName n) (hu : ∀ t ∈ ts, (names t).Nodup) :
    (ts.flatMap fun t => (names t).map t.dir.child).Nodup := by
  rw [List.nodup_flatMap]
  constructor
  · intro t ht
    refine (hu t ht).map_on fun m hm n hn' he => ?_
    exact (Path.eq_of_child_eq cwd (hn t ht m hm) (hn t ht n hn') he).2
  · refine hs.apart.imp_of_mem fun {t u} ht hu hne q hq hq' => ?_
    obtain ⟨m, hm, rfl⟩ := List.mem_map.mp hq
    obtain ⟨n, hn', he⟩ := List.mem_map.mp hq'
    exact hne (Path.eq_of_child_eq cwd (hn u hu n hn') (hn t ht m hm) he).1.symm

theorem nodup_staleFiles (ht : d.IsTree) (hs : Separate d.cwd ts) : (staleFiles d ts).Nodup := by
  have heq : staleFiles d ts =
      ts.flatMap fun t => (d.staleNames (d.locate t.dir) t.files.names).map t.dir.child :=
    List.flatMap_congr fun t hm => Disk.stale_eq ht (hs.direct t hm) (hs.filled t hm) _
  rw [heq]
  refine nodup_children_of_separate hs (fun t _ n hn => ?_) fun t _ => Disk.nodup_staleNames _ _ _
  obtain ⟨⟨c, m, hf⟩, -⟩ := (Disk.mem_staleNames_iff ht).mp hn
  exact ht.isName_last hf

theorem mem_staleFiles_iff (ht : d.IsTree) (hs : Separate d.cwd ts) {q : Path} :
    q ∈ staleFiles d ts ↔ ∃ t ∈ ts, ∃ n, q = t.dir.child n ∧
      (∃ c m, d.get? (d.locate t.dir ++ [n]) = some (.file c m)) ∧ n ∉ t.files.names := by
  unfold staleFiles
  rw [List.mem_flatMap]
  constructor
  · rintro ⟨t, hm, hq⟩
    exact ⟨t, hm, (Disk.mem_stale_iff ht (hs.direct t hm) (hs.filled t hm)).mp hq⟩
  · rintro ⟨t, hm, hq⟩
    exact ⟨t, hm, (Disk.mem_stale_iff ht (hs.direct t hm) (hs.filled t hm)).mpr hq⟩

namespace WrittenAll

variable {report : WriteReport}

theorem nodup_written (h : WrittenAll ts d d' report) (hs : Separate d.cwd ts) : report.written.Nodup := by
  have heq : report.written = ts.flatMap fun t =>
      ((t.files.pairs.filter fun f => !d.holds (d.locate t.dir ++ [f.1]) f.2).map Prod.fst).map
        t.dir.child := by
    rw [h.written]
    exact List.flatMap_congr fun t _ => by rw [List.map_map]; rfl
  rw [heq]
  refine nodup_children_of_separate hs (fun t ht n hn => ?_) fun t ht => ?_
  · obtain ⟨f, hf, rfl⟩ := List.mem_map.mp hn
    exact hs.named t ht f (List.mem_filter.mp hf).1
  · exact (hs.once t ht).sublist (List.filter_sublist.map _)

theorem mem_written_iff (h : WrittenAll ts d d' report) {q : Path} :
    q ∈ report.written ↔ ∃ t ∈ ts, ∃ n text, q = t.dir.child n ∧ (n, text) ∈ t.files.pairs ∧
      ¬ ∃ m, d.get? (d.locate t.dir ++ [n]) = some (.file text.toUTF8 m) := by
  have hnot : ∀ loc text, (!d.holds loc text) = true ↔
      ¬ ∃ m, d.get? loc = some (.file text.toUTF8 m) := by
    intro loc text
    rw [Bool.not_eq_true', Bool.eq_false_iff, ne_eq, Disk.holds_iff]
  rw [h.written, List.mem_flatMap]
  constructor
  · rintro ⟨t, ht, hq⟩
    obtain ⟨f, hf, rfl⟩ := List.mem_map.mp hq
    obtain ⟨hm, hh⟩ := List.mem_filter.mp hf
    exact ⟨t, ht, f.1, f.2, rfl, hm, (hnot _ _).mp hh⟩
  · rintro ⟨t, ht, n, text, rfl, hm, hh⟩
    exact ⟨t, ht, List.mem_map.mpr ⟨(n, text), List.mem_filter.mpr ⟨hm, (hnot _ _).mpr hh⟩, rfl⟩⟩

/-- Every file is either written or found unchanged. -/
theorem length_written (h : WrittenAll ts d d' report) :
    report.written.length + report.unchanged = (ts.map fun t => t.files.size).sum := by
  rw [h.written, h.unchanged]
  clear h
  induction ts with
  | nil => rfl
  | cons t rest ih =>
    have hsplit := List.length_eq_countP_add_countP (l := t.files.pairs)
      fun f => d.holds (d.locate t.dir ++ [f.1]) f.2
    simp only [List.flatMap_cons, List.length_append, List.map_cons, List.sum_cons, List.length_map,
      ← List.countP_eq_length_filter, NameMap.size] at ih hsplit ⊢
    have hnot : (t.files.pairs.countP fun f => !d.holds (d.locate t.dir ++ [f.1]) f.2) =
        t.files.pairs.countP fun f => decide ¬ d.holds (d.locate t.dir ++ [f.1]) f.2 = true :=
      List.countP_congr fun f _ => by simp
    omega

end WrittenAll

/-! ## Directories -/

/-- After a successful commit the files directly inside the directory of a target are its own. -/
theorem commit_managed {staged : Staged} {sum : Summary} (ht : d.IsTree) (hs : Separate d.cwd staged.targets)
    (h : commit staged d = (.ok sum, d')) {t : StagedTarget} (hm : t ∈ staged.targets) (n : String)
    (c : ByteArray) : (∃ m, d'.get? (d.locate t.dir ++ [n]) = some (.file c m)) ↔
      ∃ text, (n, text) ∈ t.files.pairs ∧ c = text.toUTF8 := by
  obtain ⟨report, -, hw⟩ := commit_eq_ok ht hs h
  obtain ⟨htouch, hgone⟩ := commit_spec ht hs
  rw [h] at htouch hgone
  constructor
  · rintro ⟨m, hf⟩
    by_cases hn : n ∈ t.files.names
    · obtain ⟨⟨k, text⟩, hp, rfl⟩ := List.mem_map.mp hn
      obtain ⟨m', hg⟩ := Disk.holds_iff.mp (hw.held t hm _ hp)
      rw [hf] at hg
      cases hg
      exact ⟨text, hp, rfl⟩
    · -- a file of another name is stale if it was there before, and nothing has made it since
      exfalso
      have hout : ¬ Outdated d staged.targets (d.locate t.dir ++ [n]) := by
        rintro ⟨u, hu, f, hfm, he, -⟩
        obtain ⟨hl, hk⟩ := List.append_inj' he rfl
        obtain rfl := hs.eq_of_locate_eq hm hu hl
        have hnf : n = f.1 := by simpa using hk
        exact hn (List.mem_map.mpr ⟨f, hfm, hnf.symm⟩)
      by_cases hstale : Stale d staged.targets (d.locate t.dir ++ [n])
      · exact hgone _ hstale c m hf
      · rw [htouch.files _ fun hl => hl.elim hstale hout] at hf
        exact hstale ⟨⟨c, m, hf⟩, t, hm, n, rfl, hn⟩
  · rintro ⟨text, hp, rfl⟩
    exact Disk.holds_iff.mp (hw.held t hm _ hp)

end Run

/-- A run that succeeds leaves exactly the rendered files in the managed directories, whatever they
held before, keeps every other file and every input, and reports exactly what it removed and wrote. -/
theorem run_write_exact {s : Settings} {d d' : Disk} {sum : Summary} (ht : d.IsTree)
    (hv : s.validate = .ok ()) (hp : s.IsPlain) (he : ¬ s.Manages d (d.locate s.enumsFile))
    (h : run s .write d = (.ok sum, d')) :
    ∃ staged files, Run.stage s d = .ok staged ∧
      staged.targets = Target.all.map (fun t => ⟨s.outputDir t, files t⟩) ∧
      Run.Exact s d d' files sum := by
  have htouch := touched_run_managed s ht
  rw [h] at htouch
  rw [run_write_apply] at h
  cases hstage : Run.stage s d with
  | error fault =>
    rw [hstage] at h
    cases h
  | ok staged =>
    rw [hstage] at h
    obtain ⟨-, hs, files, hts, -⟩ := Run.stage_eq_ok hp hstage
    obtain ⟨report, rfl, hw⟩ := Run.commit_eq_ok ht hs h
    have hmem : ∀ t, ⟨s.outputDir t, files t⟩ ∈ staged.targets := fun t => by
      rw [hts]
      exact List.mem_map_of_mem t.mem_all
    have hex : ∀ P : StagedTarget → Prop,
        (∃ u ∈ staged.targets, P u) ↔ ∃ t, P ⟨s.outputDir t, files t⟩ := by
      intro P
      constructor
      · rintro ⟨u, hu, hP⟩
        rw [hts] at hu
        obtain ⟨t, -, rfl⟩ := List.mem_map.mp hu
        exact ⟨t, hP⟩
      · rintro ⟨t, hP⟩
        exact ⟨_, hmem t, hP⟩
    refine ⟨staged, files, rfl, hts, ?_⟩
    constructor
    case managed => exact fun t n c => Run.commit_managed ht hs h (hmem t) n c
    case others => exact htouch.files
    case inputs =>
      intro p c m hreads hr
      obtain ⟨hplain, hl⟩ := Settings.not_manages_of_reads ht hv hp hreads he
      exact Disk.read_of_touched ht hplain htouch hl hr
    case removed_nodup => exact Run.nodup_staleFiles ht hs
    case mem_removed => exact fun q => (Run.mem_staleFiles_iff ht hs).trans (hex _)
    case written_nodup => exact hw.nodup_written hs
    case mem_written => exact fun q => hw.mem_written_iff.trans (hex _)
    case unchanged =>
      refine hw.length_written.trans ?_
      rw [hts, List.map_map]
      rfl

/-- A disk with one document and an output tree that another run has left half written. -/
def mixedDisk : Disk :=
  ⟨[(["schemas"], .directory),
    (["schemas", "Point.yml"], .file "{name: Point, kind: static, attributes: []}".toUTF8 5),
    (["generated"], .directory), (["generated", "rust"], .directory),
    (["generated", "rust", "Gone.model.rs"], .file "".toUTF8 1),
    (["generated", "rust", "mod.rs"], .file "".toUTF8 2),
    (["generated", "rust", "kept"], .directory),
    (["generated", "rust", "kept", "notes.txt"], .file "kept".toUTF8 3)], [], 9⟩

theorem run_write_exact_mixed :
    mixedDisk.IsTree ∧ Settings.default.validate = .ok () ∧ Settings.default.IsPlain ∧
      ∃ sum d', run .default .write mixedDisk = (.ok sum, d') ∧
        ∃ staged files, Run.stage .default mixedDisk = .ok staged ∧
          staged.targets = Target.all.map (fun t => ⟨Settings.default.outputDir t, files t⟩) ∧
          Run.Exact .default mixedDisk d' files sum := by
  have ht : mixedDisk.IsTree := by decide
  have hv : Settings.default.validate = .ok () := by decide
  have hp : Settings.default.IsPlain := by decide
  have hok : (run .default .write mixedDisk).1.toOption.isSome = true := by decide +kernel
  rcases hrun : run .default .write mixedDisk with ⟨fault | sum, d'⟩
  · rw [hrun] at hok
    cases hok
  · exact ⟨ht, hv, hp, sum, d', rfl, run_write_exact ht hv hp (Settings.not_manages_default _) hrun⟩

end SchemaGen
