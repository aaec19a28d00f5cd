import SchemaGen.Proofs.Program.Starting
import SchemaGen.Proofs.Run.Current

/-!
# A check after a run

The program starts its log before it runs, so a run of the program writes to the log as well as to the
managed directories. A check that follows starts the log again, and compares with what it then finds. As long
as nothing that is written is also read, the check has the same configuration, stages the same and finds
every file that it looks for, with one exception: a log that is directly inside a managed directory. The
run removes it there as stale, or writes over it what a target has for its place, and the check makes it
again, or finds the entries that have come to it since.

Results:
1. `touched_executeRun`: what a run of the program writes to.
2. `executeRun_write_success`, `executeRun_check_success_iff`: when a run and when a check succeeds.
3. `execute_check_success_iff`: when a check succeeds after a run that did.
4. `exists_check_failure`: a run that succeeds, and fails the check right after it.
-/

namespace SchemaGen.Program

variable {c : Configuration} {l : Logging} {d d' d₁ d₂ : Disk} {staged : Staged}

namespace Configuration

/-- The locations that a run of the program may write to. -/
def Writes (c : Configuration) (d : Disk) (loc : Location) : Prop :=
  c.run.Manages d loc ∨ c.logging.Writes d loc

/-- No input of a run is written to by the program. -/
structure SparesInputs (c : Configuration) (d : Disk) : Prop where
  documents : ∀ n, isSchemaName n = true → ¬ c.Writes d (d.locate c.run.schemaDir ++ [n])
  enums : ¬ c.Writes d (d.locate c.run.enumsFile)

/-- What a run of the program has for a location, once its log has been started. -/
def Renders (c : Configuration) (d : Disk) (loc : Location) (text : String) : Prop :=
  ∃ staged, Run.stage c.run (startLog c.logging d).2 = .ok staged ∧ Run.Rendered d staged.targets loc text

end Configuration

theorem Configuration.not_writes_of_ne {loc : Location}
    (h : loc ≠ d.locate c.logging.file ∧ ∀ t ∈ Target.all, loc.dropLast ≠ d.locate (c.run.outputDir t)) :
    ¬ c.Writes d loc :=
  not_or.mpr ⟨Settings.not_manages_of_dropLast fun t => h.2 t t.mem_all, fun hl => h.1 hl.2⟩

theorem Configuration.sparesInputs_of_ne
    (h : d.locate c.run.schemaDir ≠ (d.locate c.logging.file).dropLast ∧
      ∀ t ∈ Target.all, d.locate c.run.schemaDir ≠ d.locate (c.run.outputDir t))
    (he : ¬ c.Writes d (d.locate c.run.enumsFile)) : c.SparesInputs d where
  documents n _ := by
    refine not_writes_of_ne ⟨fun hl => h.1 ?_, fun t hm => ?_⟩
    · rw [← hl, List.dropLast_concat]
    · rw [List.dropLast_concat]
      exact h.2 t hm
  enums := he

/-- A disk some time later, when entries may have come to a log that is a file. -/
structure Logging.Later (l : Logging) (d d' : Disk) : Prop where
  touched : d.Touched (l.Writes d) { d' with clock := d.clock }
  file : ∀ loc, l.Writes d loc → (∃ c m, d.get? loc = some (.file c m)) →
    ∃ c m, d'.get? loc = some (.file c m)

theorem Logging.Later.isTree (h : l.Later d d') : d'.IsTree := Disk.isTree_later h.touched.tree d'.clock

theorem Logging.Later.refl (ht : d.IsTree) : l.Later d d := ⟨.refl ht, fun _ _ => id⟩

theorem Logging.Later.cwd (h : l.Later d d') : d'.cwd = d.cwd := h.touched.cwd

/-! ## What a run writes to -/

theorem Logging.writes_congr (h : d'.cwd = d.cwd) : l.Writes d' = l.Writes d := by
  unfold Logging.Writes
  simp only [Disk.locate_congr h]

theorem Configuration.manages_congr (h : d'.cwd = d.cwd) : c.run.Manages d' = c.run.Manages d := by
  unfold Settings.Manages
  simp only [Disk.locate_congr h]

/-- A run that writes touches the managed directories and the log only, whatever the outcome. -/
theorem touched_executeRun (ht : d.IsTree) :
    d.Touched (c.Writes d) (executeRun c .write d).disk := by
  unfold executeRun
  cases hstart : startLog c.logging d with
  | mk status d₀ =>
    have hlog := (startLog_spec ht hstart).1.mono (T := c.Writes d) fun _ hl => .inr hl
    cases status with
    | some status => exact hlog
    | none =>
      have hrun := (touched_run_managed c.run hlog.tree).mono (T := c.Writes d) fun _ hl =>
        .inl (Configuration.manages_congr hlog.cwd ▸ hl)
      dsimp only
      split
      · next hr =>
        rw [hr] at hrun
        exact hlog.trans hrun
      · next hr =>
        rw [hr] at hrun
        exact hlog.trans hrun

/-! ## Success -/

theorem disk_executeRun {mode : Mode} {d₀ : Disk} (h : startLog c.logging d = (none, d₀)) :
    (executeRun c mode d).disk = (run c.run mode d₀).2 := by
  unfold executeRun
  rw [h]
  rcases hrun : run c.run mode d₀ with ⟨fault | sum, d₁⟩ <;> simp [hrun]

/-- A run of the program succeeds when its log is started and the run on the disk with the log succeeds. -/
theorem executeRun_success_iff (ht : d.IsTree) {mode : Mode} : (executeRun c mode d).status = .success ↔
    ∃ d₀ sum, startLog c.logging d = (none, d₀) ∧ (run c.run mode d₀).1 = .ok sum ∧
      statusOf mode sum = .success := by
  unfold executeRun
  cases hstart : startLog c.logging d with
  | mk status d₀ =>
    cases status with
    | some status =>
      have hfail := (startLog_spec ht hstart).2.2
      simpa using hfail
    | none => rcases hrun : run c.run mode d₀ with ⟨fault | sum, d₁⟩ <;> simp [hrun]

/-- A run that writes and succeeds has started its log, staged its targets and committed them. -/
theorem executeRun_write_success (ht : d.IsTree) (h : (executeRun c .write d).status = .success) :
    ∃ d₀ staged sum, startLog c.logging d = (none, d₀) ∧ Run.stage c.run d₀ = .ok staged ∧
      Run.commit staged d₀ = (.ok sum, (executeRun c .write d).disk) := by
  obtain ⟨d₀, sum, hstart, hrun, -⟩ := (executeRun_success_iff ht).mp h
  rw [disk_executeRun hstart]
  rw [run_write_apply] at hrun ⊢
  cases hstage : Run.stage c.run d₀ with
  | error fault =>
    rw [hstage] at hrun
    cases hrun
  | ok staged =>
    rw [hstage] at hrun
    exact ⟨d₀, staged, sum, hstart, hstage, Prod.ext hrun rfl⟩

/-- A check succeeds when its log is started and the targets are current on the disk with the log. -/
theorem executeRun_check_success_iff (ht : d.IsTree) (hs : Run.Separate d.cwd staged.targets)
    (hstage : ∀ d₀, startLog c.logging d = (none, d₀) → Run.stage c.run d₀ = .ok staged) :
    (executeRun c .check d).status = .success ↔
      ∃ d₀, startLog c.logging d = (none, d₀) ∧ Run.Current staged.targets d₀ := by
  rw [executeRun_success_iff ht]
  refine exists_congr fun d₀ => ?_
  rw [exists_and_left]
  refine and_congr_right fun hstart => ?_
  have hlog := (startLog_spec ht hstart).1
  rw [← Run.isUpToDate_compare_iff hlog.tree (hlog.cwd ▸ hs), run_apply_of_stage (hstage d₀ hstart)]
  refine exists_congr fun sum => and_congr_right fun _ => ?_
  cases hup : sum.isUpToDate <;> simp [statusOf, hup]

/-! ## Inputs -/

/-- Where the program writes to no input, what it writes leaves what a run stages. -/
theorem stage_of_touched (hs : c.SparesInputs d) (hp : c.run.IsDirect) (hcwd : d₁.cwd = d.cwd) (ht : d₁.IsTree)
    (h : d₁.Touched (c.Writes d) d₂) (hstage : Run.stage c.run d₁ = .ok staged) :
    Run.stage c.run d₂ = .ok staged := by
  refine Run.stage_of_spared ht hp h (fun n hn => ?_) ?_ hstage
  · rw [Disk.locate_congr hcwd]
    exact hs.documents n hn
  · rw [Disk.locate_congr hcwd]
    exact hs.enums

/-! ## The check -/

/-- What a run that writes and succeeds leaves to a check: the disk `d₀` with the log, what was staged there,
and the disk `d₁` that it was committed to. -/
structure Wrote (c : Configuration) (d d₀ : Disk) (staged : Staged) (d₁ : Disk) : Prop where
  started : d.Touched (c.logging.Writes d) d₀
  ready : c.logging.Ready d₀
  stages : Run.stage c.run d₀ = .ok staged
  separate : Run.Separate d.cwd staged.targets
  written : d₀.Touched (c.run.Manages d) d₁
  current : Run.Current staged.targets d₁

theorem exists_wrote (ht : d.IsTree) (hp : c.run.IsDirect) (ha : c.run.IsApart d.cwd)
    (hok : (executeRun c .write d).status = .success) :
    ∃ d₀ staged, startLog c.logging d = (none, d₀) ∧ Wrote c d d₀ staged (executeRun c .write d).disk := by
  obtain ⟨d₀, staged, sum, hstart, hstage, hcommit⟩ := executeRun_write_success ht hok
  obtain ⟨hlog, hready, -⟩ := startLog_spec ht hstart
  have hsep := Run.separate_of_stage hp (hlog.cwd ▸ ha) hstage
  have hwritten := Run.touched_commit hlog.tree (Run.isName_of_stage hstage)
  rw [hcommit] at hwritten
  refine ⟨d₀, staged, hstart, hlog, hready rfl, hstage, hlog.cwd ▸ hsep, hwritten.mono fun loc hl => ?_,
    Run.current_of_commit hlog.tree hsep hcommit⟩
  exact Configuration.manages_congr hlog.cwd ▸ Run.manages_of_within hstage hl

namespace Wrote

variable {d₀ d₃ : Disk}

theorem cwd (h : Wrote c d d₀ staged d₁) : d₁.cwd = d.cwd := h.written.cwd.trans h.started.cwd

/-- From the start of the run to the check, nothing has been written to but what the program writes to. -/
theorem touched_later (h : Wrote c d d₀ staged d₁) (hlater : c.logging.Later d₁ d') :
    d₀.Touched (c.Writes d) { d' with clock := d₁.clock } := by
  have hlog := hlater.touched
  rw [Logging.writes_congr h.cwd] at hlog
  exact (h.written.mono fun _ hl => .inl hl).trans (hlog.mono fun _ hl => .inr hl)

theorem within_iff (h : Wrote c d d₀ staged d₁) {loc : Location} :
    Run.Within d staged.targets loc ↔ c.run.Manages d loc := by
  rw [← Configuration.manages_congr h.started.cwd, ← Run.within_iff_manages h.stages,
    Run.within_congr h.started.cwd]

theorem file_later (h : Wrote c d d₀ staged d₁) (hlater : c.logging.Later d₁ d') {loc : Location}
    (hl : c.logging.Writes d loc) (hf : ∃ b m, d₁.get? loc = some (.file b m)) :
    ∃ b m, d'.get? loc = some (.file b m) :=
  hlater.file loc (Logging.writes_congr h.cwd ▸ hl) hf

/-- The check stages what the run has staged. -/
theorem stage_later (h : Wrote c d d₀ staged d₁) (hp : c.run.IsDirect) (hs : c.SparesInputs d)
    (hlater : c.logging.Later d₁ d') : Run.stage c.run d' = .ok staged := by
  have hstage := stage_of_touched hs hp h.started.cwd h.started.tree (h.touched_later hlater) h.stages
  rwa [Run.stage_later] at hstage

/-- Where a file stands in the place of the log, the log is ready for the check. -/
theorem ready_later (h : Wrote c d d₀ staged d₁) (hlater : c.logging.Later d₁ d')
    (hf : ∀ loc, c.logging.Writes d loc → ∃ b m, d'.get? loc = some (.file b m)) : c.logging.Ready d' := by
  have hready := h.ready.again h.started.tree (h.touched_later hlater) fun loc hl =>
    hf loc (Logging.writes_congr h.started.cwd ▸ hl)
  exact hready.later d'.clock

/-- Where every log in a managed directory holds the text of its place, the log is ready for the check and
the targets are current. -/
theorem current_later (h : Wrote c d d₀ staged d₁) (hlater : c.logging.Later d₁ d')
    (hheld : ∀ loc, c.logging.Writes d loc → c.run.Manages d loc →
      ∃ text, Run.Rendered d staged.targets loc text ∧ d'.holds loc text = true) :
    c.logging.Ready d' ∧ Run.Current staged.targets d' := by
  have hcwd : d'.cwd = d.cwd := hlater.cwd.trans h.cwd
  have hf : ∀ loc, c.logging.Writes d loc → ∃ b m, d'.get? loc = some (.file b m) := by
    intro loc hl
    by_cases hm : c.run.Manages d loc
    · obtain ⟨text, -, hh⟩ := hheld loc hl hm
      obtain ⟨m, hg⟩ := Disk.holds_iff.mp hh
      exact ⟨_, m, hg⟩
    · -- elsewhere the run has left the log where it started it
      obtain ⟨b, m, hg⟩ := h.ready.get? h.started.tree (Logging.writes_congr h.started.cwd ▸ hl)
      exact h.file_later hlater hl ⟨b, m, (h.written.files loc hm b m).mpr hg⟩
  refine ⟨h.ready_later hlater hf, ?_⟩
  have hcurrent := (Run.current_iff_of_touched hlater.touched h.current).mpr fun loc hl => ?_
  · exact ⟨hcurrent.clean, hcurrent.held⟩
  · rw [Logging.writes_congr h.cwd] at hl
    obtain ⟨b, m, hg⟩ := hf loc hl
    refine (Run.current_at_iff (hcwd ▸ h.separate) hg).mpr fun hwithin => ?_
    rw [Run.rendered_congr hcwd]
    rw [Run.within_congr hcwd] at hwithin
    exact hheld loc hl (h.within_iff.mp hwithin)

/-- Where the targets are current once the check has started its log, a log in a managed directory held
the text of its place before. -/
theorem held_of_current (h : Wrote c d d₀ staged d₁) (hlater : c.logging.Later d₁ d')
    (hstart : startLog c.logging d' = (none, d₃)) (hcur : Run.Current staged.targets d₃) {loc : Location}
    (hl : c.logging.Writes d loc) (hm : c.run.Manages d loc) :
    ∃ text, Run.Rendered d staged.targets loc text ∧ d'.holds loc text = true := by
  have hcwd : d'.cwd = d.cwd := hlater.cwd.trans h.cwd
  obtain ⟨hlog, hready, -⟩ := startLog_spec hlater.isTree hstart
  have hcwd₃ : d₃.cwd = d.cwd := hlog.cwd.trans hcwd
  have hsep₃ : Run.Separate d₃.cwd staged.targets := hcwd₃ ▸ h.separate
  have hl₃ : c.logging.Writes d₃ loc := by rwa [Logging.writes_congr hcwd₃]
  obtain ⟨b, m, hg⟩ := (hready rfl).get? hlog.tree hl₃
  have hat := (Run.current_at_iff hsep₃ hg).mp ⟨hcur.clean loc, hcur.held loc⟩
  rw [Run.within_congr hcwd₃, Run.rendered_congr hcwd₃] at hat
  obtain ⟨text, hr, hheld⟩ := hat (h.within_iff.mpr hm)
  -- the run left the text there, so the log was in place and starting it changed nothing
  have hr₁ : Run.Rendered d₁ staged.targets loc text := by rwa [Run.rendered_congr h.cwd]
  obtain ⟨m₁, hg₁⟩ := Disk.holds_iff.mp (h.current.held loc text hr₁)
  have hf : ∀ l, c.logging.Writes d l → ∃ b m, d'.get? l = some (.file b m) := by
    intro l hl'
    obtain rfl : l = loc := hl'.2.trans hl.2.symm
    exact h.file_later hlater hl ⟨_, m₁, hg₁⟩
  rw [startLog_of_ready (h.ready_later hlater hf)] at hstart
  cases hstart
  exact ⟨text, hr, hheld⟩

end Wrote

/-- After a run that writes and succeeds, a check with the same configuration succeeds exactly when a log
that is directly inside a managed directory holds what a target has for its place. -/
theorem executeRun_check_iff (ht : d.IsTree) (hp : c.run.IsDirect) (ha : c.run.IsApart d.cwd)
    (hs : c.SparesInputs d) (hok : (executeRun c .write d).status = .success)
    (hlater : c.logging.Later (executeRun c .write d).disk d') :
    (executeRun c .check d').status = .success ↔ ∀ loc, c.logging.Writes d loc → c.run.Manages d loc →
      ∃ text, c.Renders d loc text ∧ d'.holds loc text = true := by
  obtain ⟨d₀, staged, hstart, hw⟩ := exists_wrote ht hp ha hok
  generalize (executeRun c .write d).disk = d₁ at hw hlater
  have hcwd : d'.cwd = d.cwd := hlater.cwd.trans hw.cwd
  have hsep : Run.Separate d'.cwd staged.targets := hcwd ▸ hw.separate
  have hstage : ∀ d₃, startLog c.logging d' = (none, d₃) → Run.stage c.run d₃ = .ok staged := by
    intro d₃ h₃
    have hlog := (startLog_spec hlater.isTree h₃).1
    rw [Logging.writes_congr hcwd] at hlog
    exact stage_of_touched hs hp hcwd hlater.isTree (hlog.mono fun _ hl => .inr hl) (hw.stage_later hp hs hlater)
  have hrenders : ∀ loc text, c.Renders d loc text ↔ Run.Rendered d staged.targets loc text := by
    intro loc text
    simp only [Configuration.Renders, hstart, hw.stages, Except.ok.injEq, exists_eq_left']
  simp only [hrenders]
  rw [executeRun_check_success_iff hlater.isTree hsep hstage]
  constructor
  · rintro ⟨d₃, h₃, hcur⟩ loc hl hm
    exact hw.held_of_current hlater h₃ hcur hl hm
  · intro h
    obtain ⟨hready, hcur⟩ := hw.current_later hlater h
    exact ⟨d', startLog_of_ready hready, hcur⟩

/-! ## The program -/

variable {args : List String} {asked : Option Path} {env : Environment}

theorem execute_eq {mode : Mode} (hread : Request.read? args = some (.run asked mode))
    (hc : configuration asked env d = .ok c) : execute args env d = executeRun c mode d := by
  unfold execute
  rw [hread]
  dsimp only
  rw [hc]

/-- Called again with `--check` after a run that wrote to no settings file, the program checks with the
configuration of the run. -/
theorem execute_check_eq (ht : d.IsTree) (hread : Request.read? args = some (.run asked .write))
    (hc : configuration asked env d = .ok c) (hasked : (asked.getD Configuration.defaultFile).isDirect = true)
    (hfiles : ∀ p ∈ Configuration.files asked, ¬ c.Writes d (d.locate p))
    (hlater : c.logging.Later (executeRun c .write d).disk d') :
    execute ("--check" :: args) env d' = executeRun c .check d' := by
  refine execute_eq (Request.read?_check hread) ?_
  have hrun := touched_executeRun (c := c) ht
  have hlog := hlater.touched
  rw [Logging.writes_congr hrun.cwd] at hlog
  have hagain : configuration asked env _ = configuration asked env d :=
    configuration_of_touched ht hasked (hrun.trans (hlog.mono fun _ hl => .inr hl)) hfiles
  rw [configuration_later] at hagain
  exact hagain.trans hc

/-- Let the program write with success, to none of its inputs and none of its settings files. Called again with
`--check` and the same arguments, now or later, it succeeds exactly when a log that is directly inside a
managed directory holds what a target has for its place. So it does wherever the log is elsewhere. -/
theorem execute_check_success_iff (ht : d.IsTree) (hread : Request.read? args = some (.run asked .write))
    (hc : configuration asked env d = .ok c) (hasked : (asked.getD Configuration.defaultFile).isDirect = true)
    (hp : c.run.IsDirect) (ha : c.run.IsApart d.cwd) (hs : c.SparesInputs d)
    (hfiles : ∀ p ∈ Configuration.files asked, ¬ c.Writes d (d.locate p))
    (hok : (execute args env d).status = .success)
    (hlater : c.logging.Later (execute args env d).disk d') :
    (execute ("--check" :: args) env d').status = .success ↔
      ∀ loc, c.logging.Writes d loc → c.run.Manages d loc →
        ∃ text, c.Renders d loc text ∧ d'.holds loc text = true := by
  rw [execute_eq hread hc] at hok hlater
  rw [execute_check_eq ht hread hc hasked hfiles hlater]
  exact executeRun_check_iff ht hp ha hs hok hlater

/-- With nothing set, the log of the mixed disk is apart from all that is read and all that is managed. -/
theorem execute_check_success_mixed : mixedDisk.IsTree ∧ (execute [] [] mixedDisk).status = .success ∧
    ∀ d', Logging.default.Later (execute [] [] mixedDisk).disk d' →
      (execute ["--check"] [] d').status = .success := by
  have ht : mixedDisk.IsTree := by decide
  have hv : Settings.default.validate = .ok () := by decide
  have hp : Settings.default.IsPlain := by decide
  have hc : configuration none [] mixedDisk = .ok .default := by decide +kernel
  have hok : (execute [] [] mixedDisk).status = .success := by decide +kernel
  have hs : Configuration.default.SparesInputs mixedDisk :=
    Configuration.sparesInputs_of_ne (by decide) (Configuration.not_writes_of_ne (by decide))
  have hne : ∀ p ∈ Configuration.files none,
      mixedDisk.locate p ≠ mixedDisk.locate Logging.default.file ∧ ∀ t ∈ Target.all,
        (mixedDisk.locate p).dropLast ≠ mixedDisk.locate (Settings.default.outputDir t) := by
    decide
  have hfiles : ∀ p ∈ Configuration.files none, ¬ Configuration.default.Writes mixedDisk (mixedDisk.locate p) :=
    fun p hm => Configuration.not_writes_of_ne (hne p hm)
  refine ⟨ht, hok, fun d' hlater => ?_⟩
  refine (execute_check_success_iff ht rfl hc (by decide) hp.isDirect (hp.isApart hv _) hs hfiles hok hlater).mpr ?_
  rintro loc ⟨-, rfl⟩ hm
  exact absurd hm (Settings.not_manages_of_dropLast fun t => by cases t <;> decide)

/-! ## A check that fails -/

/-- A disk with an empty schema directory. -/
def emptySchemas : Disk := ⟨[(["schemas"], .directory)], [], 0⟩

/-- An environment that sends the log to the directory of the host models. -/
def misplacedLog : Environment := [("TESSERA__LOGGING__FILE_DIRECTORY", "generated/rust")]

/-- The configuration of that environment. -/
def misplacedLogConfiguration : Configuration :=
  { Configuration.default with logging := { Logging.default with directory := ⟨"generated/rust"⟩ } }

theorem not_renders_misplacedLog (text : String) : ¬ misplacedLogConfiguration.Renders emptySchemas
    (emptySchemas.locate misplacedLogConfiguration.logging.file) text := by
  have hnames : (Run.stage misplacedLogConfiguration.run
      (startLog misplacedLogConfiguration.logging emptySchemas).2).toOption.all (fun staged =>
        staged.targets.all fun t => t.files.names.all fun n => n != "tessera.log") = true := by
    decide +kernel
  rintro ⟨staged, hstage, t, hm, f, hf, hl, -⟩
  rw [hstage] at hnames
  have hlocate : emptySchemas.locate misplacedLogConfiguration.logging.file =
      ["generated", "rust"] ++ ["tessera.log"] := by
    decide
  rw [hlocate] at hl
  have hname : "tessera.log" = f.1 := by simpa using (List.append_inj' hl rfl).2
  have hall := List.all_eq_true.mp (List.all_eq_true.mp hnames t hm) f.1 (Run.mem_names_of_mem_pairs hf)
  simp [← hname] at hall

/-- With a configuration that is accepted and plain paths, a run that succeeds removes its log as stale, and
the check right after it finds the log that it has made itself. -/
theorem exists_check_failure : ∃ args asked env c d, d.IsTree ∧
    Request.read? args = some (.run asked .write) ∧ configuration asked env d = .ok c ∧ c.run.IsPlain ∧
    (execute args env d).status = .success ∧
    (execute ("--check" :: args) env (execute args env d).disk).status ≠ .success := by
  have ht : emptySchemas.IsTree := by decide
  have hp : misplacedLogConfiguration.run.IsPlain := by decide
  have hv : misplacedLogConfiguration.run.validate = .ok () := by decide
  have hread : Request.read? [] = some (.run none .write) := rfl
  have hc : configuration none misplacedLog emptySchemas = .ok misplacedLogConfiguration := by decide +kernel
  have hok : (execute [] misplacedLog emptySchemas).status = .success := by decide +kernel
  refine ⟨[], none, misplacedLog, misplacedLogConfiguration, emptySchemas, ht, hread, hc, hp, hok, fun hcheck => ?_⟩
  have hs : misplacedLogConfiguration.SparesInputs emptySchemas :=
    Configuration.sparesInputs_of_ne (by decide) (Configuration.not_writes_of_ne (by decide))
  have hne : ∀ p ∈ Configuration.files none,
      emptySchemas.locate p ≠ emptySchemas.locate misplacedLogConfiguration.logging.file ∧ ∀ t ∈ Target.all,
        (emptySchemas.locate p).dropLast ≠ emptySchemas.locate (misplacedLogConfiguration.run.outputDir t) := by
    decide
  have hfiles : ∀ p ∈ Configuration.files none,
      ¬ misplacedLogConfiguration.Writes emptySchemas (emptySchemas.locate p) :=
    fun p hm => Configuration.not_writes_of_ne (hne p hm)
  have hlater := Logging.Later.refl (l := misplacedLogConfiguration.logging)
    (touched_executeRun (c := misplacedLogConfiguration) ht).tree
  rw [execute_eq hread hc] at hok hcheck
  rw [execute_check_eq ht hread hc (by decide) hfiles hlater,
    executeRun_check_iff ht hp.isDirect (hp.isApart hv _) hs hok hlater] at hcheck
  obtain ⟨text, hr, -⟩ := hcheck _ ⟨rfl, rfl⟩ ⟨.rust, "tessera.log", by decide⟩
  exact not_renders_misplacedLog text hr

end SchemaGen.Program
