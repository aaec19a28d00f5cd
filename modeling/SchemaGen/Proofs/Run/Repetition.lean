import SchemaGen.Proofs.Run.Outputs
import SchemaGen.Proofs.Run.Reloading

/-!
# Checking, and running again

A check compares every target with the disk before the run. A run that writes first removes what is
stale for all targets and then compares each with a disk that the others have changed already. Both
report the same, since no target concerns a place of another one.

A run that succeeds leaves a disk that is settled: nothing is stale, every directory is there and
every file holds its text. It has not touched what it reads, so the next run stages the same again
and finds nothing to do, whatever its mode and whatever the time has become.

Results:
1. `compareAll_eq_ok`: what a check reports.
2. `settled_of_commit`: what a successful commit leaves is settled.
3. `commit_of_settled`, `compare_of_settled`: on a settled disk there is nothing to do.
4. `run_check_eq_and_settled`: a check reports what the run would, and the next run does nothing.
-/

namespace SchemaGen

/-! ## Comparing one directory -/

namespace Disk

variable {d : Disk} {dir : Path} {files : List (String × String)}

theorem changed_eq_ok (ht : d.IsTree) (hp : dir.isDirect = true) (hn : ∀ f ∈ files, IsName f.1)
    {changed : List Path} (h : d.changed dir files = .ok changed) :
    changed =
      (files.filter fun f => !d.holds (d.locate dir ++ [f.1]) f.2).map fun f => dir.child f.1 := by
  induction files generalizing changed with
  | nil =>
    cases h
    rfl
  | cons f rest ih =>
    obtain ⟨hname, hrest⟩ := List.forall_mem_cons.mp hn
    unfold Disk.changed at h
    obtain ⟨current, hc, h⟩ := bind_eq_ok.mp h
    obtain ⟨more, hm, h⟩ := bind_eq_ok.mp h
    cases h
    have hcur := holds_of_isCurrent ht hp hname hc
    cases current with
    | true => simp [hcur, ih hrest hm]
    | false => simp [hcur, ih hrest hm]

theorem isCurrent_of_holds (ht : d.IsTree) (hp : dir.isDirect = true) {n text : String} (hn : IsName n)
    (hh : d.holds (d.locate dir ++ [n]) text = true) :
    d.isCurrent (dir.child n) text = .ok true := by
  obtain ⟨m, hf⟩ := holds_iff.mp hh
  rw [isCurrent_child ht hp (ht.directory_of_child hf) hn, if_neg (by simp [hf]), hh]

theorem changed_of_held (ht : d.IsTree) (hp : dir.isDirect = true) (hn : ∀ f ∈ files, IsName f.1)
    (hh : ∀ f ∈ files, d.holds (d.locate dir ++ [f.1]) f.2 = true) : d.changed dir files = .ok [] := by
  induction files with
  | nil => rfl
  | cons f rest ih =>
    obtain ⟨hname, hrest⟩ := List.forall_mem_cons.mp hn
    obtain ⟨hhead, htail⟩ := List.forall_mem_cons.mp hh
    unfold Disk.changed
    rw [isCurrent_of_holds ht hp hname hhead, ih hrest htail]
    rfl

end Disk

namespace Action

variable {d d' : Disk} {dir : Path}

theorem writeAll_of_held {files : List (String × String)} (ht : d.IsTree) (hp : dir.isDirect = true)
    (hn : ∀ f ∈ files, IsName f.1) (hh : ∀ f ∈ files, d.holds (d.locate dir ++ [f.1]) f.2 = true) :
    writeAll dir files d = (.ok ⟨[], files.length⟩, d) := by
  induction files with
  | nil => rfl
  | cons f rest ih =>
    obtain ⟨hname, hrest⟩ := List.forall_mem_cons.mp hn
    obtain ⟨hhead, htail⟩ := List.forall_mem_cons.mp hh
    unfold writeAll
    refine bind_eq_ok.mpr ⟨true, d, reads_eq_ok.mpr ⟨?_, rfl⟩, ?_⟩
    · exact Disk.isCurrent_of_holds ht hp hname hhead
    · exact bind_eq_ok.mpr ⟨_, d, ih hrest htail, rfl⟩

theorem writeFiles_of_held {files : NameMap String} (ht : d.IsTree) (hp : dir.isDirect = true)
    (hne : dir.isEmpty = false) (hd : d.get? (d.locate dir) = some .directory)
    (hn : ∀ f ∈ files.pairs, IsName f.1)
    (hh : ∀ f ∈ files.pairs, d.holds (d.locate dir ++ [f.1]) f.2 = true) :
    writeFiles dir files d = (.ok ⟨[], files.size⟩, d) := by
  unfold writeFiles
  refine bind_eq_ok.mpr ⟨(), d, ?_, writeAll_of_held ht hp hn hh⟩
  unfold makeDirectories
  rw [Disk.makeDirectories_of_isDirectory ((Disk.isDirectory_iff ht hp hne).mpr hd)]

/-- A directory that was written to is there. -/
theorem directory_of_writeFiles {files : NameMap String} {report : WriteReport} (ht : d.IsTree)
    (hp : dir.isDirect = true) (hn : ∀ f ∈ files.pairs, IsName f.1) (hu : files.names.Nodup)
    (h : writeFiles dir files d = (.ok report, d')) : d'.get? (d.locate dir) = some .directory := by
  unfold writeFiles at h
  obtain ⟨_, d₁, hm, h⟩ := bind_eq_ok.mp h
  obtain ⟨hg, hd⟩ := makeDirectories_eq_ok ht hp hm
  have htouch := touched_writeAll hg.tree hp hn hu
  rw [h] at htouch
  exact htouch.directories _ hd

theorem reconcile_of_clean {expected : List String} (ht : d.IsTree) (hp : dir.isDirect = true)
    (hne : dir.isEmpty = false) (hc : d.stale dir expected = []) :
    reconcile dir expected d = (.ok [], d) := by
  have hnames : d.staleNames (d.locate dir) expected = [] := by
    rw [Disk.stale_eq ht hp hne] at hc
    exact List.map_eq_nil_iff.mp hc
  rw [reconcile_apply ht hp hne, hc, hnames]
  rfl

end Action

namespace Run

variable {d d' : Disk} {cwd : Location} {ts : List StagedTarget} {staged : Staged}

/-! ## Reports -/

/-- What is written for the targets, and what is found unchanged, judged by a disk. -/
def reportOn (d : Disk) (ts : List StagedTarget) : WriteReport where
  written := ts.flatMap fun t =>
    (t.files.pairs.filter fun f => !d.holds (d.locate t.dir ++ [f.1]) f.2).map fun f => t.dir.child f.1
  unchanged := (ts.map fun t =>
    t.files.pairs.countP fun f => d.holds (d.locate t.dir ++ [f.1]) f.2).sum

/-- How many files the targets have. -/
def fileCount (ts : List StagedTarget) : Nat := (ts.map fun t => t.files.size).sum

theorem WrittenAll.report_eq {report : WriteReport} (h : WrittenAll ts d d' report) :
    report = reportOn d ts := by
  obtain ⟨written, unchanged⟩ := report
  exact congrArg₂ WriteReport.mk h.written h.unchanged

theorem length_sub_length_filter {α : Type} (p : α → Bool) (l : List α) :
    l.length - (l.filter fun a => !p a).length = l.countP p := by
  induction l with
  | nil => rfl
  | cons a rest ih =>
    have hle := List.length_filter_le (fun a => !p a) rest
    cases hp : p a with
    | true =>
      simp only [List.filter_cons, hp, List.length_cons, List.countP_cons, Bool.not_true]
      simp only [Bool.false_eq_true, if_false, if_true]
      omega
    | false =>
      simp only [List.filter_cons, hp, List.length_cons, List.countP_cons, Bool.not_false]
      simp only [Bool.false_eq_true, if_false, if_true, List.length_cons]
      omega

/-- A check reports the stale files, and the files that do not hold their text as written. -/
theorem compareAll_eq_ok (ht : d.IsTree) (hs : Separate cwd ts) {removed : List Path}
    {report : WriteReport} (h : compareAll d ts = .ok (removed, report)) :
    removed = staleFiles d ts ∧ report = reportOn d ts := by
  induction ts generalizing removed report with
  | nil =>
    cases h
    exact ⟨rfl, rfl⟩
  | cons t rest ih =>
    unfold compareAll at h
    obtain ⟨changed, hc, h⟩ := bind_eq_ok.mp h
    obtain ⟨⟨removed', report'⟩, hr, h⟩ := bind_eq_ok.mp h
    cases h
    obtain ⟨rfl, rfl⟩ := ih hs.tail hr
    have hchanged := Disk.changed_eq_ok ht (hs.direct t List.mem_cons_self)
      (hs.named t List.mem_cons_self) hc
    refine ⟨rfl, ?_⟩
    rw [hchanged, List.length_map, NameMap.size, length_sub_length_filter]
    rfl

theorem compare_apply (staged : Staged) (d : Disk) :
    compare staged d =
      ((compareAll d staged.targets).map fun r => summary staged.catalog r.1 r.2, d) := by
  unfold compare Action.reads
  rw [Action.bind_apply]
  dsimp only
  cases compareAll d staged.targets <;> rfl

/-- A check and a commit that succeed on one disk report the same. -/
theorem summary_of_compare {dry sum : Summary} (ht : d.IsTree) (hs : Separate d.cwd staged.targets)
    (hdry : (compare staged d).1 = .ok dry) (h : commit staged d = (.ok sum, d')) : dry = sum := by
  rw [compare_apply] at hdry
  obtain ⟨⟨removed, report⟩, hcmp, rfl⟩ := map_eq_ok.mp hdry
  obtain ⟨rfl, rfl⟩ := compareAll_eq_ok ht hs hcmp
  obtain ⟨report, rfl, hw⟩ := commit_eq_ok ht hs h
  rw [hw.report_eq]

/-! ## Settled disks -/

/-- Nothing is stale for the targets, their directories are there and their files hold their texts. -/
structure Settled (ts : List StagedTarget) (d : Disk) : Prop where
  tree : d.IsTree
  clean : ∀ t ∈ ts, d.stale t.dir t.files.names = []
  made : ∀ t ∈ ts, d.get? (d.locate t.dir) = some .directory
  held : ∀ t ∈ ts, ∀ f ∈ t.files.pairs, d.holds (d.locate t.dir ++ [f.1]) f.2 = true

/-- Time passes without a change to the files. -/
theorem Settled.later (hs : Separate cwd ts) (h : Settled ts d) (now : Int) :
    Settled ts { d with clock := now } := by
  have htree := Disk.isTree_later h.tree now
  refine ⟨htree, fun t hm => ?_, h.made, h.held⟩
  rw [Disk.stale_congr h.tree htree (hs.direct t hm) (hs.filled t hm) rfl rfl]
  exact h.clean t hm

theorem Settled.tail {t : StagedTarget} (h : Settled (t :: ts) d) : Settled ts d :=
  ⟨h.tree, (List.forall_mem_cons.mp h.clean).2, (List.forall_mem_cons.mp h.made).2,
    (List.forall_mem_cons.mp h.held).2⟩

theorem reconcileAll_of_settled (hs : Separate cwd ts) (h : Settled ts d) :
    reconcileAll ts d = (.ok [], d) := by
  induction ts with
  | nil => rfl
  | cons t rest ih =>
    unfold reconcileAll
    refine Action.bind_eq_ok.mpr ⟨[], d, ?_, Action.bind_eq_ok.mpr ⟨[], d, ih hs.tail h.tail, rfl⟩⟩
    exact Action.reconcile_of_clean h.tree (hs.direct t List.mem_cons_self)
      (hs.filled t List.mem_cons_self) (h.clean t List.mem_cons_self)

theorem writeAll_of_settled (hs : Separate cwd ts) (h : Settled ts d) :
    writeAll ts d = (.ok ⟨[], fileCount ts⟩, d) := by
  induction ts with
  | nil => rfl
  | cons t rest ih =>
    unfold writeAll
    refine Action.bind_eq_ok.mpr ⟨⟨[], t.files.size⟩, d, ?_,
      Action.bind_eq_ok.mpr ⟨⟨[], fileCount rest⟩, d, ih hs.tail h.tail, rfl⟩⟩
    exact Action.writeFiles_of_held h.tree (hs.direct t List.mem_cons_self)
      (hs.filled t List.mem_cons_self) (h.made t List.mem_cons_self) (hs.named t List.mem_cons_self)
      (h.held t List.mem_cons_self)

theorem compareAll_of_held (ht : d.IsTree) (hs : Separate cwd ts)
    (hclean : ∀ t ∈ ts, d.stale t.dir t.files.names = [])
    (hheld : ∀ t ∈ ts, ∀ f ∈ t.files.pairs, d.holds (d.locate t.dir ++ [f.1]) f.2 = true) :
    compareAll d ts = .ok ([], ⟨[], fileCount ts⟩) := by
  induction ts with
  | nil => rfl
  | cons t rest ih =>
    obtain ⟨hclean, hcleanRest⟩ := List.forall_mem_cons.mp hclean
    obtain ⟨hheld, hheldRest⟩ := List.forall_mem_cons.mp hheld
    have hchanged : d.changedFiles t.dir t.files = .ok [] :=
      Disk.changed_of_held ht (hs.direct t List.mem_cons_self) (hs.named t List.mem_cons_self) hheld
    unfold compareAll
    rw [hchanged, ih hs.tail hcleanRest hheldRest, hclean]
    rfl

theorem commit_of_settled (hs : Separate cwd staged.targets) (h : Settled staged.targets d) :
    commit staged d = (.ok (summary staged.catalog [] ⟨[], fileCount staged.targets⟩), d) :=
  Action.bind_eq_ok.mpr ⟨[], d, reconcileAll_of_settled hs h,
    Action.bind_eq_ok.mpr ⟨_, d, writeAll_of_settled hs h, rfl⟩⟩

theorem compare_of_settled (hs : Separate cwd staged.targets) (h : Settled staged.targets d) :
    compare staged d = (.ok (summary staged.catalog [] ⟨[], fileCount staged.targets⟩), d) := by
  rw [compare_apply, compareAll_of_held h.tree hs h.clean h.held]
  rfl

theorem made_of_writeAll {report : WriteReport} (ht : d.IsTree) (hs : Separate d.cwd ts)
    (h : writeAll ts d = (.ok report, d')) : ∀ t ∈ ts, d'.get? (d.locate t.dir) = some .directory := by
  induction ts generalizing d report with
  | nil => simp
  | cons t rest ih =>
    have hp := hs.direct t List.mem_cons_self
    have hn := hs.named t List.mem_cons_self
    have hu := hs.once t List.mem_cons_self
    unfold writeAll at h
    obtain ⟨head, d₁, hw, h⟩ := Action.bind_eq_ok.mp h
    obtain ⟨more, d₂, hr, h⟩ := Action.bind_eq_ok.mp h
    cases h
    have hhead := Action.touched_writeFiles ht hp hn hu
    rw [hw] at hhead
    have hrest := touched_writeAll hhead.tree (hhead.cwd ▸ hs.tail)
    rw [hr] at hrest
    refine List.forall_mem_cons.mpr ⟨?_, fun u hm => ?_⟩
    · -- the directory of the head stays while the others are written
      exact hrest.directories _ (Action.directory_of_writeFiles ht hp hn hu hw)
    · rw [← Disk.locate_congr hhead.cwd]
      exact ih hhead.tree (hhead.cwd ▸ hs.tail) hr u hm

/-- What a successful commit leaves is settled. -/
theorem settled_of_commit {sum : Summary} (ht : d.IsTree) (hs : Separate d.cwd staged.targets)
    (h : commit staged d = (.ok sum, d')) : Settled staged.targets d' := by
  obtain ⟨report, -, hw⟩ := commit_eq_ok ht hs h
  have htouch := (commit_spec ht hs).1
  rw [h] at htouch
  have hl : ∀ p, d'.locate p = d.locate p := Disk.locate_congr htouch.cwd
  constructor
  case tree => exact htouch.tree
  case clean =>
    intro t hm
    rw [List.eq_nil_iff_forall_not_mem]
    intro q hq
    obtain ⟨n, -, ⟨c, m, hf⟩, hn⟩ :=
      (Disk.mem_stale_iff htouch.tree (hs.direct t hm) (hs.filled t hm)).mp hq
    -- a file that stands there now is one of the target's own
    rw [hl] at hf
    obtain ⟨text, hp, -⟩ := (commit_managed ht hs h hm n c).mp ⟨m, hf⟩
    exact hn (mem_names_of_mem_pairs hp)
  case made =>
    intro t hm
    obtain ⟨d₁, hr, hc⟩ := reconcileAll_apply ht hs
    unfold commit at h
    obtain ⟨_, d₂, hr', h⟩ := Action.bind_eq_ok.mp h
    rw [hr] at hr'
    cases hr'
    obtain ⟨_, d₃, hwrite, h⟩ := Action.bind_eq_ok.mp h
    cases h
    rw [hl, ← Disk.locate_congr hc.cwd]
    exact made_of_writeAll hc.tree (hc.cwd ▸ hs) hwrite t hm
  case held =>
    intro t hm f hf
    rw [hl]
    exact hw.held t hm f hf

end Run

/-! ## Runs -/

variable {s : Settings} {d d' : Disk}

theorem run_apply_of_stage {staged : Staged} (h : Run.stage s d = .ok staged) (mode : Mode) :
    run s mode d = match mode with
      | .write => Run.commit staged d
      | .check => Run.compare staged d := by
  cases mode <;> simp only [run_apply, h]

/-- Let a run that writes succeed. A check of the disk before it changes nothing and, if it succeeds,
reports the same. On the disk after it every run stages the same again, at any time and in any mode;
it succeeds, finds every rendered file unchanged, and changes nothing. -/
theorem run_check_eq_and_settled {sum : Summary} (ht : d.IsTree) (hv : s.validate = .ok ())
    (hp : s.IsPlain) (he : ¬ s.Manages d (d.locate s.enumsFile))
    (h : run s .write d = (.ok sum, d')) :
    ((run s .check d).2 = d ∧ ∀ dry, (run s .check d).1 = .ok dry → dry = sum) ∧
    ∃ staged, Run.stage s d = .ok staged ∧ ∀ mode now,
      Run.stage s { d' with clock := now } = .ok staged ∧
      run s mode { d' with clock := now } =
        (.ok { sum with written := [], unchanged := Run.fileCount staged.targets, removed := [] },
          { d' with clock := now }) := by
  have htouch := touched_run_managed s ht
  rw [h] at htouch
  rw [run_write_apply] at h
  cases hstage : Run.stage s d with
  | error fault =>
    rw [hstage] at h
    cases h
  | ok staged =>
    rw [hstage] at h
    obtain ⟨-, hs, -⟩ := Run.stage_eq_ok hp hstage
    refine ⟨⟨?_, fun dry hdry => ?_⟩, staged, rfl, fun mode now => ?_⟩
    · rw [run_apply_of_stage hstage, Run.compare_apply]
    · rw [run_apply_of_stage hstage] at hdry
      exact Run.summary_of_compare ht hs hdry h
    · have hagain : Run.stage s { d' with clock := now } = .ok staged := by
        rw [Run.stage_later]
        exact Run.stage_of_touched ht hp htouch (Settings.not_manages_document hv hp) he hstage
      have hset := (Run.settled_of_commit ht hs h).later hs now
      obtain ⟨report, rfl, -⟩ := Run.commit_eq_ok ht hs h
      refine ⟨hagain, ?_⟩
      rw [run_apply_of_stage hagain]
      cases mode with
      | write => exact Run.commit_of_settled hs hset
      | check => exact Run.compare_of_settled hs hset

theorem Settings.not_manages_of_dropLast {loc : Location}
    (h : ∀ t, loc.dropLast ≠ d.locate (s.outputDir t)) : ¬ s.Manages d loc := by
  rintro ⟨t, n, rfl⟩
  exact h t List.dropLast_concat

/-- Settings whose managed directories lie inside the schema directory and inside each other. -/
def nestedSettings : Settings :=
  { Settings.default with
    rustDir := ⟨"schemas/models"⟩
    typescriptDir := ⟨"schemas/models/client"⟩ }

/-- A disk with a document, and with stale and outdated files in both nested directories. -/
def nestedDisk : Disk :=
  ⟨[(["schemas"], .directory),
    (["schemas", "Point.yml"], .file "{name: Point, kind: static, attributes: []}".toUTF8 5),
    (["schemas", "models"], .directory),
    (["schemas", "models", "Gone.yml"], .file "".toUTF8 1),
    (["schemas", "models", "mod.rs"], .file "".toUTF8 2),
    (["schemas", "models", "client"], .directory),
    (["schemas", "models", "client", "mod.rs"], .file "".toUTF8 3)], [], 9⟩

theorem run_check_eq_and_settled_nested :
    nestedDisk.IsTree ∧ nestedSettings.validate = .ok () ∧ nestedSettings.IsPlain ∧
      ¬ nestedSettings.Manages nestedDisk (nestedDisk.locate nestedSettings.enumsFile) ∧
      ∃ sum d', run nestedSettings .write nestedDisk = (.ok sum, d') ∧
        run nestedSettings .check nestedDisk = (.ok sum, nestedDisk) ∧
        ∃ staged, Run.stage nestedSettings nestedDisk = .ok staged ∧ ∀ mode now,
          run nestedSettings mode { d' with clock := now } =
            (.ok { sum with written := [], unchanged := Run.fileCount staged.targets, removed := [] },
              { d' with clock := now }) := by
  have ht : nestedDisk.IsTree := by decide
  have hv : nestedSettings.validate = .ok () := by decide
  have hp : nestedSettings.IsPlain := by decide
  have he : ¬ nestedSettings.Manages nestedDisk (nestedDisk.locate nestedSettings.enumsFile) :=
    Settings.not_manages_of_dropLast fun t => by cases t <;> decide
  have hok : (run nestedSettings .write nestedDisk).1.toOption.isSome = true ∧
      (run nestedSettings .check nestedDisk).1.toOption.isSome = true := by
    decide +kernel
  rcases hrun : run nestedSettings .write nestedDisk with ⟨fault | sum, d'⟩
  · rw [hrun] at hok
    cases hok.1
  · obtain ⟨⟨hsame, hdry⟩, staged, hstage, hagain⟩ := run_check_eq_and_settled ht hv hp he hrun
    refine ⟨ht, hv, hp, he, sum, d', rfl, ?_, staged, hstage, fun mode now => (hagain mode now).2⟩
    rcases hcheck : run nestedSettings .check nestedDisk with ⟨fault | dry, d₂⟩
    · rw [hcheck] at hok
      cases hok.2
    · rw [hcheck] at hsame hdry
      obtain rfl := hdry dry rfl
      exact Prod.ext rfl hsame

end SchemaGen
