import SchemaGen.Program.Command
import SchemaGen.Proofs.Run.Reloading

/-!
# Starting the program

Before it runs, the program reads its arguments, loads its configuration and starts its log. Started again
after a change that spares the settings files, it has the same configuration. Where its log is ready,
with the directory made and the file in its place, starting it changes nothing.

Results:
1. `read?_check`: the request of a run, with a check asked for besides.
2. `startLog_spec`: what starting the log changes and leaves.
3. `startLog_of_ready`, `Logging.Ready.again`: a log that is ready is started without a change.
4. `configuration_of_touched`, `configuration_later`: the configuration is loaded again.
-/

namespace SchemaGen.Program

/-! ## Requests -/

namespace Request

variable {config asked : Option Path} {mode : Mode} {args : List String}

theorem short?_ne_run (arg : String) : short? arg ≠ some (.run asked mode) := by
  unfold short?
  split <;> simp

/-- Once a check is asked for, a run is a check. -/
theorem mode_of_readFrom? (h : readFrom? config true args = some (.run asked mode)) : mode = .check := by
  generalize hcheck : true = check at h
  fun_induction readFrom? config check args with
  | case1 | case2 =>
    subst hcheck
    cases h
    rfl
  | case7 _ _ _ hno => exact absurd hcheck.symm hno
  | case8 _ _ _ _ _ _ _ _ _ _ _ ih => exact ih hcheck h
  | case12 _ _ _ _ _ _ _ _ _ _ _ _ ih => exact ih hcheck h
  | case13 => exact absurd h (short?_ne_run _)
  | _ => cases h

theorem readFrom?_check (h : readFrom? config false args = some (.run asked .write)) :
    readFrom? config true args = some (.run asked .check) := by
  generalize hcheck : false = check at h
  fun_induction readFrom? config check args with
  | case1 =>
    subst hcheck
    cases h
    rfl
  | case2 _ _ _ hrest =>
    subst hcheck
    cases h
    unfold readFrom?
    rw [if_pos rfl, if_pos hrest]
    rfl
  | case7 =>
    -- behind a `--check` no run writes
    cases mode_of_readFrom? h
  | case8 _ _ _ hend hhelp hversion hcheck' hconfig _ _ hvalue ih =>
    unfold readFrom?
    rw [if_neg hend, if_neg hhelp, if_neg hversion, if_neg hcheck', if_pos hconfig]
    dsimp only
    rw [if_pos hvalue]
    exact ih hcheck h
  | case12 _ _ _ _ hend hhelp hversion hcheck' hconfig _ hattached hvalue ih =>
    unfold readFrom?
    rw [if_neg hend, if_neg hhelp, if_neg hversion, if_neg hcheck', if_neg hconfig, hattached]
    dsimp only
    rw [if_neg hvalue]
    exact ih hcheck h
  | case13 => exact absurd h (short?_ne_run _)
  | _ => cases h

/-- A check asked for before all else makes a run that writes a check with the same settings file. -/
theorem read?_check (h : read? args = some (.run asked .write)) :
    read? ("--check" :: args) = some (.run asked .check) := by
  unfold read? readFrom?
  rw [if_neg (by decide), if_neg (by decide), if_neg (by decide), if_pos rfl]
  exact readFrom?_check h

end Request

variable {S : Location → Prop} {d d' : Disk}

/-! ## The log -/

namespace Logging

/-- The location that the log is written to, if it goes to a file. -/
def Writes (l : Logging) (d : Disk) (loc : Location) : Prop := l.toFile = true ∧ loc = d.locate l.file

/-- If the log goes to a file, its directory is made and its file is in place. -/
structure Ready (l : Logging) (d : Disk) : Prop where
  directory : l.toFile = true → l.directory.isEmpty = true ∨ d.isDirectory l.directory = true
  file : l.toFile = true → d.isFile l.file = true

end Logging

variable {l : Logging} {p : Path}

theorem openLog_eq_ok (ht : d.IsTree) (h : openLog d p = .ok d') :
    d.Touched (· = d.locate p) d' ∧ d'.isFile p = true := by
  unfold openLog at h
  split at h
  · next hf =>
    cases h
    exact ⟨.refl ht, hf⟩
  · exact ⟨Disk.touched_write ht h, Disk.isFile_of_write ht h⟩

/-- Opening a log touches its location only, and leaves a file there if it succeeds. -/
theorem createLog_spec (ht : d.IsTree) {created : Bool} (h : createLog d p = (created, d')) :
    d.Touched (· = d.locate p) d' ∧ (created = true → d'.isFile p = true) := by
  unfold createLog at h
  split at h
  · next d₁ ho =>
    cases h
    exact (openLog_eq_ok ht ho).imp_right fun hf _ => hf
  · cases h
    exact ⟨.refl ht, nofun⟩
  · next parent _ _ =>
    have hmade := Disk.touched_makeDirectories (S := (· = d.locate p)) ht parent
    split at h
    · next hm =>
      cases h
      rw [hm] at hmade
      exact ⟨hmade, nofun⟩
    · next d₁ hm =>
      rw [hm] at hmade
      split at h
      · next d₂ ho =>
        cases h
        obtain ⟨hopen, hf⟩ := openLog_eq_ok hmade.tree ho
        rw [Disk.locate_congr hmade.cwd] at hopen
        exact ⟨hmade.trans hopen, fun _ => hf⟩
      · cases h
        exact ⟨hmade, nofun⟩

/-- Starting the log touches its location only, and leaves the log ready if it succeeds. -/
theorem startLog_spec (ht : d.IsTree) {status : Option Status} (h : startLog l d = (status, d')) :
    d.Touched (l.Writes d) d' ∧ (status = none → l.Ready d') ∧ status ≠ some .success := by
  unfold startLog at h
  split at h
  · next hfile =>
    have hmade := Disk.touched_makeDirectories (S := l.Writes d) ht l.directory
    split at h
    · next hm =>
      cases h
      rw [hm] at hmade
      exact ⟨hmade, nofun, nofun⟩
    · next d₁ hm =>
      rw [hm] at hmade
      have hcreate : ∀ {created : Bool} {d₂ : Disk}, createLog d₁ l.file = (created, d₂) →
          d.Touched (l.Writes d) d₂ ∧ (created = true → l.Ready d₂) := by
        intro created d₂ hc
        obtain ⟨hlog, hf⟩ := createLog_spec hmade.tree hc
        rw [Disk.locate_congr hmade.cwd] at hlog
        refine ⟨hmade.trans (hlog.mono fun _ hl => ⟨hfile, hl⟩), fun hok => ⟨fun _ => ?_, fun _ => hf hok⟩⟩
        cases he : l.directory.isEmpty with
        | true => exact .inl rfl
        | false =>
          exact .inr (Disk.isDirectory_again hmade.tree hlog (Disk.isDirectory_of_makeDirectories ht he hm))
      split at h
      · next d₂ hc =>
        cases h
        exact ⟨(hcreate hc).1, fun _ => (hcreate hc).2 rfl, nofun⟩
      · next d₂ hc =>
        cases h
        exact ⟨(hcreate hc).1, nofun, nofun⟩
  · next hfile =>
    cases h
    exact ⟨.refl ht, fun _ => ⟨fun ht => absurd ht hfile, fun ht => absurd ht hfile⟩, nofun⟩

/-- Starting a log that is ready changes nothing. -/
theorem startLog_of_ready (h : l.Ready d) : startLog l d = (none, d) := by
  unfold startLog
  split
  · next hfile =>
    have hmade : d.makeDirectories l.directory = (.ok (), d) :=
      (h.directory hfile).elim Disk.makeDirectories_of_isEmpty Disk.makeDirectories_of_isDirectory
    have hlog : createLog d l.file = (true, d) := by
      unfold createLog openLog
      rw [if_pos (h.file hfile)]
    rw [hmade]
    dsimp only
    rw [hlog]
  · rfl

/-- A log that was ready still is where a file stands in its place. -/
theorem Logging.Ready.again (h : l.Ready d) (ht : d.IsTree) (htouch : d.Touched S d')
    (hf : ∀ loc, l.Writes d loc → ∃ c m, d'.get? loc = some (.file c m)) : l.Ready d' where
  directory hfile := (h.directory hfile).imp_right (Disk.isDirectory_again ht htouch)
  file hfile := Disk.isFile_again ht htouch (h.file hfile) (hf _ ⟨hfile, rfl⟩)

theorem Logging.Ready.later (h : l.Ready d) (now : Int) : l.Ready { d with clock := now } where
  directory hfile := by
    rw [Disk.isDirectory_later]
    exact h.directory hfile
  file hfile := by
    rw [Disk.isFile_later]
    exact h.file hfile

/-- Where a log is ready its file stands. -/
theorem Logging.Ready.get? (h : l.Ready d) (ht : d.IsTree) {loc : Location} (hl : l.Writes d loc) :
    ∃ c m, d.get? loc = some (.file c m) := by
  obtain ⟨hfile, rfl⟩ := hl
  obtain ⟨c, m, hr⟩ := Disk.isFile_iff_read.mp (h.file hfile)
  exact ⟨c, m, Disk.read_eq_ok ht hr⟩

/-! ## The configuration -/

namespace Configuration

variable {asked : Option Path} {env : Environment}

/-- The files that the settings are looked for in. -/
def files (asked : Option Path) : List Path :=
  let p := asked.getD defaultFile
  p :: (withExtension? p).toList

theorem mem_files_iff {q : Path} :
    q ∈ files asked ↔ q = asked.getD defaultFile ∨ withExtension? (asked.getD defaultFile) = some q := by
  simp [files, Option.mem_toList, eq_comm]

/-- A direct path with one more extension is direct. -/
theorem isDirect_withExtension? (hp : p.isDirect = true) {q : Path} (h : withExtension? p = some q) :
    q.isDirect = true := by
  obtain ⟨n, hn, rfl⟩ := Option.map_eq_some_iff.mp h
  obtain ⟨parent, hparent, hname, hdirect, -⟩ := Path.parent?_of_fileName? hn
  rw [hparent]
  exact Path.isDirect_child (hdirect.trans hp) (hname.append (by decide) (by decide))

theorem isDirect_of_mem_files (hp : (asked.getD defaultFile).isDirect = true) {q : Path} (h : q ∈ files asked) :
    q.isDirect = true := by
  rcases mem_files_iff.mp h with rfl | h
  · exact hp
  · exact isDirect_withExtension? hp h

theorem mem_files_of_file? {q : Path} (h : file? d (asked.getD defaultFile) = some q) :
    q ∈ files asked ∧ d.isFile q = true := by
  rw [mem_files_iff]
  unfold file? at h
  split at h
  · next hf =>
    split at h
    · cases h
      exact ⟨.inl rfl, hf⟩
    · cases h
  · split at h
    · next r hr =>
      split at h
      · next hf =>
        cases h
        exact ⟨.inr hr, hf⟩
      · cases h
    · cases h

/-- Where the files that the settings are looked for in read alike, the settings have the same text. -/
theorem fileText?_congr (hf : ∀ p ∈ files asked, d'.isFile p = d.isFile p)
    (hr : ∀ p ∈ files asked, d.isFile p = true → d'.read p = d.read p) :
    fileText? d' (asked.getD defaultFile) = fileText? d (asked.getD defaultFile) := by
  have hfile : file? d' (asked.getD defaultFile) = file? d (asked.getD defaultFile) := by
    unfold file?
    rw [hf _ (mem_files_iff.mpr (.inl rfl))]
    cases he : withExtension? (asked.getD defaultFile) with
    | none => rfl
    | some q =>
      dsimp only
      rw [hf q (mem_files_iff.mpr (.inr he))]
  unfold fileText?
  rw [hfile]
  cases hq : file? d (asked.getD defaultFile) with
  | none => rfl
  | some q =>
    obtain ⟨hm, hfq⟩ := mem_files_of_file? hq
    dsimp only [Option.bind_eq_bind, Option.bind_some]
    rw [hr q hm hfq]

end Configuration

variable {asked : Option Path} {env : Environment}

theorem configuration_congr (h : Configuration.fileText? d' (asked.getD Configuration.defaultFile) =
    Configuration.fileText? d (asked.getD Configuration.defaultFile)) :
    configuration asked env d' = configuration asked env d := by
  have hlayer : Configuration.fileLayer d' asked = Configuration.fileLayer d asked := by
    unfold Configuration.fileLayer
    simp only [h]
  unfold configuration Configuration.load
  rw [hlayer]

/-- After a change that spared the settings files the configuration is the same. -/
theorem configuration_of_touched (ht : d.IsTree) (hp : (asked.getD Configuration.defaultFile).isDirect = true)
    (h : d.Touched S d') (hs : ∀ p ∈ Configuration.files asked, ¬ S (d.locate p)) :
    configuration asked env d' = configuration asked env d := by
  refine configuration_congr (Configuration.fileText?_congr (fun p hm => ?_) fun p hm hf => ?_)
  · exact Disk.isFile_of_touched ht (Configuration.isDirect_of_mem_files hp hm) h (hs p hm)
  · obtain ⟨c, m, hr⟩ := Disk.isFile_iff_read.mp hf
    rw [hr, Disk.read_iff_of_touched ht (Configuration.isDirect_of_mem_files hp hm) h (hs p hm)]
    exact hr

/-- The configuration does not depend on the time. -/
theorem configuration_later (asked : Option Path) (env : Environment) (d : Disk) (now : Int) :
    configuration asked env { d with clock := now } = configuration asked env d :=
  configuration_congr (Configuration.fileText?_congr (fun p _ => d.isFile_later now p)
    fun p _ _ => d.read_later now p)

end SchemaGen.Program
