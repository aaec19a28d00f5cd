import SchemaGen.Proofs.Run.Repetition

/-!
# Targets that are current

The targets are current on a disk when nothing is stale in their directories and every file holds its
text. That is what a check looks for, and what a run that writes leaves. It is told place by place, so
that a change can spoil it only in the places that it touches.

Results:
1. `rendered_unique`: what the targets have for a place.
2. `isUpToDate_compare_iff`: a check finds nothing to do exactly when the targets are current.
3. `current_of_commit`: what a successful commit leaves is current.
4. `current_iff_of_touched`, `current_at_iff`: what a change of some files leaves of it.
-/

namespace SchemaGen.Run

variable {S : Location → Prop} {s : Settings} {d d' : Disk} {cwd : Location} {ts : List StagedTarget}
  {staged : Staged} {loc : Location}

/-- What the targets have for a location. -/
def Rendered (d : Disk) (ts : List StagedTarget) (loc : Location) (text : String) : Prop :=
  ∃ t ∈ ts, ∃ f ∈ t.files.pairs, loc = d.locate t.dir ++ [f.1] ∧ text = f.2

/-- Nothing is stale for the targets, and every file holds its text. -/
structure Current (ts : List StagedTarget) (d : Disk) : Prop where
  clean : ∀ loc, ¬ Stale d ts loc
  held : ∀ loc text, Rendered d ts loc text → d.holds loc text = true

/-- Targets that are apart have one text for a location at most. -/
theorem rendered_unique (hs : Separate d.cwd ts) {a b : String} (ha : Rendered d ts loc a)
    (hb : Rendered d ts loc b) : a = b := by
  obtain ⟨t, ht, f, hf, rfl, rfl⟩ := ha
  obtain ⟨u, hu, g, hg, hl, rfl⟩ := hb
  obtain ⟨hdir, hname⟩ := List.append_inj' hl rfl
  obtain rfl := hs.eq_of_locate_eq ht hu hdir
  have hfg : f.1 = g.1 := by simpa using hname
  rw [List.inj_on_of_nodup_map (hs.once t ht) hf hg hfg]

theorem rendered_congr (h : d'.cwd = d.cwd) : Rendered d' ts = Rendered d ts := by
  unfold Rendered
  simp only [Disk.locate_congr h]

theorem within_congr (h : d'.cwd = d.cwd) : Within d' ts = Within d ts := by
  unfold Within
  simp only [Disk.locate_congr h]

/-! ## Checks -/

theorem staleFiles_eq_nil_iff (ht : d.IsTree) (hs : Separate d.cwd ts) :
    staleFiles d ts = [] ↔ ∀ loc, ¬ Stale d ts loc := by
  rw [List.eq_nil_iff_forall_not_mem]
  constructor
  · rintro h loc ⟨⟨c, m, hf⟩, t, hm, n, rfl, hn⟩
    exact h _ ((mem_staleFiles_iff ht hs).mpr ⟨t, hm, n, rfl, ⟨c, m, hf⟩, hn⟩)
  · intro h q hq
    obtain ⟨t, hm, n, -, hf, hn⟩ := (mem_staleFiles_iff ht hs).mp hq
    exact h _ ⟨hf, t, hm, n, rfl, hn⟩

theorem written_reportOn_eq_nil_iff : (reportOn d ts).written = [] ↔
    ∀ loc text, Rendered d ts loc text → d.holds loc text = true := by
  unfold reportOn
  simp only [List.flatMap_eq_nil_iff, List.map_eq_nil_iff, List.filter_eq_nil_iff, Bool.not_eq_true',
    Bool.not_eq_false]
  constructor
  · rintro h _ _ ⟨t, hm, f, hf, rfl, rfl⟩
    exact h t hm f hf
  · intro h t hm f hf
    exact h _ _ ⟨t, hm, f, hf, rfl, rfl⟩

/-- A check succeeds and finds nothing to do exactly when the targets are current. -/
theorem isUpToDate_compare_iff (ht : d.IsTree) (hs : Separate d.cwd staged.targets) :
    (∃ sum, (compare staged d).1 = .ok sum ∧ sum.isUpToDate = true) ↔ Current staged.targets d := by
  rw [compare_apply]
  constructor
  · rintro ⟨sum, hsum, hup⟩
    obtain ⟨⟨removed, report⟩, hcmp, rfl⟩ := map_eq_ok.mp hsum
    obtain ⟨rfl, rfl⟩ := compareAll_eq_ok ht hs hcmp
    have hnil : (reportOn d staged.targets).written = [] ∧ staleFiles d staged.targets = [] := by
      simpa [Summary.isUpToDate, summary] using hup
    exact ⟨(staleFiles_eq_nil_iff ht hs).mp hnil.2, written_reportOn_eq_nil_iff.mp hnil.1⟩
  · intro h
    have hclean := List.flatMap_eq_nil_iff.mp ((staleFiles_eq_nil_iff ht hs).mpr h.clean)
    have hheld : ∀ t ∈ staged.targets, ∀ f ∈ t.files.pairs, d.holds (d.locate t.dir ++ [f.1]) f.2 = true :=
      fun t hm f hf => h.held _ _ ⟨t, hm, f, hf, rfl, rfl⟩
    rw [compareAll_of_held ht hs hclean hheld]
    exact ⟨_, rfl, rfl⟩

/-- What a successful commit leaves is current. -/
theorem current_of_commit {sum : Summary} (ht : d.IsTree) (hs : Separate d.cwd staged.targets)
    (h : commit staged d = (.ok sum, d')) : Current staged.targets d' := by
  have hset := settled_of_commit ht hs h
  have hcwd : d'.cwd = d.cwd := by
    have := (commit_spec ht hs).1.cwd
    rwa [h] at this
  constructor
  case clean => exact (staleFiles_eq_nil_iff hset.tree (hcwd ▸ hs)).mp (List.flatMap_eq_nil_iff.mpr hset.clean)
  case held =>
    rintro _ _ ⟨t, hm, f, hf, rfl, rfl⟩
    exact hset.held t hm f hf

/-! ## Changes -/

/-- Whether something stale stands in a place depends on the file there only. -/
theorem stale_congr (hcwd : d'.cwd = d.cwd)
    (hf : ∀ c m, d'.get? loc = some (.file c m) ↔ d.get? loc = some (.file c m)) :
    Stale d' ts loc ↔ Stale d ts loc := by
  unfold Stale
  simp only [hf, Disk.locate_congr hcwd]

/-- After a change of some files, targets that were current still are exactly when they are in the places
of the change. -/
theorem current_iff_of_touched (h : d.Touched S d') (hc : Current ts d) :
    Current ts d' ↔ ∀ loc, S loc →
      ¬ Stale d' ts loc ∧ ∀ text, Rendered d' ts loc text → d'.holds loc text = true := by
  constructor
  · intro h' loc _
    exact ⟨h'.clean loc, h'.held loc⟩
  · intro h'
    constructor
    case clean =>
      intro loc hstale
      by_cases hl : S loc
      · exact (h' loc hl).1 hstale
      · exact hc.clean loc ((stale_congr h.cwd (h.files loc hl)).mp hstale)
    case held =>
      intro loc text hr
      by_cases hl : S loc
      · exact (h' loc hl).2 text hr
      · rw [Disk.holds_congr (h.files loc hl)]
        exact hc.held loc text (rendered_congr h.cwd ▸ hr)

theorem within_of_rendered {text : String} (h : Rendered d ts loc text) : Within d ts loc := by
  obtain ⟨t, hm, f, -, rfl, -⟩ := h
  exact ⟨t, hm, f.1, rfl⟩

/-- Where a file stands, nothing is wrong exactly when no target manages the place, or when the file
holds what a target has for it. -/
theorem current_at_iff (hs : Separate d.cwd ts) {c : ByteArray} {m : Int} (hf : d.get? loc = some (.file c m)) :
    (¬ Stale d ts loc ∧ ∀ text, Rendered d ts loc text → d.holds loc text = true) ↔
      (Within d ts loc → ∃ text, Rendered d ts loc text ∧ d.holds loc text = true) := by
  constructor
  · rintro ⟨hstale, hheld⟩ ⟨t, hm, n, rfl⟩
    have hn : n ∈ t.files.names := by
      by_contra hn
      exact hstale ⟨⟨c, m, hf⟩, t, hm, n, rfl, hn⟩
    obtain ⟨f, hfm, rfl⟩ := List.mem_map.mp hn
    exact ⟨f.2, ⟨t, hm, f, hfm, rfl, rfl⟩, hheld _ ⟨t, hm, f, hfm, rfl, rfl⟩⟩
  · intro h
    constructor
    · intro hstale
      obtain ⟨text, ⟨t, hm, f, hfm, rfl, -⟩, -⟩ := h hstale.within
      exact hs.ne_of_stale hstale hm hfm rfl
    · intro text hr
      obtain ⟨other, hother, hheld⟩ := h (within_of_rendered hr)
      rw [rendered_unique hs hr hother]
      exact hheld

/-! ## Runs -/

/-- The places of the targets are those that the settings manage. -/
theorem within_iff_manages (h : stage s d = .ok staged) : Within d staged.targets loc ↔ s.Manages d loc := by
  refine ⟨manages_of_within h, ?_⟩
  rintro ⟨t, n, rfl⟩
  obtain ⟨-, files, hts, -⟩ := stage_files h
  exact ⟨⟨s.outputDir t, files t⟩, hts ▸ List.mem_map_of_mem t.mem_all, n, rfl⟩

end SchemaGen.Run
