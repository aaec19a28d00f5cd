import Mathlib.Algebra.GroupWithZero.Nat
import SchemaGen.Proofs.Disk.Frames
import SchemaGen.Run.Pipeline

/-!
# Committing what was staged

The stale files of all targets go first, which never fails; then the targets are written one after
another, which may stop at any file. No target concerns a file directly inside the directory of
another one, also where one directory lies inside another, so every step can be judged by the disk
before the run.

Results:
1. `reconcileAll_apply`: the stale files of all targets are reported and erased, and nothing else.
2. `writeAll_eq_ok`: what a successful writing reports, and what the directories hold after it.
3. `commit_spec`: what happens to the files whatever the outcome.
4. `commit_eq_ok`: what a successful commit reports and leaves.
5. `touched_commit`: what a commit may touch, whatever the directories.
-/

namespace SchemaGen.Run

/-- Staged targets with proper names, each with a directory of its own, read from the working
directory `cwd`. -/
structure Separate (cwd : Location) (ts : List StagedTarget) : Prop where
  direct : ∀ t ∈ ts, t.dir.isDirect = true
  filled : ∀ t ∈ ts, t.dir.isEmpty = false
  named : ∀ t ∈ ts, ∀ f ∈ t.files.pairs, IsName f.1
  once : ∀ t ∈ ts, t.files.names.Nodup
  apart : ts.Pairwise fun a b => Location.resolve cwd a.dir ≠ Location.resolve cwd b.dir

/-- The locations directly inside the directory of a target. -/
def Within (d : Disk) (ts : List StagedTarget) (loc : Location) : Prop :=
  ∃ t ∈ ts, ∃ n, loc = d.locate t.dir ++ [n]

/-- The locations of the targets' files that do not hold their text. -/
def Outdated (d : Disk) (ts : List StagedTarget) (loc : Location) : Prop :=
  ∃ t ∈ ts, Action.outdated d (d.locate t.dir) t.files.pairs loc

/-- The locations of files directly inside the directory of a target that it has no file for. -/
def Stale (d : Disk) (ts : List StagedTarget) (loc : Location) : Prop :=
  (∃ c m, d.get? loc = some (.file c m)) ∧
    ∃ t ∈ ts, ∃ n, loc = d.locate t.dir ++ [n] ∧ n ∉ t.files.names

/-- The stale files of all targets. -/
def staleFiles (d : Disk) (ts : List StagedTarget) : List Path :=
  ts.flatMap fun t => d.stale t.dir t.files.names

variable {d d' : Disk} {cwd : Location} {t : StagedTarget} {ts : List StagedTarget} {loc : Location}

theorem Stale.within (h : Stale d ts loc) : Within d ts loc := by
  obtain ⟨-, t, ht, n, hl, -⟩ := h
  exact ⟨t, ht, n, hl⟩

namespace Separate

theorem tail (h : Separate cwd (t :: ts)) : Separate cwd ts :=
  ⟨fun u hu => h.direct u (List.mem_cons_of_mem _ hu), fun u hu => h.filled u (List.mem_cons_of_mem _ hu),
    fun u hu => h.named u (List.mem_cons_of_mem _ hu), fun u hu => h.once u (List.mem_cons_of_mem _ hu),
    (List.pairwise_cons.mp h.apart).2⟩

/-- The directory of the head is not the directory of another target. -/
theorem locate_ne (h : Separate d.cwd (t :: ts)) {u : StagedTarget} (hu : u ∈ ts) :
    d.locate t.dir ≠ d.locate u.dir := (List.pairwise_cons.mp h.apart).1 u hu

/-- What stands directly inside the directory of the head does so for no other target. -/
theorem append_ne (h : Separate d.cwd (t :: ts)) {u : StagedTarget} (hu : u ∈ ts) (m n : String) :
    d.locate t.dir ++ [m] ≠ d.locate u.dir ++ [n] :=
  fun he => h.locate_ne hu (List.append_inj' he rfl).1

/-- A directory belongs to one target. -/
theorem eq_of_locate_eq (h : Separate d.cwd ts) {t u : StagedTarget} (ht : t ∈ ts) (hu : u ∈ ts)
    (he : d.locate t.dir = d.locate u.dir) : t = u := by
  induction ts with
  | nil => cases ht
  | cons v rest ih =>
    rcases List.mem_cons.mp ht with rfl | ht'
    · rcases List.mem_cons.mp hu with rfl | hu'
      · rfl
      · exact absurd he (h.locate_ne hu')
    · rcases List.mem_cons.mp hu with rfl | hu'
      · exact absurd he.symm (h.locate_ne ht')
      · exact ih h.tail ht' hu'

/-- A stale file stands in no file's place. -/
theorem ne_of_stale (h : Separate d.cwd ts) (hs : Stale d ts loc) (ht : t ∈ ts) {f : String × String}
    (hf : f ∈ t.files.pairs) : loc ≠ d.locate t.dir ++ [f.1] := by
  obtain ⟨-, u, hu, n, rfl, hn⟩ := hs
  intro he
  obtain ⟨hl, hk⟩ := List.append_inj' he rfl
  obtain rfl := h.eq_of_locate_eq hu ht hl
  have hnf : n = f.1 := by simpa using hk
  exact hn (List.mem_map.mpr ⟨f, hf, hnf.symm⟩)

end Separate

/-! ## Removing -/

/-- The stale files of the targets are gone, and nothing else. -/
structure Cleared (ts : List StagedTarget) (d d' : Disk) : Prop where
  tree : d'.IsTree
  cwd : d'.cwd = d.cwd
  clock : d'.clock = d.clock
  gone : ∀ loc, Stale d ts loc → d'.get? loc = none
  kept : ∀ loc, ¬ Stale d ts loc → d'.get? loc = d.get? loc

theorem Cleared.touched (h : Cleared ts d d') : d.Touched (Stale d ts) d' := by
  refine ⟨h.tree, h.cwd, h.clock, fun loc hl c m => ?_, fun loc hd => ?_⟩
  · rw [h.kept loc hl]
  · rw [h.kept loc]
    · exact hd
    · rintro ⟨⟨c, m, hf⟩, -⟩
      rw [hf] at hd
      cases hd

/-- Reconciling the head leaves what is stale for the other targets. -/
theorem stale_eraseAll_iff (hs : Separate d.cwd (t :: ts)) (names : List String) :
    Stale (d.eraseAll (d.locate t.dir) names) ts loc ↔ Stale d ts loc := by
  have hkeep : ∀ u ∈ ts, ∀ n, loc = d.locate u.dir ++ [n] →
      (d.eraseAll (d.locate t.dir) names).get? loc = d.get? loc := by
    rintro u hu n rfl
    rw [Disk.get?_eraseAll, if_neg]
    rintro ⟨m, -, he⟩
    exact hs.append_ne hu m n he.symm
  have hcwd : (d.eraseAll (d.locate t.dir) names).cwd = d.cwd := Disk.cwd_eraseAll _ _ _
  unfold Stale
  constructor
  · rintro ⟨hf, u, hu, n, hl, hn⟩
    rw [Disk.locate_congr hcwd] at hl
    rw [hkeep u hu n hl] at hf
    exact ⟨hf, u, hu, n, hl, hn⟩
  · rintro ⟨hf, u, hu, n, hl, hn⟩
    rw [← hkeep u hu n hl] at hf
    exact ⟨hf, u, hu, n, by rw [Disk.locate_congr hcwd, hl], hn⟩

/-- A file is stale for the head, or for another target. -/
theorem stale_cons_iff (ht : d.IsTree) :
    Stale d (t :: ts) loc ↔
      (∃ n ∈ d.staleNames (d.locate t.dir) t.files.names, loc = d.locate t.dir ++ [n]) ∨
        Stale d ts loc := by
  unfold Stale
  constructor
  · rintro ⟨hf, u, hu, n, rfl, hn⟩
    rcases List.mem_cons.mp hu with rfl | hu
    · exact .inl ⟨n, (Disk.mem_staleNames_iff ht).mpr ⟨hf, hn⟩, rfl⟩
    · exact .inr ⟨hf, u, hu, n, rfl, hn⟩
  · rintro (⟨n, hn, rfl⟩ | ⟨hf, u, hu, n, hl, hn⟩)
    · obtain ⟨hf, hn⟩ := (Disk.mem_staleNames_iff ht).mp hn
      exact ⟨hf, t, List.mem_cons_self, n, rfl, hn⟩
    · exact ⟨hf, u, List.mem_cons_of_mem _ hu, n, hl, hn⟩

/-- Removing never fails: the stale files of all targets are reported and erased. -/
theorem reconcileAll_apply (ht : d.IsTree) (hs : Separate d.cwd ts) :
    ∃ d', reconcileAll ts d = (.ok (staleFiles d ts), d') ∧ Cleared ts d d' := by
  induction ts generalizing d with
  | nil => exact ⟨d, rfl, ht, rfl, rfl, by simp [Stale], by simp⟩
  | cons t rest ih =>
    have hp := hs.direct t List.mem_cons_self
    have hne := hs.filled t List.mem_cons_self
    have hfiles : ∀ n ∈ d.staleNames (d.locate t.dir) t.files.names,
        d.get? (d.locate t.dir ++ [n]) ≠ some .directory := by
      intro n hn hd
      obtain ⟨⟨c, m, hf⟩, -⟩ := (Disk.mem_staleNames_iff ht).mp hn
      rw [hf] at hd
      cases hd
    have htouch := Disk.touched_eraseAll ht hfiles
    obtain ⟨d', hr, hc⟩ := ih htouch.tree (htouch.cwd ▸ hs.tail)
    have hrest : staleFiles (d.eraseAll (d.locate t.dir)
        (d.staleNames (d.locate t.dir) t.files.names)) rest = staleFiles d rest := by
      unfold staleFiles
      refine List.flatMap_congr fun u hu => ?_
      exact Disk.stale_congr ht htouch.tree (hs.tail.direct u hu) (hs.tail.filled u hu) htouch.cwd
        (Disk.children_eraseAll (hs.locate_ne hu) d _) _
    refine ⟨d', ?_, hc.tree, hc.cwd.trans htouch.cwd, hc.clock.trans htouch.clock, ?_, ?_⟩
    · unfold reconcileAll
      rw [Action.bind_apply, Action.reconcile_apply ht hp hne]
      dsimp only
      rw [Action.bind_apply, hr, hrest]
      rfl
    · intro loc hl
      rcases (stale_cons_iff ht).mp hl with hhead | hrest
      · rw [hc.kept loc, Disk.get?_eraseAll, if_pos hhead]
        rintro ⟨⟨c, m, hf⟩, -⟩
        rw [Disk.get?_eraseAll, if_pos hhead] at hf
        cases hf
      · exact hc.gone loc ((stale_eraseAll_iff hs _).mpr hrest)
    · intro loc hl
      rw [stale_cons_iff ht, not_or] at hl
      rw [hc.kept loc fun h => hl.2 ((stale_eraseAll_iff hs _).mp h), Disk.get?_eraseAll, if_neg hl.1]

/-! ## Writing -/

/-- What a successful writing of the targets says about the disk before and after it. -/
structure WrittenAll (ts : List StagedTarget) (d d' : Disk) (report : WriteReport) : Prop where
  written : report.written = ts.flatMap fun t =>
    (t.files.pairs.filter fun f => !d.holds (d.locate t.dir ++ [f.1]) f.2).map fun f => t.dir.child f.1
  unchanged : report.unchanged = (ts.map fun t =>
    t.files.pairs.countP fun f => d.holds (d.locate t.dir ++ [f.1]) f.2).sum
  held : ∀ t ∈ ts, ∀ f ∈ t.files.pairs, d'.holds (d.locate t.dir ++ [f.1]) f.2 = true

/-- Of the disk before, what it holds in the places of the files matters only. -/
theorem WrittenAll.congr {d₁ : Disk} {report : WriteReport} (h : WrittenAll ts d₁ d' report)
    (hc : d₁.cwd = d.cwd) (hh : ∀ t ∈ ts, ∀ f ∈ t.files.pairs,
      d₁.holds (d.locate t.dir ++ [f.1]) f.2 = d.holds (d.locate t.dir ++ [f.1]) f.2) :
    WrittenAll ts d d' report := by
  have hl : ∀ p, d₁.locate p = d.locate p := Disk.locate_congr hc
  obtain ⟨hw, hu, hd⟩ := h
  simp only [hl] at hw hu hd
  refine ⟨?_, ?_, hd⟩
  · rw [hw]
    refine List.flatMap_congr fun t ht => congrArg _ (List.filter_congr fun f hf => ?_)
    rw [hh t ht f hf]
  · rw [hu]
    refine congrArg _ (List.map_congr_left fun t ht => List.countP_congr fun f hf => ?_)
    rw [hh t ht f hf]

theorem outdated_congr (hc : d'.cwd = d.cwd)
    (h : ∀ t ∈ ts, ∀ f ∈ t.files.pairs, ∀ c m, d'.get? (d.locate t.dir ++ [f.1]) = some (.file c m) ↔
      d.get? (d.locate t.dir ++ [f.1]) = some (.file c m)) (hl : Outdated d' ts loc) :
    Outdated d ts loc := by
  obtain ⟨t, ht, hl⟩ := hl
  rw [Disk.locate_congr hc] at hl
  exact ⟨t, ht, Action.outdated_congr (h t ht) hl⟩

/-- Writing the targets touches the places of their outdated files only, whatever the outcome. -/
theorem touched_writeAll (ht : d.IsTree) (hs : Separate d.cwd ts) :
    d.Touched (Outdated d ts) (writeAll ts d).2 := by
  induction ts generalizing d with
  | nil => exact .refl ht
  | cons t rest ih =>
    unfold writeAll
    have hhead := Action.touched_writeFiles ht (hs.direct t List.mem_cons_self)
      (hs.named t List.mem_cons_self) (hs.once t List.mem_cons_self)
    refine Action.touched_bind (hhead.mono fun l hl => ⟨t, List.mem_cons_self, hl⟩)
      fun _ d₁ hw _ => ?_
    rw [hw] at hhead
    refine Action.touched_bind ((ih hhead.tree (hhead.cwd ▸ hs.tail)).mono fun l hl => ?_)
      fun _ d₂ _ h₂ => .refl h₂.tree
    obtain ⟨u, hu, hl⟩ := outdated_congr hhead.cwd (fun u hu f _ => hhead.files _ (by
      rintro ⟨g, -, he, -⟩
      exact hs.append_ne hu g.1 f.1 he.symm)) hl
    exact ⟨u, List.mem_cons_of_mem _ hu, hl⟩

/-- A successful writing of the targets, target by target: no target writes into the places of
another one, so each is judged by the disk before, and what it wrote is there at the end. -/
theorem writeAll_eq_ok {report : WriteReport} (ht : d.IsTree) (hs : Separate d.cwd ts)
    (h : writeAll ts d = (.ok report, d')) : WrittenAll ts d d' report := by
  induction ts generalizing d report with
  | nil =>
    cases h
    exact ⟨rfl, rfl, by simp⟩
  | cons t rest ih =>
    have hp := hs.direct t List.mem_cons_self
    have hn := hs.named t List.mem_cons_self
    unfold writeAll at h
    obtain ⟨head, d₁, hw, h⟩ := Action.bind_eq_ok.mp h
    obtain ⟨more, d₂, hr, h⟩ := Action.bind_eq_ok.mp h
    cases h
    have hhead := Action.writeFiles_eq_ok ht hp hn (hs.once t List.mem_cons_self) hw
    have hframe := Action.touched_writeFiles ht hp hn (hs.once t List.mem_cons_self)
    rw [hw] at hframe
    have hmore : WrittenAll rest d d' more := by
      refine (ih hframe.tree (hframe.cwd ▸ hs.tail) hr).congr hframe.cwd fun u hu f _ => ?_
      refine Disk.holds_congr (hframe.files _ ?_) _
      rintro ⟨g, -, he, -⟩
      exact hs.append_ne hu g.1 f.1 he.symm
    refine ⟨?_, ?_, ?_⟩
    · simp only [List.flatMap_cons, hhead.written, hmore.written]
    · simp only [List.map_cons, List.sum_cons, hhead.unchanged, hmore.unchanged]
    · intro u hu f hf
      rcases List.mem_cons.mp hu with rfl | hu
      · have hrest := touched_writeAll hframe.tree (hframe.cwd ▸ hs.tail)
        rw [hr] at hrest
        rw [← hhead.held f hf]
        refine Disk.holds_congr (hrest.files _ ?_) _
        rintro ⟨v, hv, g, -, he, -⟩
        rw [Disk.locate_congr hframe.cwd] at he
        exact hs.append_ne hv f.1 g.1 he
      · exact hmore.held u hu f hf

/-! ## Committing -/

variable {staged : Staged}

/-- A commit touches stale and outdated files only, and leaves no stale one, whatever the outcome. -/
theorem commit_spec (ht : d.IsTree) (hs : Separate d.cwd staged.targets) :
    d.Touched (fun loc => Stale d staged.targets loc ∨ Outdated d staged.targets loc)
        (commit staged d).2 ∧
      ∀ loc, Stale d staged.targets loc → ∀ c m, (commit staged d).2.get? loc ≠ some (.file c m) := by
  obtain ⟨d₁, hr, hc⟩ := reconcileAll_apply ht hs
  have hwrite : d₁.Touched (Outdated d staged.targets) (writeAll staged.targets d₁).2 := by
    refine (touched_writeAll hc.tree (hc.cwd ▸ hs)).mono fun loc hl => ?_
    refine outdated_congr hc.cwd (fun t ht f hf c m => ?_) hl
    rw [hc.kept _ fun hl => hs.ne_of_stale hl ht hf rfl]
  have hd : (commit staged d).2 = (writeAll staged.targets d₁).2 := by
    unfold commit
    rw [Action.bind_apply, hr]
    dsimp only
    rw [Action.bind_apply]
    rcases writeAll staged.targets d₁ with ⟨_ | _, d₂⟩ <;> rfl
  rw [hd]
  constructor
  · exact (hc.touched.mono fun _ hl => .inl hl).trans (hwrite.mono fun _ hl => .inr hl)
  · intro loc hl c m hf
    rw [hwrite.files loc, hc.gone loc hl] at hf
    · cases hf
    · rintro ⟨t, ht, f, hm, he, -⟩
      exact hs.ne_of_stale hl ht hm he

/-- What a successful commit reports, and what it leaves: the stale files were removed, the files that
did not hold their text were written, and every file holds it. -/
theorem commit_eq_ok {sum : Summary} (ht : d.IsTree) (hs : Separate d.cwd staged.targets)
    (h : commit staged d = (.ok sum, d')) :
    ∃ report, sum = summary staged.catalog (staleFiles d staged.targets) report ∧
      WrittenAll staged.targets d d' report := by
  obtain ⟨d₁, hr, hc⟩ := reconcileAll_apply ht hs
  unfold commit at h
  obtain ⟨removed, d₂, hr', h⟩ := Action.bind_eq_ok.mp h
  rw [hr] at hr'
  cases hr'
  obtain ⟨report, d₃, hw, h⟩ := Action.bind_eq_ok.mp h
  cases h
  refine ⟨report, rfl, (writeAll_eq_ok hc.tree (hc.cwd ▸ hs) hw).congr hc.cwd fun t htm f hf => ?_⟩
  have hplace : ¬ Stale d staged.targets (d.locate t.dir ++ [f.1]) := fun hl =>
    hs.ne_of_stale hl htm hf rfl
  exact Disk.holds_congr (fun c m => by rw [hc.kept _ hplace]) _

/-! ## Any directories -/

theorem within_cons (h : d'.cwd = d.cwd) (hl : Within d' ts loc) : Within d (t :: ts) loc := by
  obtain ⟨u, hu, n, rfl⟩ := hl
  exact ⟨u, List.mem_cons_of_mem _ hu, n, by rw [Disk.locate_congr h]⟩

/-- Whatever the directories of the targets, only files directly inside them are removed. -/
theorem touched_reconcileAll (ht : d.IsTree) : d.Touched (Within d ts) (reconcileAll ts d).2 := by
  induction ts generalizing d with
  | nil => exact .refl ht
  | cons t rest ih =>
    have hhead : d.Touched (Within d (t :: rest)) (Action.reconcile t.dir t.files.names d).2 :=
      (Action.touched_reconcile ht _).mono fun _ hl => ⟨t, List.mem_cons_self, hl⟩
    unfold reconcileAll
    refine Action.touched_bind hhead fun _ d₁ _ h₁ => ?_
    exact Action.touched_bind ((ih h₁.tree).mono fun _ => within_cons h₁.cwd) fun _ d₂ _ h => .refl h.tree

/-- Whatever the directories of the targets, only files directly inside them are written. -/
theorem touched_writeAll_within (ht : d.IsTree) (hn : ∀ t ∈ ts, ∀ f ∈ t.files.pairs, IsName f.1) :
    d.Touched (Within d ts) (writeAll ts d).2 := by
  induction ts generalizing d with
  | nil => exact .refl ht
  | cons t rest ih =>
    have hhead : d.Touched (Within d (t :: rest)) (Action.writeFiles t.dir t.files d).2 :=
      (Action.touched_writeFiles_inside ht (hn t List.mem_cons_self)).mono fun _ hl =>
        ⟨t, List.mem_cons_self, hl⟩
    have hrest : ∀ u ∈ rest, ∀ f ∈ u.files.pairs, IsName f.1 := fun u hu => hn u (List.mem_cons_of_mem _ hu)
    unfold writeAll
    refine Action.touched_bind hhead fun _ d₁ _ h₁ => ?_
    exact Action.touched_bind ((ih h₁.tree hrest).mono fun _ => within_cons h₁.cwd) fun _ d₂ _ h => .refl h.tree

theorem touched_commit (ht : d.IsTree) (hn : ∀ t ∈ staged.targets, ∀ f ∈ t.files.pairs, IsName f.1) :
    d.Touched (Within d staged.targets) (commit staged d).2 := by
  unfold commit
  refine Action.touched_bind (touched_reconcileAll ht) fun _ d₁ _ h₁ => ?_
  have hwrite := touched_writeAll_within h₁.tree hn
  have hwithin : Within d₁ staged.targets = Within d staged.targets := by
    unfold Within
    simp only [Disk.locate_congr h₁.cwd]
  rw [hwithin] at hwrite
  exact Action.touched_bind hwrite fun _ d₂ _ h => .refl h.tree

end SchemaGen.Run
