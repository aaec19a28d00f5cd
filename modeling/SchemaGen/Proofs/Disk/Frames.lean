import SchemaGen.Proofs.Disk.Managing

/-!
# What managing a directory may touch

Whatever the path of a managed directory, reconciling it and writing its files changes no file but those
directly inside it, and no directory goes, whether the action succeeds or fails on the way. The names of
what is removed are proper since the directory lists them; those of what is written must be.

Results:
1. `touched_reconcile`: what reconciling may touch.
2. `touched_writeFiles_inside`: what writing may touch.
-/

namespace SchemaGen

/-- The locations directly inside the directory that the path leads to. -/
def Disk.Inside (d : Disk) (dir : Path) (loc : Location) : Prop := ∃ n, loc = d.locate dir ++ [n]

namespace Disk

variable {d d' : Disk} {dir : Path}

theorem inside_congr (h : d'.cwd = d.cwd) : d'.Inside dir = d.Inside dir := by
  unfold Inside
  rw [locate_congr h]

/-- The stale files of a directory are among what it lists. -/
theorem exists_isName_of_mem_stale (ht : d.IsTree) {expected : List String} {p : Path}
    (h : p ∈ d.stale dir expected) : ∃ n, IsName n ∧ p = dir.child n := by
  unfold stale at h
  split at h
  · split at h
    · next entries hl =>
      obtain ⟨e, he, rfl⟩ := List.mem_map.mp h
      exact ⟨e.1, ht.isName_last (get?_of_mem_list ht hl (List.mem_filter.mp he).1), rfl⟩
    · cases h
  · cases h

end Disk

namespace Action

variable {d : Disk} {dir : Path}

theorem touched_change_removeFile (ht : d.IsTree) {n : String} (hn : IsName n) :
    d.Touched (d.Inside dir) (change (dir.child n) (fun d => d.removeFile (dir.child n)) d).2 := by
  unfold change
  dsimp only
  split
  · next d' h =>
    refine (Disk.touched_removeFile ht h).mono fun loc hl => ⟨n, ?_⟩
    rw [hl, Disk.locate_child dir hn]
  · exact .refl ht

theorem touched_removeAll (ht : d.IsTree) {paths : List Path}
    (hp : ∀ p ∈ paths, ∃ n, IsName n ∧ p = dir.child n) :
    d.Touched (d.Inside dir) (removeAll paths d).2 := by
  induction paths generalizing d with
  | nil => exact .refl ht
  | cons p rest ih =>
    obtain ⟨n, hn, rfl⟩ := hp p List.mem_cons_self
    refine touched_bind (touched_change_removeFile ht hn) fun _ d₁ _ h₁ => ?_
    rw [← Disk.inside_congr h₁.cwd]
    exact ih h₁.tree fun q hq => hp q (List.mem_cons_of_mem _ hq)

theorem touched_reconcile (ht : d.IsTree) (expected : List String) :
    d.Touched (d.Inside dir) (reconcile dir expected d).2 := by
  unfold reconcile
  refine touched_bind (.refl ht) fun stale d₁ hs _ => ?_
  obtain ⟨hstale, rfl⟩ := reads_eq_ok.mp hs
  cases hstale
  exact touched_bind (touched_removeAll ht fun p => Disk.exists_isName_of_mem_stale ht) fun _ d₂ _ h => .refl h.tree

theorem touched_writeAll_inside (ht : d.IsTree) {files : List (String × String)}
    (hn : ∀ f ∈ files, IsName f.1) : d.Touched (d.Inside dir) (writeAll dir files d).2 := by
  induction files generalizing d with
  | nil => exact .refl ht
  | cons f rest ih =>
    have hrest : ∀ d₁, d.Touched (d.Inside dir) d₁ → d₁.Touched (d.Inside dir) (writeAll dir rest d₁).2 := by
      intro d₁ h₁
      rw [← Disk.inside_congr h₁.cwd]
      exact ih h₁.tree fun g hg => hn g (List.mem_cons_of_mem _ hg)
    unfold writeAll
    refine touched_bind (.refl ht) fun current d₁ hr _ => ?_
    obtain ⟨-, rfl⟩ := reads_eq_ok.mp hr
    cases current with
    | true => exact touched_bind (hrest d₁ (.refl ht)) fun _ d₂ _ h => .refl h.tree
    | false =>
      have hwrite : d₁.Touched (d₁.Inside dir) (change (dir.child f.1)
          (fun d => d.write (dir.child f.1) f.2.toUTF8) d₁).2 :=
        (touched_change_write ht dir (hn f List.mem_cons_self) _).mono fun loc hl => ⟨f.1, hl⟩
      refine touched_bind hwrite fun _ d₂ _ h₂ => ?_
      exact touched_bind (hrest d₂ h₂) fun _ d₃ _ h => .refl h.tree

theorem touched_writeFiles_inside (ht : d.IsTree) {files : NameMap String}
    (hn : ∀ f ∈ files.pairs, IsName f.1) : d.Touched (d.Inside dir) (writeFiles dir files d).2 := by
  unfold writeFiles
  refine touched_bind (touched_makeDirectories ht dir) fun _ d₁ _ h₁ => ?_
  rw [← Disk.inside_congr h₁.cwd]
  exact touched_writeAll_inside h₁.tree hn

end Action

end SchemaGen
