import Mathlib.Data.List.Basic
import Mathlib.Data.List.Induction
import SchemaGen.Disk.Basic
import SchemaGen.Proofs.PlainPath

/-!
# Disks that are trees

On the disk of a real machine every entry has one location, bears a proper name and lies in a
directory, and the working directory is there. `IsTree` says so, and every change that the program
makes keeps it:

* an entry may be put where no directory stands, inside a directory;
* a file may be erased.

Results:
1. `IsTree.mem_children_iff`: what a directory lists.
2. `IsTree.directory_of_prefix`: everything around an entry is a directory.
3. `IsTree.put`, `IsTree.erase`: the changes that keep a tree.
-/

namespace SchemaGen

instance : DecidableEq Entry
  | .file c m, .file c' m' =>
    have : DecidableEq ByteArray := ByteArray.instDecidableEq
    decidable_of_iff (c = c' ∧ m = m') (by rw [Entry.file.injEq])
  | .directory, .directory => isTrue rfl
  | .file _ _, .directory => isFalse Entry.noConfusion
  | .directory, .file _ _ => isFalse Entry.noConfusion

namespace Disk

/-- The entries form one tree below the root. -/
structure IsTree (d : Disk) : Prop where
  unique : (d.entries.map Prod.fst).Nodup
  below : ∀ p ∈ d.entries, p.1 ≠ []
  named : ∀ p ∈ d.entries, ∀ n ∈ p.1, IsName n
  around : ∀ p ∈ d.entries, d.get? p.1.dropLast = some .directory
  working : d.get? d.cwd = some .directory

instance (d : Disk) : Decidable d.IsTree :=
  decidable_of_iff
    ((d.entries.map Prod.fst).Nodup ∧ (∀ p ∈ d.entries, p.1 ≠ []) ∧
      (∀ p ∈ d.entries, ∀ n ∈ p.1, IsName n) ∧
      (∀ p ∈ d.entries, d.get? p.1.dropLast = some .directory) ∧ d.get? d.cwd = some .directory)
    ⟨fun ⟨u, b, n, a, w⟩ => ⟨u, b, n, a, w⟩, fun h => ⟨h.unique, h.below, h.named, h.around, h.working⟩⟩

/-! ## Looking up -/

theorem get?_nil (d : Disk) : d.get? [] = some .directory := by simp [get?]

theorem mem_of_lookup {loc : Location} {e : Entry} {entries : List (Location × Entry)}
    (h : lookup loc entries = some e) : (loc, e) ∈ entries := by
  induction entries with
  | nil => simp [lookup] at h
  | cons p rest ih =>
    obtain ⟨other, f⟩ := p
    unfold lookup at h
    split at h
    · next he =>
      subst he
      cases h
      exact List.mem_cons_self
    · exact List.mem_cons_of_mem _ (ih h)

theorem lookup_of_mem {loc : Location} {e : Entry} {entries : List (Location × Entry)}
    (hu : (entries.map Prod.fst).Nodup) (h : (loc, e) ∈ entries) : lookup loc entries = some e := by
  induction entries with
  | nil => cases h
  | cons p rest ih =>
    obtain ⟨other, f⟩ := p
    rw [List.map_cons, List.nodup_cons] at hu
    rcases List.mem_cons.mp h with he | hr
    · cases he
      simp [lookup]
    · have hne : other ≠ loc := by
        rintro rfl
        exact hu.1 (List.mem_map.mpr ⟨(other, e), hr, rfl⟩)
      unfold lookup
      rw [if_neg hne]
      exact ih hu.2 hr

/-- Whatever stands below the root is an entry of its own. -/
theorem mem_entries_of_get? {d : Disk} {loc : Location} {e : Entry} (hne : loc ≠ [])
    (h : d.get? loc = some e) : (loc, e) ∈ d.entries := by
  unfold get? at h
  rw [if_neg hne] at h
  exact mem_of_lookup h

/-- An entry is listed by the directory around it, under the last name of its location. -/
theorem child_eq_some_iff {loc : Location} {p : Location × Entry} {q : String × Entry} :
    (if p.1.dropLast = loc then p.1.getLast?.map fun name => (name, p.2) else none) = some q ↔
      p.1 = loc ++ [q.1] ∧ p.2 = q.2 := by
  constructor
  · intro h
    split at h
    · next hd =>
      obtain ⟨n, hl, rfl⟩ := Option.map_eq_some_iff.mp h
      rw [← hd]
      exact ⟨(List.dropLast_append_getLast? n hl).symm, rfl⟩
    · cases h
  · rintro ⟨hp, he⟩
    rw [hp, he]
    simp

namespace IsTree

variable {d : Disk}

theorem mem_entries_iff (h : d.IsTree) {loc : Location} {e : Entry} :
    (loc, e) ∈ d.entries ↔ loc ≠ [] ∧ d.get? loc = some e := by
  constructor
  · intro hm
    have hne := h.below _ hm
    refine ⟨hne, ?_⟩
    unfold get?
    rw [if_neg hne]
    exact lookup_of_mem h.unique hm
  · rintro ⟨hne, hg⟩
    exact mem_entries_of_get? hne hg

theorem isName (h : d.IsTree) {loc : Location} {e : Entry} (hg : d.get? loc = some e) :
    ∀ n ∈ loc, IsName n := by
  by_cases hne : loc = []
  · subst hne
    simp
  · exact h.named _ (mem_entries_of_get? hne hg)

theorem isName_last (h : d.IsTree) {loc : Location} {n : String} {e : Entry}
    (hg : d.get? (loc ++ [n]) = some e) : IsName n :=
  h.isName hg n (by simp)

theorem directory_dropLast (h : d.IsTree) {loc : Location} {e : Entry} (hg : d.get? loc = some e) :
    d.get? loc.dropLast = some .directory := by
  by_cases hne : loc = []
  · subst hne
    exact d.get?_nil
  · exact h.around _ (mem_entries_of_get? hne hg)

theorem directory_of_child (h : d.IsTree) {loc : Location} {n : String} {e : Entry}
    (hg : d.get? (loc ++ [n]) = some e) : d.get? loc = some .directory := by
  simpa using h.directory_dropLast hg

/-- Everything on the way to an entry is a directory. -/
theorem directory_of_prefix (h : d.IsTree) {loc rest : Location} {e : Entry} (hne : rest ≠ [])
    (hg : d.get? (loc ++ rest) = some e) : d.get? loc = some .directory := by
  induction rest using List.reverseRecOn generalizing e with
  | nil => exact absurd rfl hne
  | append_singleton rest n ih =>
    rw [← List.append_assoc] at hg
    have hd := h.directory_of_child hg
    by_cases hr : rest = []
    · simpa [hr] using hd
    · exact ih hr hd

/-- A directory above a directory is one. -/
theorem directory_of_le (h : d.IsTree) {loc target : Location} (hp : loc <+: target)
    (hg : d.get? target = some .directory) : d.get? loc = some .directory := by
  obtain ⟨rest, rfl⟩ := hp
  by_cases hr : rest = []
  · simpa [hr] using hg
  · exact h.directory_of_prefix hr hg

/-! ## Listing -/

theorem mem_children_iff (h : d.IsTree) {loc : Location} {n : String} {e : Entry} :
    (n, e) ∈ d.children loc ↔ d.get? (loc ++ [n]) = some e := by
  unfold children
  rw [List.mem_filterMap]
  constructor
  · rintro ⟨⟨other, f⟩, hm, hs⟩
    obtain ⟨ho, rfl⟩ := child_eq_some_iff.mp hs
    exact ho ▸ (h.mem_entries_iff.mp hm).2
  · intro hg
    exact ⟨(loc ++ [n], e), h.mem_entries_iff.mpr ⟨by simp, hg⟩, child_eq_some_iff.mpr ⟨rfl, rfl⟩⟩

/-- A directory lists each name once. -/
theorem nodup_children (h : d.IsTree) (loc : Location) :
    ((d.children loc).map Prod.fst).Nodup := by
  have hu := h.unique
  unfold children
  generalize d.entries = entries at hu
  induction entries with
  | nil => exact List.nodup_nil
  | cons p rest ih =>
    rw [List.map_cons, List.nodup_cons] at hu
    rw [List.filterMap_cons]
    split
    · exact ih hu.2
    · next q hq =>
      obtain ⟨hp, -⟩ := child_eq_some_iff.mp hq
      rw [List.map_cons, List.nodup_cons]
      refine ⟨?_, ih hu.2⟩
      intro hm
      obtain ⟨q', hq', hn⟩ := List.mem_map.mp hm
      obtain ⟨p', hp', hs⟩ := List.mem_filterMap.mp hq'
      obtain ⟨hl, -⟩ := child_eq_some_iff.mp hs
      -- both entries stand in one directory under one name
      have he : p'.1 = p.1 := by rw [hl, hp, hn]
      exact hu.1 (List.mem_map.mpr ⟨p', hp', he⟩)

/-! ## Changes -/

theorem mem_filter_ne {loc : Location} {p : Location × Entry} {entries : List (Location × Entry)} :
    p ∈ entries.filter (fun q => q.1 != loc) ↔ p ∈ entries ∧ p.1 ≠ loc := by
  simp

theorem nodup_filter_ne {entries : List (Location × Entry)} (hu : (entries.map Prod.fst).Nodup)
    (loc : Location) : ((entries.filter fun q => q.1 != loc).map Prod.fst).Nodup :=
  hu.sublist (List.filter_sublist.map _)

/-- Putting an entry into a directory, where no directory stands, keeps a tree. -/
theorem put (h : d.IsTree) {loc : Location} {n : String} {e : Entry} (hn : IsName n)
    (hd : d.get? loc = some .directory) (hfree : d.get? (loc ++ [n]) ≠ some .directory) :
    (d.put (loc ++ [n]) e).IsTree := by
  have hne : loc ++ [n] ≠ [] := by simp
  have keeps : ∀ l, d.get? l = some .directory →
      (d.put (loc ++ [n]) e).get? l = some .directory := by
    intro l hl
    rw [get?_put _ _ _ _ hne, if_neg]
    · exact hl
    · rintro rfl
      exact hfree hl
  constructor
  · show (((loc ++ [n], e) :: d.entries.filter fun q => q.1 != loc ++ [n]).map Prod.fst).Nodup
    rw [List.map_cons, List.nodup_cons]
    refine ⟨?_, nodup_filter_ne h.unique _⟩
    intro hm
    obtain ⟨p, hp, he⟩ := List.mem_map.mp hm
    exact (mem_filter_ne.mp hp).2 he
  · intro p hp
    rcases List.mem_cons.mp hp with rfl | hp
    · exact hne
    · exact h.below p (mem_filter_ne.mp hp).1
  · intro p hp
    rcases List.mem_cons.mp hp with rfl | hp
    · intro m hm
      rcases List.mem_append.mp hm with hm | hm
      · exact h.isName hd m hm
      · rw [List.mem_singleton.mp hm]
        exact hn
    · exact h.named p (mem_filter_ne.mp hp).1
  · intro p hp
    rcases List.mem_cons.mp hp with rfl | hp
    · exact keeps _ (by simpa using hd)
    · exact keeps _ (h.around p (mem_filter_ne.mp hp).1)
  · exact keeps _ h.working

/-- Erasing what is no directory keeps a tree. -/
theorem erase (h : d.IsTree) {loc : Location} (hfree : d.get? loc ≠ some .directory) :
    (d.erase loc).IsTree := by
  have hne : loc ≠ [] := by
    rintro rfl
    exact hfree d.get?_nil
  have keeps : ∀ l, d.get? l = some .directory → (d.erase loc).get? l = some .directory := by
    intro l hl
    rw [get?_erase _ _ _ hne, if_neg]
    · exact hl
    · rintro rfl
      exact hfree hl
  constructor
  · exact nodup_filter_ne h.unique _
  · exact fun p hp => h.below p (mem_filter_ne.mp hp).1
  · exact fun p hp => h.named p (mem_filter_ne.mp hp).1
  · exact fun p hp => keeps _ (h.around p (mem_filter_ne.mp hp).1)
  · exact keeps _ h.working

end IsTree

end Disk

end SchemaGen
