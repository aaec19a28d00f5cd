import SchemaGen.Disk.Managed
import SchemaGen.Proofs.Disk.Changes
import SchemaGen.Proofs.NameOrder

/-!
# One managed directory

Bringing a managed directory to hold what it should is done in two steps, each of which concerns the
files directly inside the directory only:

* the stale files go, and with them nothing else;
* the files of the target are compared with what stands there and written where they differ.

Results:
1. `mem_stale_iff`: the stale files of a directory.
2. `reconcile_apply`: reconciling a directory erases its stale files and reports them.
3. `touched_writeFiles`: writing touches the files of the target only, whatever the outcome.
4. `writeFiles_eq_ok`: what a successful writing reports, and what the directory holds after it.
-/

namespace SchemaGen

/-! ## Actions -/

namespace Action

variable {α β : Type} {S : Location → Prop} {d d' : Disk}

theorem bind_apply (x : Action α) (f : α → Action β) (d : Disk) :
    (x >>= f) d = match x d with
      | (.ok a, d') => f a d'
      | (.error e, d') => (.error e, d') := by
  show (match x d with | (a, d') => ExceptT.bindCont f a d') = _
  rcases x d with ⟨e | a, d'⟩ <;> rfl

theorem bind_eq_ok {x : Action α} {f : α → Action β} {b : β} :
    (x >>= f) d = (.ok b, d') ↔ ∃ a d₁, x d = (.ok a, d₁) ∧ f a d₁ = (.ok b, d') := by
  rw [bind_apply]
  rcases x d with ⟨e | a, d₁⟩
  · constructor
    · intro h
      cases h
    · rintro ⟨a, d₂, h, -⟩
      cases h
  · constructor
    · intro h
      exact ⟨a, d₁, rfl, h⟩
    · rintro ⟨a', d₂, h, h'⟩
      cases h
      exact h'

theorem reads_eq_ok {f : Disk → Except Fault α} {a : α} :
    reads f d = (.ok a, d') ↔ f d = .ok a ∧ d' = d := by
  constructor
  · intro h
    exact ⟨(Prod.mk.inj h).1, (Prod.mk.inj h).2.symm⟩
  · rintro ⟨h, rfl⟩
    exact Prod.ext h rfl

/-- What a first step and every step after it touch, both touch. -/
theorem touched_bind {x : Action α} {f : α → Action β} (hx : d.Touched S (x d).2)
    (hf : ∀ a d₁, x d = (.ok a, d₁) → d.Touched S d₁ → d₁.Touched S (f a d₁).2) :
    d.Touched S ((x >>= f) d).2 := by
  rw [bind_apply]
  rcases hr : x d with ⟨e | a, d₁⟩
  · rw [hr] at hx
    exact hx
  · rw [hr] at hx
    exact hx.trans (hf a d₁ hr hx)

end Action

namespace Disk

theorem beq_bytes_iff {a b : ByteArray} : (a == b) = true ↔ a = b := by
  show (a.data == b.data) = true ↔ _
  rw [beq_iff_eq]
  exact ⟨ByteArray.ext, congrArg _⟩

/-- Whether a file with that text stands at a location. -/
def holds (d : Disk) (loc : Location) (text : String) : Bool :=
  match d.get? loc with
  | some (.file c _) => c == text.toUTF8
  | _ => false

theorem holds_iff {d : Disk} {loc : Location} {text : String} :
    d.holds loc text = true ↔ ∃ m, d.get? loc = some (.file text.toUTF8 m) := by
  unfold holds
  constructor
  · intro h
    split at h
    · next c m hg => exact ⟨m, by rw [hg, beq_bytes_iff.mp h]⟩
    · cases h
  · rintro ⟨m, hg⟩
    rw [hg]
    exact beq_bytes_iff.mpr rfl

/-- Where the files of two disks agree, they hold the same texts. -/
theorem holds_congr {d d' : Disk} {loc : Location}
    (h : ∀ c m, d'.get? loc = some (.file c m) ↔ d.get? loc = some (.file c m)) (text : String) :
    d'.holds loc text = d.holds loc text := by
  rw [Bool.eq_iff_iff, holds_iff, holds_iff]
  constructor
  · rintro ⟨m, hg⟩
    exact ⟨m, (h _ m).mp hg⟩
  · rintro ⟨m, hg⟩
    exact ⟨m, (h _ m).mpr hg⟩

/-- A file in a directory is current when it holds its text; a directory of its name is in the way. -/
theorem isCurrent_child {d : Disk} {dir : Path} (ht : d.IsTree) (hp : dir.isDirect = true)
    (hd : d.get? (d.locate dir) = some .directory) {n : String} (hn : IsName n) (text : String) :
    d.isCurrent (dir.child n) text =
      if d.get? (d.locate dir ++ [n]) = some .directory
      then .error (.io (dir.child n) .isADirectory)
      else .ok (d.holds (d.locate dir ++ [n]) text) := by
  unfold isCurrent read entry holds
  rw [find_child ht hp hd hn]
  cases hg : d.get? (d.locate dir ++ [n]) with
  | none => simp
  | some e =>
    cases e with
    | file c m => simp [Path.endsInSlash_child dir hn]
    | directory => simp [Path.endsInSlash_child dir hn]

/-- What is said of a file being current is whether it holds its text. -/
theorem holds_of_isCurrent {d : Disk} {dir : Path} (ht : d.IsTree) (hp : dir.isDirect = true)
    {n : String} (hn : IsName n) {text : String} {current : Bool}
    (h : d.isCurrent (dir.child n) text = .ok current) :
    d.holds (d.locate dir ++ [n]) text = current := by
  by_cases hd : d.get? (d.locate dir) = some .directory
  · rw [isCurrent_child ht hp hd hn] at h
    split at h
    · cases h
    · exact Except.ok.inj h
  · -- without the directory there is no file, and none can be read
    have hnone : ∀ c m, d.get? (d.locate dir ++ [n]) ≠ some (.file c m) := fun c m hf =>
      hd (ht.directory_of_child hf)
    have hheld : d.holds (d.locate dir ++ [n]) text = false := by
      rw [Bool.eq_false_iff]
      intro hh
      obtain ⟨m, hf⟩ := holds_iff.mp hh
      exact hnone _ m hf
    rw [hheld]
    unfold isCurrent at h
    split at h
    · next c m hr =>
      have hf := read_eq_ok ht hr
      rw [locate_child dir hn] at hf
      exact absurd hf (hnone c m)
    · exact Except.ok.inj h
    · cases h

/-- The disk without the entries of those names in a directory. -/
def eraseAll (d : Disk) (loc : Location) : List String → Disk
  | [] => d
  | n :: rest => (d.erase (loc ++ [n])).eraseAll loc rest

variable {d d' : Disk} {dir : Path}

theorem get?_eraseAll (d : Disk) (loc l : Location) (names : List String) :
    (d.eraseAll loc names).get? l = if ∃ n ∈ names, l = loc ++ [n] then none else d.get? l := by
  induction names generalizing d with
  | nil => simp [eraseAll]
  | cons n rest ih =>
    unfold eraseAll
    rw [ih, get?_erase _ _ _ (by simp)]
    by_cases h : l = loc ++ [n]
    · simp [h]
    · simp [h]

theorem cwd_eraseAll (d : Disk) (loc : Location) (names : List String) :
    (d.eraseAll loc names).cwd = d.cwd := by
  induction names generalizing d with
  | nil => rfl
  | cons n rest ih => exact ih _

theorem children_erase {loc l : Location} (h : loc.dropLast ≠ l) (d : Disk) :
    (d.erase loc).children l = d.children l := by
  unfold children erase
  dsimp only
  induction d.entries with
  | nil => rfl
  | cons p rest ih =>
    rw [List.filter_cons, List.filterMap_cons]
    split
    · rw [List.filterMap_cons, ih]
    · next hp =>
      have he : p.1 = loc := by simpa using hp
      rw [if_neg (by rw [he]; exact h), ih]

/-- Erasing names from one directory leaves what any other one lists. -/
theorem children_eraseAll {loc l : Location} (h : loc ≠ l) (d : Disk) (names : List String) :
    (d.eraseAll loc names).children l = d.children l := by
  induction names generalizing d with
  | nil => rfl
  | cons n rest ih =>
    unfold eraseAll
    rw [ih, children_erase (by simpa using h)]

theorem touched_eraseAll {loc : Location} {names : List String} (ht : d.IsTree)
    (hf : ∀ n ∈ names, d.get? (loc ++ [n]) ≠ some .directory) :
    d.Touched (fun l => ∃ n ∈ names, l = loc ++ [n]) (d.eraseAll loc names) := by
  induction names generalizing d with
  | nil => exact .refl ht
  | cons n rest ih =>
    have h := touched_erase ht (by simp) (hf n List.mem_cons_self)
    have hr := ih h.tree fun m hm hd => by
      rw [get?_erase _ _ _ (by simp)] at hd
      split at hd
      · cases hd
      · exact hf m (List.mem_cons_of_mem _ hm) hd
    refine Touched.trans (h.mono ?_) (hr.mono ?_)
    · rintro l rfl
      exact ⟨n, List.mem_cons_self, rfl⟩
    · rintro l ⟨m, hm, rfl⟩
      exact ⟨m, List.mem_cons_of_mem _ hm, rfl⟩

/-! ## Listings -/

/-- What a directory lists stands in it. -/
theorem get?_of_mem_list (ht : d.IsTree) {p : Path} {entries : NameMap Entry} (h : d.list p = .ok entries)
    {e : String × Entry} (he : e ∈ entries.pairs) : d.get? (d.locate p ++ [e.1]) = some e.2 := by
  obtain ⟨-, rfl⟩ := list_eq_ok ht h
  rwa [(NameMap.ordered_ofList _).mem_pairs_iff, NameMap.get?_ofList (ht.nodup_children _),
    ht.mem_children_iff] at he

/-- The names of the files directly in a directory that a rule picks, in order. -/
def fileNames (d : Disk) (loc : Location) (picked : String → Bool) : List String :=
  ((NameMap.ofList (d.children loc)).pairs.filter fun e => e.2.isFile && picked e.1).map Prod.fst

theorem mem_fileNames_iff (ht : d.IsTree) {loc : Location} {picked : String → Bool} {n : String} :
    n ∈ d.fileNames loc picked ↔
      (∃ c m, d.get? (loc ++ [n]) = some (.file c m)) ∧ picked n = true := by
  unfold fileNames
  have hm : ∀ e, (n, e) ∈ (NameMap.ofList (d.children loc)).pairs ↔ d.get? (loc ++ [n]) = some e := by
    intro e
    rw [(NameMap.ordered_ofList _).mem_pairs_iff, NameMap.get?_ofList (ht.nodup_children loc),
      ht.mem_children_iff]
  constructor
  · intro h
    obtain ⟨⟨k, e⟩, hf, rfl⟩ := List.mem_map.mp h
    obtain ⟨hp, hk⟩ := List.mem_filter.mp hf
    rw [hm e] at hp
    cases e with
    | file c m => exact ⟨⟨c, m, hp⟩, by simpa [Entry.isFile] using hk⟩
    | directory => simp [Entry.isFile] at hk
  · rintro ⟨⟨c, m, hg⟩, hx⟩
    refine List.mem_map.mpr ⟨(n, .file c m), List.mem_filter.mpr ⟨(hm _).mpr hg, ?_⟩, rfl⟩
    simpa [Entry.isFile] using hx

theorem pairwise_fileNames (d : Disk) (loc : Location) (picked : String → Bool) :
    (d.fileNames loc picked).Pairwise (· < ·) := by
  unfold fileNames
  rw [List.pairwise_map]
  exact (NameMap.ordered_ofList _).sublist List.filter_sublist

/-- Directories with the same files of the picked names list the same of them, in the same order. -/
theorem fileNames_congr (ht : d.IsTree) (ht' : d'.IsTree) {loc : Location} {picked : String → Bool}
    (h : ∀ n, picked n = true → ∀ c m,
      d'.get? (loc ++ [n]) = some (.file c m) ↔ d.get? (loc ++ [n]) = some (.file c m)) :
    d'.fileNames loc picked = d.fileNames loc picked := by
  have hsort := d.pairwise_fileNames loc picked
  have hsort' := d'.pairwise_fileNames loc picked
  have hmem : ∀ n, n ∈ d'.fileNames loc picked ↔ n ∈ d.fileNames loc picked := fun n => by
    rw [mem_fileNames_iff ht, mem_fileNames_iff ht']
    exact and_congr_left fun hn => exists₂_congr (h n hn)
  refine List.Perm.eq_of_pairwise (fun a b _ _ hab hba => absurd hab (lt_asymm hba)) hsort' hsort ?_
  exact (List.perm_ext_iff_of_nodup (hsort'.imp ne_of_lt) (hsort.imp ne_of_lt)).mpr hmem

/-! ## Stale files -/

/-- The names of the files directly in a directory that are not expected there, in order. -/
def staleNames (d : Disk) (loc : Location) (expected : List String) : List String :=
  ((NameMap.ofList (d.children loc)).pairs.filter fun e =>
    e.2.isFile && !expected.contains e.1).map Prod.fst

theorem staleNames_eq (d : Disk) (loc : Location) (expected : List String) :
    d.staleNames loc expected = d.fileNames loc fun n => !expected.contains n := rfl

theorem mem_staleNames_iff (ht : d.IsTree) {loc : Location} {expected : List String} {n : String} :
    n ∈ d.staleNames loc expected ↔
      (∃ c m, d.get? (loc ++ [n]) = some (.file c m)) ∧ n ∉ expected := by
  rw [staleNames_eq, mem_fileNames_iff ht, Bool.not_eq_true', List.contains_eq_mem,
    decide_eq_false_iff_not]

theorem nodup_staleNames (d : Disk) (loc : Location) (expected : List String) :
    (d.staleNames loc expected).Nodup :=
  (d.pairwise_fileNames loc fun n => !expected.contains n).imp ne_of_lt

/-- The stale files of a managed directory are its children of stale names. -/
theorem stale_eq (ht : d.IsTree) (hp : dir.isDirect = true) (hne : dir.isEmpty = false)
    (expected : List String) :
    d.stale dir expected = (d.staleNames (d.locate dir) expected).map dir.child := by
  unfold stale
  split
  · next hd =>
    rw [list_directory ht hp hne ((isDirectory_iff ht hp hne).mp hd)]
    unfold staleNames
    rw [List.map_map]
    rfl
  · next hd =>
    -- where no directory stands there is no child
    rw [isDirectory_iff ht hp hne] at hd
    have : d.staleNames (d.locate dir) expected = [] := by
      rw [List.eq_nil_iff_forall_not_mem]
      intro n hn
      obtain ⟨⟨c, m, hg⟩, -⟩ := (mem_staleNames_iff ht).mp hn
      exact hd (ht.directory_of_child hg)
    rw [this, List.map_nil]

theorem mem_stale_iff (ht : d.IsTree) (hp : dir.isDirect = true) (hne : dir.isEmpty = false)
    {expected : List String} {q : Path} :
    q ∈ d.stale dir expected ↔ ∃ n, q = dir.child n ∧
      (∃ c m, d.get? (d.locate dir ++ [n]) = some (.file c m)) ∧ n ∉ expected := by
  rw [stale_eq ht hp hne, List.mem_map]
  constructor
  · rintro ⟨n, hn, rfl⟩
    exact ⟨n, rfl, (mem_staleNames_iff ht).mp hn⟩
  · rintro ⟨n, rfl, hn⟩
    exact ⟨n, (mem_staleNames_iff ht).mpr hn, rfl⟩

/-- What is stale in a directory depends on what the directory lists only. -/
theorem stale_congr (ht : d.IsTree) (ht' : d'.IsTree) (hp : dir.isDirect = true)
    (hne : dir.isEmpty = false) (hcwd : d'.cwd = d.cwd)
    (hc : d'.children (d.locate dir) = d.children (d.locate dir)) (expected : List String) :
    d'.stale dir expected = d.stale dir expected := by
  rw [stale_eq ht hp hne, stale_eq ht' hp hne, locate_congr hcwd]
  unfold staleNames
  rw [hc]

end Disk

/-! ## Reconciling -/

namespace Action

variable {d : Disk} {dir : Path}

theorem removeAll_children (ht : d.IsTree) (hp : dir.isDirect = true) {names : List String}
    (hu : names.Nodup) (hf : ∀ n ∈ names, ∃ c m, d.get? (d.locate dir ++ [n]) = some (.file c m)) :
    removeAll (names.map dir.child) d = (.ok (), d.eraseAll (d.locate dir) names) := by
  induction names generalizing d with
  | nil => rfl
  | cons n rest ih =>
    rw [List.nodup_cons] at hu
    obtain ⟨c, m, hg⟩ := hf n List.mem_cons_self
    have ht' : (d.erase (d.locate dir ++ [n])).IsTree := ht.erase (by simp [hg])
    rw [List.map_cons]
    unfold removeAll
    rw [bind_apply]
    unfold change
    dsimp only
    rw [Disk.removeFile_child ht hp hg]
    refine ih ht' hu.2 fun k hk => ?_
    obtain ⟨c', m', hg'⟩ := hf k (List.mem_cons_of_mem _ hk)
    refine ⟨c', m', ?_⟩
    show (d.erase (d.locate dir ++ [n])).get? (d.locate dir ++ [k]) = _
    rw [Disk.get?_erase _ _ _ (by simp), if_neg]
    · exact hg'
    · intro he
      have : k = n := by simpa using he
      exact hu.1 (this ▸ hk)

/-- Reconciling a directory erases its stale files and reports them. -/
theorem reconcile_apply (ht : d.IsTree) (hp : dir.isDirect = true) (hne : dir.isEmpty = false)
    (expected : List String) :
    reconcile dir expected d =
      (.ok (d.stale dir expected),
        d.eraseAll (d.locate dir) (d.staleNames (d.locate dir) expected)) := by
  unfold reconcile
  rw [bind_apply]
  unfold reads
  dsimp only
  rw [bind_apply, Disk.stale_eq ht hp hne, removeAll_children ht hp (Disk.nodup_staleNames _ _ _)
    fun n hn => ((Disk.mem_staleNames_iff ht).mp hn).1]
  rfl

/-! ## Writing -/

variable {files : List (String × String)}

/-- The places of the files that do not hold their text, in the directory at a location. -/
def outdated (d : Disk) (loc : Location) (files : List (String × String)) (l : Location) : Prop :=
  ∃ f ∈ files, l = loc ++ [f.1] ∧ d.holds l f.2 = false

/-- Whether a file is outdated depends on what stands in its place only. -/
theorem outdated_congr {loc l : Location}
    (h : ∀ f ∈ files, ∀ c m, d'.get? (loc ++ [f.1]) = some (.file c m) ↔
      d.get? (loc ++ [f.1]) = some (.file c m)) (hl : outdated d' loc files l) : outdated d loc files l := by
  obtain ⟨f, hf, rfl, hh⟩ := hl
  exact ⟨f, hf, rfl, by rw [← hh, Disk.holds_congr (h f hf)]⟩

theorem touched_makeDirectories (ht : d.IsTree) (dir : Path) {S : Location → Prop} :
    d.Touched S (makeDirectories dir d).2 := by
  have h := Disk.touched_makeDirectories (S := S) ht dir
  unfold makeDirectories
  rcases hrun : d.makeDirectories dir with ⟨_ | _, d'⟩ <;>
    · rw [hrun] at h
      exact h

theorem touched_change_write (ht : d.IsTree) (dir : Path) {n : String} (hn : IsName n) (c : ByteArray) :
    d.Touched (· = d.locate dir ++ [n])
      (change (dir.child n) (fun d => d.write (dir.child n) c) d).2 := by
  unfold change
  dsimp only
  split
  · next d' h =>
    rw [← Disk.locate_child dir hn]
    exact Disk.touched_write ht h
  · exact .refl ht

theorem append_ne_of_nodup {f : String × String} {rest : List (String × String)}
    (hu : ((f :: rest).map Prod.fst).Nodup) (loc : Location) :
    ∀ g ∈ rest, loc ++ [g.1] ≠ loc ++ [f.1] := by
  intro g hg he
  have hk : g.1 = f.1 := by simpa using he
  exact (List.nodup_cons.mp hu).1 (List.mem_map.mpr ⟨g, hg, hk⟩)

/-- Writing touches the places of outdated files only, whatever the outcome: a file that holds its
text is not written again. -/
theorem touched_writeAll (ht : d.IsTree) (hp : dir.isDirect = true) (hn : ∀ f ∈ files, IsName f.1)
    (hu : (files.map Prod.fst).Nodup) :
    d.Touched (outdated d (d.locate dir) files) (writeAll dir files d).2 := by
  induction files generalizing d with
  | nil => exact .refl ht
  | cons f rest ih =>
    have hname : IsName f.1 := hn f List.mem_cons_self
    have hrest : ∀ g ∈ rest, IsName g.1 := fun g hg => hn g (List.mem_cons_of_mem _ hg)
    have hother := append_ne_of_nodup hu (d.locate dir)
    -- what the rest touches after the head has touched its own place at most
    have htail : ∀ d₁ : Disk, d.Touched (· = d.locate dir ++ [f.1]) d₁ →
        d₁.Touched (outdated d (d.locate dir) (f :: rest)) (writeAll dir rest d₁).2 := by
      intro d₁ h₁
      have h := ih (d := d₁) h₁.tree hrest (List.nodup_cons.mp hu).2
      rw [Disk.locate_congr h₁.cwd] at h
      refine h.mono fun l hl => ?_
      obtain ⟨g, hg, hrest⟩ := outdated_congr (fun g hg => h₁.files _ (hother g hg)) hl
      exact ⟨g, List.mem_cons_of_mem _ hg, hrest⟩
    unfold writeAll
    refine touched_bind (.refl ht) fun current d₁ hr _ => ?_
    obtain ⟨hc, rfl⟩ := reads_eq_ok.mp hr
    have hcur := Disk.holds_of_isCurrent ht hp hname hc
    cases current with
    | true => exact touched_bind (htail d₁ (.refl ht)) fun _ d₂ _ h => .refl h.tree
    | false =>
      have hhead := touched_change_write ht dir hname f.2.toUTF8
      refine touched_bind (hhead.mono ?_) fun _ d₂ hd₂ _ => ?_
      · rintro l rfl
        exact ⟨f, List.mem_cons_self, rfl, hcur⟩
      · rw [hd₂] at hhead
        exact touched_bind (htail d₂ hhead) fun _ d₃ _ h => .refl h.tree

/-- Writing leaves what is held outside the places of the files. -/
theorem holds_writeAll {res : Except Fault WriteReport} {loc : Location} (ht : d.IsTree)
    (hp : dir.isDirect = true) (hn : ∀ f ∈ files, IsName f.1) (hu : (files.map Prod.fst).Nodup)
    (h : writeAll dir files d = (res, d')) (hl : ∀ f ∈ files, loc ≠ d.locate dir ++ [f.1])
    {text : String} : d'.holds loc text = d.holds loc text := by
  have hframe := touched_writeAll ht hp hn hu
  rw [h] at hframe
  refine Disk.holds_congr (hframe.files _ ?_) text
  rintro ⟨f, hf, he, -⟩
  exact hl f hf he

theorem change_write_eq_ok (ht : d.IsTree) (hp : dir.isDirect = true)
    (hd : d.get? (d.locate dir) = some .directory) {n : String} (hn : IsName n) {text : String}
    (hfree : d.get? (d.locate dir ++ [n]) ≠ some .directory) :
    change (dir.child n) (fun d => d.write (dir.child n) text.toUTF8) d =
      (.ok (), d.put (d.locate dir ++ [n]) (.file text.toUTF8 d.clock)) := by
  unfold change
  dsimp only
  rw [Disk.write_child ht hp hd hn _ hfree]

/-- What a successful writing says about the disk before and after it: no directory is in the way of
a file, the files that did not hold their text are reported, and afterwards every file holds it. -/
structure Written (dir : Path) (loc : Location) (files : List (String × String)) (d d' : Disk)
    (report : WriteReport) : Prop where
  free : ∀ f ∈ files, d.get? (loc ++ [f.1]) ≠ some .directory
  written : report.written =
    (files.filter fun f => !d.holds (loc ++ [f.1]) f.2).map fun f => dir.child f.1
  unchanged : report.unchanged = files.countP fun f => d.holds (loc ++ [f.1]) f.2
  held : ∀ f ∈ files, d'.holds (loc ++ [f.1]) f.2 = true

/-- What the disk holds elsewhere does not matter. -/
theorem Written.congr {loc : Location} {files : List (String × String)} {d₁ : Disk}
    {report : WriteReport} (h : Written dir loc files d₁ d' report)
    (hg : ∀ f ∈ files, d₁.get? (loc ++ [f.1]) ≠ some .directory →
      d.get? (loc ++ [f.1]) ≠ some .directory)
    (hh : ∀ f ∈ files, d₁.holds (loc ++ [f.1]) f.2 = d.holds (loc ++ [f.1]) f.2) :
    Written dir loc files d d' report := by
  refine ⟨fun f hf => hg f hf (h.free f hf), ?_, ?_, h.held⟩
  · rw [h.written]
    congr 1
    exact List.filter_congr fun f hf => by rw [hh f hf]
  · rw [h.unchanged]
    exact List.countP_congr fun f hf => by rw [hh f hf]

/-- A file and then the others: it is found unchanged if it held its text, and is reported otherwise. -/
theorem Written.cons {loc : Location} {n text : String} {rest : List (String × String)}
    {more : WriteReport} {current : Bool} (hm : Written dir loc rest d d' more)
    (hfree : d.get? (loc ++ [n]) ≠ some .directory) (hcur : d.holds (loc ++ [n]) text = current)
    (hheld : d'.holds (loc ++ [n]) text = true) :
    Written dir loc ((n, text) :: rest) d d' (if current then { more with unchanged := more.unchanged + 1 }
      else { more with written := dir.child n :: more.written }) := by
  constructor
  case free => exact List.forall_mem_cons.mpr ⟨hfree, hm.free⟩
  case held => exact List.forall_mem_cons.mpr ⟨hheld, hm.held⟩
  case written =>
    cases current <;> simp [hcur, hm.written]
  case unchanged =>
    cases current <;> simp [hcur, hm.unchanged]

/-- A successful writing into a directory, file by file: what the head writes stands in no other
file's place, so the rest is judged by the disk before. -/
theorem writeAll_eq_ok {report : WriteReport} (ht : d.IsTree)
    (hp : dir.isDirect = true) (hd : d.get? (d.locate dir) = some .directory)
    (hn : ∀ f ∈ files, IsName f.1) (hu : (files.map Prod.fst).Nodup)
    (h : writeAll dir files d = (.ok report, d')) :
    Written dir (d.locate dir) files d d' report := by
  induction files generalizing d report with
  | nil =>
    cases h
    exact ⟨by simp, rfl, rfl, by simp⟩
  | cons f rest ih =>
    obtain ⟨n, text⟩ := f
    have hname : IsName n := hn _ List.mem_cons_self
    have hrest : ∀ f ∈ rest, IsName f.1 := fun f hf => hn f (List.mem_cons_of_mem _ hf)
    have hother := append_ne_of_nodup hu (d.locate dir)
    rw [List.map_cons, List.nodup_cons] at hu
    unfold writeAll at h
    obtain ⟨current, d₁, hr, h⟩ := bind_eq_ok.mp h
    obtain ⟨hc, rfl⟩ := reads_eq_ok.mp hr
    rw [Disk.isCurrent_child ht hp hd hname] at hc
    split at hc
    · cases hc
    · next hfree =>
      have hcur := Except.ok.inj hc
      cases current with
      | true =>
        obtain ⟨more, d₂, hw, h⟩ := bind_eq_ok.mp h
        cases h
        -- a file that is not written is not touched by the others either
        have hheld : d'.holds (d₁.locate dir ++ [n]) text = d₁.holds (d₁.locate dir ++ [n]) text :=
          holds_writeAll ht hp hrest hu.2 hw fun g hg => (hother g hg).symm
        exact (ih ht hd hrest hu.2 hw).cons hfree hcur (hheld.trans hcur)
      | false =>
        obtain ⟨_, d₂, hput, h⟩ := bind_eq_ok.mp h
        rw [change_write_eq_ok ht hp hd hname hfree] at hput
        cases hput
        obtain ⟨more, d₃, hw, h⟩ := bind_eq_ok.mp h
        cases h
        have hne : d₁.locate dir ++ [n] ≠ [] := by simp
        have ht₂ : (d₁.put (d₁.locate dir ++ [n]) (.file text.toUTF8 d₁.clock)).IsTree :=
          ht.put hname hd hfree
        have hput := Disk.touched_put hne ht₂ hfree
        have hm : Written dir (d₁.locate dir) rest d₁ d' more := by
          have hw' := ih ht₂ (hput.directories _ hd) hrest hu.2 hw
          refine hw'.congr (fun f _ hg he => hg (hput.directories _ he)) fun f hf => ?_
          exact Disk.holds_congr (hput.files _ (hother f hf)) _
        -- the text that was put there stays while the others are written
        have hheld : d'.holds (d₁.locate dir ++ [n]) text = true := by
          rw [holds_writeAll ht₂ hp hrest hu.2 hw fun g hg => (hother g hg).symm]
          exact Disk.holds_iff.mpr ⟨d₁.clock, by rw [Disk.get?_put _ _ _ _ hne, if_pos rfl]⟩
        exact hm.cons hfree hcur hheld

theorem makeDirectories_eq_ok (ht : d.IsTree) (hp : dir.isDirect = true)
    (h : makeDirectories dir d = (.ok (), d')) :
    Disk.Grown (d.locate dir) d d' ∧ d'.get? (d.locate dir) = some .directory := by
  unfold makeDirectories at h
  split at h
  · next d₁ hm =>
    cases h
    obtain ⟨hg, hd⟩ := Disk.makeDirectories_spec ht hp hm
    exact ⟨hg, hd rfl⟩
  · cases h

/-- Writing a target touches the places of its outdated files only, whatever the outcome. -/
theorem touched_writeFiles {files : NameMap String} (ht : d.IsTree) (hp : dir.isDirect = true)
    (hn : ∀ f ∈ files.pairs, IsName f.1) (hu : files.names.Nodup) :
    d.Touched (outdated d (d.locate dir) files.pairs) (writeFiles dir files d).2 := by
  unfold writeFiles
  have hmake := touched_makeDirectories (S := fun _ => False) ht dir
  refine touched_bind (hmake.mono fun _ h => h.elim) fun _ d₁ hd₁ h => ?_
  rw [hd₁] at hmake
  rw [← Disk.locate_congr h.cwd]
  refine (touched_writeAll h.tree hp hn hu).mono fun l hl => ?_
  exact outdated_congr (fun f _ => hmake.files _ id) hl

/-- What a successful writing of a target says about the disk before and after it. Directories on the
way may have been made, which matters to no file. -/
theorem writeFiles_eq_ok {files : NameMap String} {report : WriteReport} (ht : d.IsTree)
    (hp : dir.isDirect = true) (hn : ∀ f ∈ files.pairs, IsName f.1) (hu : files.names.Nodup)
    (h : writeFiles dir files d = (.ok report, d')) :
    Written dir (d.locate dir) files.pairs d d' report := by
  unfold writeFiles at h
  obtain ⟨_, d₁, hm, h⟩ := bind_eq_ok.mp h
  obtain ⟨hg, hd⟩ := makeDirectories_eq_ok ht hp hm
  have hl := Disk.locate_congr hg.cwd dir
  rw [← hl] at hd ⊢
  refine (writeAll_eq_ok hg.tree hp hd hn hu h).congr (fun f _ hfree he => ?_) fun f _ => ?_
  · exact hfree (hg.get?_eq_of_some he)
  · exact Disk.holds_congr (hg.file_iff _) _

end Action

end SchemaGen
