import SchemaGen.Path

/-!
# Plain and direct paths

A plain path is relative and has no `.` and no `..` among its components, so that it leads down from
the working directory through its names. A direct path has no `..` after a name: from the root or from
the working directory it leads up, if at all, and then down. A child of a plain path is plain, a child of
a direct path is direct, and a child of any path leads one name further.

Results:
1. `splitAt_append`, `splitAt_intercalate`: a text is cut where it was glued.
2. `steps_join`, `steps_child`: a path that goes on, and the child of a path.
3. `components_of_isPlain`, `resolve_of_isPlain`: a plain path leads down through its names.
4. `isPlain_child`, `isDirect_child`: children of plain and of direct paths.
5. `resolve_join`, `resolve_child`, `eq_of_child_eq`: where a path that goes on and a child of any path
   lead, and when two children are one path.
6. `parent?_of_fileName?`: the path around leads to the directory around.
-/

namespace SchemaGen

/-- A name that an entry of a directory can have. -/
def IsName (name : String) : Prop := name ≠ "" ∧ name ≠ "." ∧ name ≠ ".." ∧ '/' ∉ name.toList

instance (name : String) : Decidable (IsName name) := by unfold IsName; infer_instance

/-- A name with an extension of more than two characters is a name. -/
theorem IsName.append {name extension : String} (h : IsName name) (hl : 2 < extension.length)
    (hs : '/' ∉ extension.toList) : IsName (name ++ extension) := by
  have hlength : (name ++ extension).length = name.length + extension.length := String.length_append _ _
  have hne : ∀ short : String, short.length ≤ 2 → name ++ extension ≠ short := by
    rintro short hshort rfl
    omega
  exact ⟨hne "" (by decide), hne "." (by decide), hne ".." (by decide), by simpa using ⟨h.2.2.2, hs⟩⟩

/-! ## Cutting texts -/

namespace Text

theorem splitAt_of_not_mem {sep : Char} {cs : List Char} (h : sep ∉ cs) : splitAt sep cs = [cs] := by
  induction cs with
  | nil => rfl
  | cons c rest ih =>
    rw [List.mem_cons, not_or] at h
    unfold splitAt
    rw [if_neg (Ne.symm h.1), ih h.2]

/-- Texts with a separator between them are cut one by one. -/
theorem splitAt_append (sep : Char) (xs ys : List Char) :
    splitAt sep (xs ++ sep :: ys) = splitAt sep xs ++ splitAt sep ys := by
  induction xs with
  | nil => simp [splitAt]
  | cons x rest ih =>
    rw [List.cons_append]
    conv => lhs; unfold splitAt
    conv => rhs; arg 1; unfold splitAt
    split
    · rw [ih]
      rfl
    · rw [ih]
      cases hs : splitAt sep rest with
      | nil => exact absurd hs (splitAt_ne_nil sep rest)
      | cons first others => rfl

/-- The last stretch of a text is what follows the last separator. -/
theorem splitAt_append_cons (sep : Char) (xs : List Char) {ys : List Char} (h : sep ∉ ys) :
    splitAt sep (xs ++ sep :: ys) = splitAt sep xs ++ [ys] := by
  rw [splitAt_append, splitAt_of_not_mem h]

/-- No stretch holds a separator. -/
theorem not_mem_of_mem_splitAt {sep : Char} {cs seg : List Char} (h : seg ∈ splitAt sep cs) :
    sep ∉ seg := by
  induction cs generalizing seg with
  | nil =>
    simp only [splitAt, List.mem_singleton] at h
    subst h
    exact List.not_mem_nil
  | cons c rest ih =>
    unfold splitAt at h
    split at h
    · rcases List.mem_cons.mp h with rfl | h
      · exact List.not_mem_nil
      · exact ih h
    · next hc =>
      split at h
      · rw [List.mem_singleton.mp h]
        simpa using Ne.symm hc
      · next first others hs =>
        rw [hs] at ih
        rcases List.mem_cons.mp h with rfl | h
        · rw [List.mem_cons, not_or]
          exact ⟨Ne.symm hc, ih List.mem_cons_self⟩
        · exact ih (List.mem_cons_of_mem _ h)

/-- The first stretch of a text is what stands before the first separator. -/
theorem splitAt_cons_append {sep : Char} {xs : List Char} (h : sep ∉ xs) (ys : List Char) :
    splitAt sep (xs ++ sep :: ys) = xs :: splitAt sep ys := by
  induction xs with
  | nil => simp [splitAt]
  | cons x rest ih =>
    rw [List.mem_cons, not_or] at h
    rw [List.cons_append]
    conv => lhs; unfold splitAt
    rw [if_neg (Ne.symm h.1), ih h.2]

/-- A text glued from stretches is cut into them. -/
theorem splitAt_intercalate {sep : Char} {segs : List (List Char)} (hne : segs ≠ [])
    (h : ∀ seg ∈ segs, sep ∉ seg) : splitAt sep ([sep].intercalate segs) = segs := by
  induction segs with
  | nil => exact absurd rfl hne
  | cons seg rest ih =>
    have hseg := h seg List.mem_cons_self
    cases rest with
    | nil => simpa using splitAt_of_not_mem hseg
    | cons next others =>
      have hglue : [sep].intercalate (seg :: next :: others) =
          seg ++ sep :: [sep].intercalate (next :: others) := by simp [List.intercalate]
      rw [hglue, splitAt_cons_append hseg, ih (by simp) fun s hs => h s (List.mem_cons_of_mem _ hs)]

end Text

namespace Path

/-! ## Steps -/

theorem mem_steps {p : Path} {s : String} (h : s ∈ p.steps) : s ≠ "" ∧ '/' ∉ s.toList := by
  obtain ⟨seg, hseg, rfl⟩ := List.mem_map.mp h
  obtain ⟨hm, hne⟩ := List.mem_filter.mp hseg
  refine ⟨?_, by simpa using Text.not_mem_of_mem_splitAt hm⟩
  intro he
  have : seg = [] := by simpa using congrArg String.toList he
  simp [this] at hne

theorem isAbsolute_of_isName {n : String} (h : IsName n) : (⟨n⟩ : Path).isAbsolute = false := by
  unfold isAbsolute
  cases hn : n.toList with
  | nil => simp
  | cons c rest =>
    have : c ≠ '/' := by
      rintro rfl
      exact h.2.2.2 (hn ▸ List.mem_cons_self)
    simpa using this

theorem steps_of_isName {n : String} (h : IsName n) : (⟨n⟩ : Path).steps = [n] := by
  have hn : n.toList.isEmpty = false := by simpa using h.1
  unfold steps
  rw [Text.splitAt_of_not_mem h.2.2.2, List.filter_cons_of_pos (by rw [hn]; rfl), List.filter_nil,
    List.map_singleton, String.ofList_toList]

/-- A path that goes on takes the steps of both its parts. -/
theorem steps_join (p : Path) {q : Path} (h : q.isAbsolute = false) : (p.join q).steps = p.steps ++ q.steps := by
  have key : ∀ xs : List Char,
      ((Text.splitAt '/' (xs ++ '/' :: q.text.toList)).filter fun s => !s.isEmpty).map String.ofList =
        ((Text.splitAt '/' xs).filter fun s => !s.isEmpty).map String.ofList ++ q.steps := by
    intro xs
    rw [Text.splitAt_append, List.filter_append, List.map_append]
    rfl
  unfold join
  rw [if_neg (by rw [h]; exact Bool.false_ne_true)]
  split
  · next hc =>
    rcases Bool.or_eq_true_iff.mp hc with he | he
    · -- nothing is written before the second part
      have ht : p.text.toList = [] := by simpa [isEmpty] using he
      unfold steps
      rw [String.toList_append, ht, List.nil_append]
      simp [Text.splitAt]
    · -- a slash is written before the second part
      obtain ⟨xs, hx⟩ : ∃ xs, p.text.toList = xs ++ ['/'] := by
        have hl : p.text.toList.getLast? = some '/' := by simpa [endsInSlash] using he
        obtain ⟨xs, hx⟩ := List.getLast?_eq_some_iff.mp hl
        exact ⟨xs, hx⟩
      have hp : p.steps = ((Text.splitAt '/' xs).filter fun s => !s.isEmpty).map String.ofList := by
        unfold steps
        rw [hx, Text.splitAt_append_cons '/' xs List.not_mem_nil]
        simp
      rw [hp, ← key xs]
      conv => lhs; unfold steps
      rw [String.toList_append, hx, List.append_assoc]
      rfl
  · conv => lhs; unfold steps
    rw [String.toList_append, String.toList_append, List.append_assoc]
    exact key p.text.toList

/-- The child of a path has one step more. -/
theorem steps_child (p : Path) {n : String} (h : IsName n) : (p.child n).steps = p.steps ++ [n] := by
  rw [child, steps_join p (isAbsolute_of_isName h), steps_of_isName h]

/-- The steps of a path written from segments are the segments. -/
theorem steps_intercalate {segs : List String} (h : ∀ s ∈ segs, s ≠ "" ∧ '/' ∉ s.toList) :
    (⟨"/".intercalate segs⟩ : Path).steps = segs := by
  unfold steps
  rw [String.toList_intercalate]
  by_cases hne : segs = []
  · subst hne
    rfl
  · have hcut : Text.splitAt '/' (['/'].intercalate (segs.map String.toList)) = segs.map String.toList := by
      apply Text.splitAt_intercalate (by simpa using hne)
      intro seg hseg
      obtain ⟨s, hs, rfl⟩ := List.mem_map.mp hseg
      exact (h s hs).2
    have hkeep : (segs.map String.toList).filter (fun s => !s.isEmpty) = segs.map String.toList := by
      rw [List.filter_eq_self]
      intro seg hseg
      obtain ⟨s, hs, rfl⟩ := List.mem_map.mp hseg
      simpa using (h s hs).1
    show ((Text.splitAt '/' (['/'].intercalate _)).filter _).map _ = _
    rw [hcut, hkeep, List.map_map]
    simp [Function.comp_def]

theorem isAbsolute_intercalate {segs : List String} (h : ∀ s ∈ segs, s ≠ "" ∧ '/' ∉ s.toList) :
    (⟨"/".intercalate segs⟩ : Path).isAbsolute = false := by
  unfold isAbsolute
  rw [String.toList_intercalate]
  cases segs with
  | nil => rfl
  | cons s rest =>
    obtain ⟨hne, hslash⟩ := h s List.mem_cons_self
    have hl : s.toList ≠ [] := by
      intro he
      exact hne (String.toList_inj.mp (by simpa using he))
    obtain ⟨c, cs, hc⟩ := List.exists_cons_of_ne_nil hl
    have hcs : c ≠ '/' := by
      rintro rfl
      exact hslash (hc ▸ List.mem_cons_self)
    cases rest with
    | nil => simpa [hc] using hcs
    | cons t others => simpa [hc, List.intercalate] using hcs

/-- A slash before a path starts it at the root and adds no step. -/
theorem steps_slash (text : String) : (⟨"/" ++ text⟩ : Path).steps = (⟨text⟩ : Path).steps := by
  unfold steps
  rw [String.toList_append]
  show ((Text.splitAt '/' ('/' :: text.toList)).filter _).map _ = _
  simp [Text.splitAt]

theorem isAbsolute_slash (text : String) : (⟨"/" ++ text⟩ : Path).isAbsolute = true := by
  unfold isAbsolute
  rw [String.toList_append]
  rfl

/-! ## Plain paths -/

/-- Whether a component leads one directory down. -/
def isDown : Component → Bool
  | .name _ => true
  | _ => false

/-- A path is plain when it is relative and has no `.` and no `..` among its components. -/
def isPlain (p : Path) : Bool := p.components.all isDown

/-- The names of a plain path. -/
def names (p : Path) : List String := p.steps.filter fun s => s != "."

variable {p : Path}

theorem all_isDown_filterMap (steps : List String) :
    (steps.filterMap component?).all isDown = true ↔ ".." ∉ steps := by
  induction steps with
  | nil => simp
  | cons s rest ih =>
    rw [List.filterMap_cons, List.mem_cons, not_or, ← ih]
    unfold component?
    by_cases hd : s = "."
    · simp [hd]
    · by_cases hp : s = ".."
      · simp [hp, isDown]
      · simp [hd, Ne.symm hp, if_neg hp, isDown]

/-- What makes a path plain, by its segments. -/
theorem isPlain_iff : p.isPlain = true ↔
    p.isAbsolute = false ∧ p.steps.head? ≠ some "." ∧ ".." ∉ p.steps := by
  unfold isPlain components
  cases ha : p.isAbsolute with
  | true => simp [isDown]
  | false =>
    rw [if_neg Bool.false_ne_true]
    split
    · next rest hs => simp [hs, isDown]
    · next hs =>
      rw [all_isDown_filterMap]
      have hh : p.steps.head? ≠ some "." := by
        intro he
        obtain ⟨rest, hr⟩ := List.head?_eq_some_iff.mp he
        exact hs rest hr
      simp [hh]

theorem components_eq_filterMap (h : p.isPlain = true) :
    p.components = p.steps.filterMap component? := by
  obtain ⟨ha, hh, -⟩ := isPlain_iff.mp h
  unfold components
  rw [if_neg (by simp [ha])]
  split
  · next rest hs => simp [hs] at hh
  · rfl

/-- A segment of a plain path is a name, or a `.` that does not count. -/
theorem step_of_isPlain (h : p.isPlain = true) {s : String} (hs : s ∈ p.steps) :
    s = "." ∨ IsName s := by
  obtain ⟨hne, hslash⟩ := mem_steps hs
  by_cases hd : s = "."
  · exact .inl hd
  · refine .inr ⟨hne, hd, ?_, hslash⟩
    rintro rfl
    exact (isPlain_iff.mp h).2.2 hs

theorem component?_of_isName {n : String} (hn : IsName n) : component? n = some (.name n) := by
  unfold component?
  rw [if_neg hn.2.1, if_neg hn.2.2.1]

/-- A plain path has its names for components. -/
theorem components_of_isPlain (h : p.isPlain = true) : p.components = p.names.map .name := by
  rw [components_eq_filterMap h]
  unfold names
  have hall : ∀ s ∈ p.steps, s = "." ∨ IsName s := fun s hs => step_of_isPlain h hs
  generalize p.steps = steps at hall
  induction steps with
  | nil => rfl
  | cons s rest ih =>
    have hr := ih fun t ht => hall t (List.mem_cons_of_mem _ ht)
    rcases hall s List.mem_cons_self with rfl | hn
    · rw [List.filterMap_cons, show component? "." = none from rfl]
      simpa using hr
    · rw [List.filterMap_cons, component?_of_isName hn, List.filter_cons, if_pos (by simpa using hn.2.1), hr]
      rfl

/-- A plain path leads down from the working directory through its names. -/
theorem resolve_of_isPlain (h : p.isPlain = true) (cwd : Location) :
    Location.resolve cwd p = cwd ++ p.names := by
  unfold Location.resolve
  rw [components_of_isPlain h, Location.ofSteps_names]

/-! ## Children -/

/-- A path that goes on starts as it did. -/
theorem isAbsolute_join (p : Path) {q : Path} (h : q.isAbsolute = false) :
    (p.join q).isAbsolute = p.isAbsolute := by
  unfold join
  rw [if_neg (by simp [h])]
  cases ht : p.text.toList with
  | nil =>
    rw [if_pos (by simp [isEmpty, String.isEmpty_iff, ← String.toList_inj, ht])]
    simpa [isAbsolute, String.toList_append, ht] using h
  | cons c rest =>
    split <;> simp [isAbsolute, String.toList_append, ht]

theorem isAbsolute_child (p : Path) {n : String} (hn : IsName n) :
    (p.child n).isAbsolute = p.isAbsolute := isAbsolute_join p (isAbsolute_of_isName hn)

theorem isPlain_child (h : p.isPlain = true) {n : String} (hn : IsName n) :
    (p.child n).isPlain = true := by
  obtain ⟨ha, hh, hp⟩ := isPlain_iff.mp h
  rw [isPlain_iff, steps_child p hn]
  refine ⟨(isAbsolute_child p hn).trans ha, ?_, ?_⟩
  · cases hs : p.steps with
    | nil => simpa using hn.2.1
    | cons s rest => simpa [hs] using hh
  · rw [List.mem_append, not_or]
    exact ⟨hp, by simpa using Ne.symm hn.2.2.1⟩

theorem isEmpty_child (p : Path) {n : String} (hn : IsName n) : (p.child n).isEmpty = false := by
  have hne : (p.child n).steps ≠ [] := by simp [steps_child p hn]
  cases he : (p.child n).isEmpty with
  | false => rfl
  | true =>
    exfalso
    apply hne
    have ht : (p.child n).text = "" := by simpa [isEmpty] using he
    simp [steps, ht, Text.splitAt]

/-- No slash ends the path of a child. -/
theorem endsInSlash_child (p : Path) {n : String} (hn : IsName n) :
    (p.child n).endsInSlash = false := by
  have hl : n.toList ≠ [] := by
    intro he
    exact hn.1 (String.toList_inj.mp (by simpa using he))
  have key : ∀ xs : List Char, (xs ++ n.toList).getLast? ≠ some '/' := by
    intro xs he
    rw [List.getLast?_append, List.getLast?_eq_some_getLast hl] at he
    simp only [Option.some_or, Option.some.injEq] at he
    exact hn.2.2.2 (he ▸ List.getLast_mem hl)
  unfold child join
  rw [if_neg (by simp [isAbsolute_of_isName hn])]
  split
  · simpa [endsInSlash, String.toList_append] using key p.text.toList
  · simpa [endsInSlash, String.toList_append] using key (p.text.toList ++ ['/'])

/-! ## Where paths lead -/

/-- A path is followed segment by segment, from the root or from the working directory. -/
theorem resolve_eq (p : Path) (cwd : Location) : Location.resolve cwd p =
    Location.ofSteps (if p.isAbsolute then [] else cwd) (p.steps.filterMap component?) := by
  unfold Location.resolve components
  split
  · rfl
  · split
    · next rest hs =>
      rw [hs]
      rfl
    · rfl

theorem component?_eq_some_name {s n : String} (h : component? s = some (.name n)) :
    s = n ∧ s ≠ "." ∧ s ≠ ".." := by
  unfold component? at h
  split at h
  · cases h
  · next hdot =>
    split at h
    · cases h
    · next hup =>
      cases h
      exact ⟨rfl, hdot, hup⟩

/-- A path goes on from where its first part leads. -/
theorem resolve_join (p q : Path) (cwd : Location) :
    Location.resolve cwd (p.join q) = Location.resolve (Location.resolve cwd p) q := by
  rw [resolve_eq, resolve_eq q]
  cases h : q.isAbsolute with
  | true =>
    have hjoin : p.join q = q := if_pos h
    rw [hjoin, h, if_pos rfl, if_pos rfl]
  | false =>
    rw [steps_join p h, isAbsolute_join p h, List.filterMap_append, Location.ofSteps_append, ← resolve_eq,
      if_neg Bool.false_ne_true]

/-- The child of a path leads one name further, whatever the path. -/
theorem resolve_child (p : Path) (cwd : Location) {n : String} (hn : IsName n) :
    Location.resolve cwd (p.child n) = Location.resolve cwd p ++ [n] := by
  rw [child, resolve_join, resolve_eq, isAbsolute_of_isName hn, steps_of_isName hn,
    List.filterMap_cons_some (component?_of_isName hn)]
  rfl

/-- What is followed brings no other names than those of the steps. -/
theorem mem_ofSteps {start : Location} {steps : List Component} {n : String}
    (h : n ∈ Location.ofSteps start steps) : n ∈ start ∨ .name n ∈ steps := by
  induction steps generalizing start with
  | nil => exact .inl h
  | cons step rest ih =>
    rcases @ih (start.follow step) h with h | h
    · cases step with
      | root => cases h
      | current => exact .inl h
      | parent => exact .inl (List.dropLast_subset _ h)
      | name s =>
        refine (List.mem_append.mp h).imp_right fun h => ?_
        rw [List.mem_singleton.mp h]
        exact List.mem_cons_self
    · exact .inr (List.mem_cons_of_mem _ h)

theorem isName_of_mem_resolve {cwd : Location} (hcwd : ∀ n ∈ cwd, IsName n) {n : String}
    (h : n ∈ Location.resolve cwd p) : IsName n := by
  rw [resolve_eq] at h
  rcases mem_ofSteps h with h | h
  · split at h
    · cases h
    · exact hcwd n h
  · obtain ⟨s, hs, hname⟩ := List.mem_filterMap.mp h
    obtain ⟨rfl, hdot, hup⟩ := component?_eq_some_name hname
    obtain ⟨hne, hslash⟩ := mem_steps hs
    exact ⟨hne, hdot, hup, hslash⟩

/-- Children that are one path have one name, and their directories are in one place. -/
theorem eq_of_child_eq {q : Path} {m n : String} (cwd : Location) (hm : IsName m) (hn : IsName n)
    (h : p.child m = q.child n) : Location.resolve cwd p = Location.resolve cwd q ∧ m = n := by
  have := congrArg (Location.resolve cwd) h
  rw [resolve_child p cwd hm, resolve_child q cwd hn] at this
  exact ⟨(List.append_inj' this rfl).1, by simpa using (List.append_inj' this rfl).2⟩

/-! ## Direct paths -/

/-- Whether no `..` follows a name. -/
def isDirectFrom : List Component → Bool
  | [] => true
  | .name _ :: rest => !rest.contains .parent
  | _ :: rest => isDirectFrom rest

/-- A path is direct when no `..` follows a name. -/
def isDirect (p : Path) : Bool := isDirectFrom p.components

example : isDirect ⟨"../shared/./schemas"⟩ = true := by decide
example : isDirect ⟨"generated/../schemas"⟩ = false := by decide

theorem isDirectFrom_of_not_mem {cs : List Component} (h : .parent ∉ cs) : isDirectFrom cs = true := by
  induction cs with
  | nil => rfl
  | cons c rest ih =>
    rw [List.mem_cons, not_or] at h
    cases c with
    | name n => simpa [isDirectFrom] using h.2
    | root => exact ih h.2
    | current => exact ih h.2
    | parent => exact absurd rfl h.1

theorem isDirectFrom_concat (cs : List Component) (n : String) :
    isDirectFrom (cs ++ [.name n]) = isDirectFrom cs := by
  induction cs with
  | nil => rfl
  | cons c rest ih =>
    cases c with
    | name m => simp [isDirectFrom]
    | root => exact ih
    | current => exact ih
    | parent => exact ih

theorem isDirectFrom_concat_parent {cs : List Component} {n : String} (h : .name n ∈ cs) :
    isDirectFrom (cs ++ [.parent]) = false := by
  induction cs with
  | nil => cases h
  | cons c rest ih =>
    cases c with
    | name m => simp [isDirectFrom]
    | root => exact ih (by simpa using h)
    | current => exact ih (by simpa using h)
    | parent => exact ih (by simpa using h)

/-- The components of a path are those of its steps, after a mark for where it starts. -/
theorem exists_start (p : Path) : ∃ start, p.components = start ++ p.steps.filterMap component? ∧
    (p.isAbsolute = true ∧ start = [.root] ∨ p.isAbsolute = false ∧ (start = [] ∨ start = [.current])) := by
  unfold components
  cases ha : p.isAbsolute with
  | true => exact ⟨[.root], by simp, .inl ⟨rfl, rfl⟩⟩
  | false =>
    rw [if_neg Bool.false_ne_true]
    split
    · next rest hs =>
      refine ⟨[.current], ?_, .inr ⟨rfl, .inr rfl⟩⟩
      rw [hs, List.filterMap_cons_none (show component? "." = none from rfl)]
      rfl
    · exact ⟨[], rfl, .inr ⟨rfl, .inl rfl⟩⟩

theorem isDirect_eq (p : Path) : p.isDirect = isDirectFrom (p.steps.filterMap component?) := by
  unfold isDirect
  obtain ⟨start, hc, ⟨-, rfl⟩ | ⟨-, rfl | rfl⟩⟩ := p.exists_start <;>
    · rw [hc]
      rfl

theorem isDirect_of_isPlain (h : p.isPlain = true) : p.isDirect = true := by
  refine isDirectFrom_of_not_mem fun hm => ?_
  have := List.all_eq_true.mp h _ hm
  cases this

theorem isDirect_child (h : p.isDirect = true) {n : String} (hn : IsName n) :
    (p.child n).isDirect = true := by
  rw [isDirect_eq] at h ⊢
  rw [steps_child p hn, List.filterMap_append, List.filterMap_cons_some (component?_of_isName hn)]
  exact (isDirectFrom_concat _ n).trans h

/-! ## Parents -/

/-- A component that a step stands for is written as that step. -/
theorem of_mem_filterMap {c : Component} (h : c ∈ p.steps.filterMap component?) :
    component? (segment c) = some c ∧ segment c ≠ "" ∧ '/' ∉ (segment c).toList ∧
      (c = .parent ∨ ∃ n, c = .name n ∧ IsName n) := by
  obtain ⟨s, hs, hc⟩ := List.mem_filterMap.mp h
  obtain ⟨hne, hslash⟩ := mem_steps hs
  have hsegment : segment c = s ∧ (c = .parent ∨ ∃ n, c = .name n ∧ IsName n) := by
    unfold component? at hc
    split at hc
    · cases hc
    · next hdot =>
      split at hc
      · next hup =>
        cases hc
        exact ⟨hup.symm, .inl rfl⟩
      · next hup =>
        cases hc
        exact ⟨rfl, .inr ⟨s, rfl, hne, hdot, hup, hslash⟩⟩
  obtain ⟨rfl, hkind⟩ := hsegment
  exact ⟨hc, hne, hslash, hkind⟩

theorem ofComponents_of_head {cs : List Component} (h : cs.head? ≠ some .root) :
    ofComponents cs = ⟨"/".intercalate (cs.map segment)⟩ := by
  cases cs with
  | nil => rfl
  | cons c rest =>
    cases c with
    | root => exact absurd rfl h
    | current => rfl
    | parent => rfl
    | name n => rfl

/-- Components that are read from the way they are written are read from all of them together. -/
theorem filterMap_component?_segments {cs : List Component} (h : ∀ c ∈ cs, component? (segment c) = some c) :
    (cs.map segment).filterMap component? = cs := by
  induction cs with
  | nil => rfl
  | cons c rest ih =>
    obtain ⟨hc, hrest⟩ := List.forall_mem_cons.mp h
    rw [List.map_cons, List.filterMap_cons_some hc, ih hrest]

/-- A path written from where it starts and from components of steps has these for its steps. -/
theorem ofComponents_start {start cs : List Component} {absolute : Bool}
    (hstart : absolute = true ∧ start = [.root] ∨ absolute = false ∧ (start = [] ∨ start = [.current]))
    (hcs : ∀ c ∈ cs, component? (segment c) = some c ∧ segment c ≠ "" ∧ '/' ∉ (segment c).toList) :
    (ofComponents (start ++ cs)).isAbsolute = absolute ∧
      (ofComponents (start ++ cs)).steps.filterMap component? = cs := by
  have hsegs : ∀ s ∈ cs.map segment, s ≠ "" ∧ '/' ∉ s.toList := by
    intro s hs
    obtain ⟨c, hc, rfl⟩ := List.mem_map.mp hs
    exact (hcs c hc).2
  have hread : (cs.map segment).filterMap component? = cs :=
    filterMap_component?_segments fun c hc => (hcs c hc).1
  have hroot : cs.head? ≠ some .root := by
    intro he
    cases (hcs _ (List.mem_of_mem_head? he)).1
  rcases hstart with ⟨rfl, rfl⟩ | ⟨rfl, rfl | rfl⟩
  · show (⟨"/" ++ "/".intercalate (cs.map segment)⟩ : Path).isAbsolute = true ∧
      (⟨"/" ++ "/".intercalate (cs.map segment)⟩ : Path).steps.filterMap component? = cs
    rw [steps_slash, steps_intercalate hsegs]
    exact ⟨isAbsolute_slash _, hread⟩
  · rw [List.nil_append, ofComponents_of_head hroot, steps_intercalate hsegs]
    exact ⟨isAbsolute_intercalate hsegs, hread⟩
  · have hdot : ∀ s ∈ ([Component.current] ++ cs).map segment, s ≠ "" ∧ '/' ∉ s.toList :=
      List.forall_mem_cons.mpr ⟨by decide, hsegs⟩
    rw [ofComponents_of_head (by simp), steps_intercalate hdot]
    exact ⟨isAbsolute_intercalate hdot, hread⟩

/-- The path around a path with a name leads to the directory around. -/
theorem parent?_of_fileName? {n : String} (h : p.fileName? = some n) :
    ∃ q, p.parent? = some q ∧ IsName n ∧ q.isDirect = p.isDirect ∧
      ∀ cwd, Location.resolve cwd p = Location.resolve cwd q ++ [n] := by
  obtain ⟨start, hc, hstart⟩ := p.exists_start
  have hlast : p.components.getLast? = some (.name n) := by
    unfold fileName? at h
    split at h
    · next s hs =>
      cases h
      exact hs
    · cases h
  -- the name comes from a step, not from the start
  obtain ⟨init, hinit⟩ : ∃ init, p.steps.filterMap component? = init ++ [.name n] := by
    rcases List.eq_nil_or_concat (p.steps.filterMap component?) with he | ⟨init, c, he⟩
    · rw [hc, he, List.append_nil] at hlast
      rcases hstart with ⟨-, rfl⟩ | ⟨-, rfl | rfl⟩ <;> cases hlast
    · rw [hc, he, List.concat_eq_append, ← List.append_assoc, List.getLast?_concat] at hlast
      cases hlast
      exact ⟨init, by rw [he, List.concat_eq_append]⟩
  have hcs := fun c (hc : c ∈ init) => of_mem_filterMap (p := p) (hinit ▸ List.mem_append_left _ hc)
  obtain ⟨habs, hsteps⟩ := ofComponents_start hstart fun c hc => ⟨(hcs c hc).1, (hcs c hc).2.1, (hcs c hc).2.2.1⟩
  have hname : IsName n := by
    obtain ⟨-, -, -, hp | ⟨m, hm, hname⟩⟩ :=
      of_mem_filterMap (p := p) (c := .name n) (by rw [hinit]; simp)
    · cases hp
    · cases hm
      exact hname
  refine ⟨ofComponents (start ++ init), ?_, hname, ?_, fun cwd => ?_⟩
  · have hall : p.components = (start ++ init) ++ [.name n] := by rw [hc, hinit, List.append_assoc]
    unfold parent?
    rw [hall]
    split
    · next he => simp at he
    · next he =>
      have := congrArg List.getLast? he
      simp at this
    · rw [List.dropLast_concat]
  · rw [isDirect_eq, isDirect_eq p, hsteps, hinit, isDirectFrom_concat]
  · rw [resolve_eq, resolve_eq _ cwd, habs, hsteps, hinit, Location.ofSteps_append]
    rfl

/-- A direct path with a name ends with one. -/
theorem exists_fileName? (h : p.isDirect = true) {s : String} (hs : s ∈ p.steps) (hdot : s ≠ ".")
    (hup : s ≠ "..") : ∃ n, p.fileName? = some n := by
  obtain ⟨start, hc, -⟩ := p.exists_start
  have hm : Component.name s ∈ p.steps.filterMap component? := by
    refine List.mem_filterMap.mpr ⟨s, hs, ?_⟩
    unfold component?
    rw [if_neg hdot, if_neg hup]
  rw [isDirect_eq] at h
  rcases List.eq_nil_or_concat (p.steps.filterMap component?) with he | ⟨init, c, he⟩
  · rw [he] at hm
    cases hm
  · rw [List.concat_eq_append] at he
    obtain ⟨-, -, -, rfl | ⟨n, rfl, -⟩⟩ := of_mem_filterMap (p := p) (c := c) (by rw [he]; simp)
    · -- a `..` at the end would follow the name
      rw [he] at hm h
      have hinit : Component.name s ∈ init := by simpa using hm
      exact absurd h (by simp [isDirectFrom_concat_parent hinit])
    · refine ⟨n, ?_⟩
      unfold fileName?
      rw [hc, he, ← List.append_assoc, List.getLast?_concat]

end Path

end SchemaGen
