import SchemaGen.Proofs.Run.Locations

/-!
# Relative paths

The stack of the API refers to the schema file by a path that sets out from the directory of the stack. Both
may be written in any way: from the root or from the working directory, with `.` and `..` wherever they may
stand, above the root too. What counts is their normal form, which is the place that they lead to, written
from the root.

The relative path goes up to where the two places part and then down. That no other path from the first to
the second is shorter is seen step by step: a step taken at the start of a way is either one that leads
nearer, and then it is the first step of the shortest way, or one that has to be taken back.

Results:
1. `Location.isMeet_common`: the shared part of two locations is the longest.
2. `Location.relative_sublist`: whoever goes from one location to another takes the steps of the shortest way.
3. `Path.relative_eq`, `Path.ofComponents_relative`: how the relative path is written.
4. `Path.relative_spec`: the relative path is the shortest way, and depends on the normal forms only.
-/

namespace SchemaGen

/-! ## Where locations part -/

namespace Location

variable {a b : Location}

/-- The longest location that both start with. -/
structure IsMeet (shared a b : Location) : Prop where
  left : shared <+: a
  right : shared <+: b
  longest : ∀ other, other <+: a → other <+: b → other <+: shared

theorem le_common {other : Location} (ha : other <+: a) (hb : other <+: b) : other.length ≤ common a b := by
  induction other generalizing a b with
  | nil => exact Nat.zero_le _
  | cons n rest ih =>
    obtain ⟨as, rfl⟩ := ha
    obtain ⟨bs, rfl⟩ := hb
    have hrest : rest.length ≤ common (rest ++ as) (rest ++ bs) := ih ⟨as, rfl⟩ ⟨bs, rfl⟩
    rw [List.cons_append, List.cons_append, common, if_pos rfl, List.length_cons]
    exact Nat.succ_le_succ hrest

theorem isMeet_common (a b : Location) : IsMeet (a.take (common a b)) a b where
  left := List.take_prefix _ _
  right := take_common a b ▸ List.take_prefix _ _
  longest other ha hb := by
    refine List.prefix_of_prefix_length_le ha (List.take_prefix _ _) ?_
    rw [List.length_take, Nat.min_eq_left (common_le_length a b)]
    exact le_common ha hb

/-! ## The shortest way -/

theorem relative_cons_cons (n : String) (a b : Location) : relative (n :: a) (n :: b) = relative a b := by
  unfold relative
  rw [common, if_pos rfl, List.length_cons, Nat.add_sub_add_right, List.drop_succ_cons]

/-- Locations that share nothing: all the way up, and all the way down. -/
theorem relative_of_common (h : common a b = 0) :
    relative a b = List.replicate a.length .parent ++ b.map .name := by
  unfold relative
  rw [h]
  rfl

theorem relative_nil (b : Location) : relative [] b = b.map .name := relative_of_common rfl

theorem relative_self (a : Location) : relative a a = [] := by
  induction a with
  | nil => rfl
  | cons n rest ih => rw [relative_cons_cons, ih]

theorem relative_concat_of_common {n : String} (h : common a b = 0) (hn : common (a ++ [n]) b = 0) :
    relative (a ++ [n]) b = .parent :: relative a b := by
  rw [relative_of_common hn, relative_of_common h, List.length_append]
  rfl

/-- One location further down, the way is shorter by the step down or longer by a step up. -/
theorem relative_concat (a b : Location) (n : String) :
    relative a b = .name n :: relative (a ++ [n]) b ∨ relative (a ++ [n]) b = .parent :: relative a b := by
  induction a generalizing b with
  | nil =>
    cases b with
    | nil => exact .inr rfl
    | cons m bs =>
      by_cases h : n = m
      · subst h
        rw [List.nil_append, relative_cons_cons, relative_nil, relative_nil]
        exact .inl rfl
      · exact .inr (relative_concat_of_common rfl (if_neg h))
  | cons k as ih =>
    cases b with
    | nil => exact .inr (relative_concat_of_common rfl rfl)
    | cons m bs =>
      by_cases h : k = m
      · subst h
        rw [List.cons_append, relative_cons_cons, relative_cons_cons]
        exact ih bs
      · exact .inr (relative_concat_of_common (if_neg h) (if_neg h))

/-- Steps that lead from one location to another have those of the shortest way among them. -/
theorem relative_sublist {steps : List Component} (hroot : .root ∉ steps) (h : ofSteps a steps = b) :
    (relative a b).Sublist steps := by
  induction steps generalizing a with
  | nil =>
    cases h
    rw [show ofSteps a [] = a from rfl, relative_self]
  | cons step rest ih =>
    rw [List.mem_cons, not_or] at hroot
    have hrest : (relative (a.follow step) b).Sublist rest := ih hroot.2 h
    cases step with
    | root => exact absurd rfl hroot.1
    | current => exact hrest.cons _
    | parent =>
      rcases List.eq_nil_or_concat a with rfl | ⟨up, n, rfl⟩
      · exact hrest.cons _
      · rw [List.concat_eq_append] at hrest ⊢
        rw [show follow (up ++ [n]) .parent = up from List.dropLast_concat] at hrest
        rcases relative_concat up b n with hdown | hup
        · -- the way led further down, and the step back has to be made good
          rw [hdown] at hrest
          exact (List.sublist_of_cons_sublist hrest).cons _
        · rw [hup]
          exact hrest.cons_cons _
    | name n =>
      rcases relative_concat a b n with hdown | hup
      · rw [hdown]
        exact hrest.cons_cons _
      · rw [show a.follow (.name n) = a ++ [n] from rfl, hup] at hrest
        exact (List.sublist_of_cons_sublist hrest).cons _

end Location

/-! ## Lengths of texts -/

namespace Text

theorem intercalate_cons {sep : Char} {seg : List Char} {segs : List (List Char)} (h : segs ≠ []) :
    [sep].intercalate (seg :: segs) = seg ++ sep :: [sep].intercalate segs := by
  cases segs with
  | nil => exact absurd rfl h
  | cons next others => simp [List.intercalate]

/-- A text is what its stretches are joined to again. -/
theorem intercalate_splitAt (sep : Char) (cs : List Char) : [sep].intercalate (splitAt sep cs) = cs := by
  induction cs with
  | nil => rfl
  | cons c rest ih =>
    unfold splitAt
    split
    · next hc =>
      rw [intercalate_cons (splitAt_ne_nil sep rest), ih, hc]
      rfl
    · cases hs : splitAt sep rest with
      | nil => exact absurd hs (splitAt_ne_nil sep rest)
      | cons first others =>
        rw [hs] at ih
        cases others with
        | nil =>
          rw [List.intercalate_singleton] at ih ⊢
          rw [ih]
        | cons next more =>
          rw [intercalate_cons (List.cons_ne_nil next more)] at ih ⊢
          rw [List.cons_append, ih]

/-- How long a joined text is: the stretches, and a separator for each but the last. -/
theorem length_intercalate (sep : Char) (segs : List (List Char)) :
    ([sep].intercalate segs).length = (segs.map fun seg => seg.length + 1).sum - 1 := by
  induction segs with
  | nil => rfl
  | cons seg rest ih =>
    cases rest with
    | nil =>
      rw [List.intercalate_singleton, List.map_singleton, List.sum_singleton]
      rfl
    | cons next others =>
      rw [intercalate_cons (List.cons_ne_nil next others), List.length_append, List.length_cons, ih]
      simp only [List.map_cons, List.sum_cons]
      omega

/-- With fewer stretches a joined text is no longer. -/
theorem length_intercalate_le (sep : Char) {segs segs' : List (List Char)} (h : segs.Sublist segs') :
    ([sep].intercalate segs).length ≤ ([sep].intercalate segs').length := by
  have hsum : (segs.map fun seg => seg.length + 1).sum ≤ (segs'.map fun seg => seg.length + 1).sum := by
    induction h with
    | slnil => exact Nat.le_refl _
    | cons seg _ ih =>
      rw [List.map_cons, List.sum_cons]
      exact Nat.le_trans ih (Nat.le_add_left _ _)
    | cons_cons seg _ ih =>
      rw [List.map_cons, List.map_cons, List.sum_cons, List.sum_cons]
      exact Nat.add_le_add_left ih _
  rw [length_intercalate, length_intercalate]
  exact Nat.sub_le_sub_right hsum 1

end Text

/-! ## Relative paths -/

namespace Path

/-- The place that a path leads to, read from a directory, written from the root. -/
def normalize (dir p : Path) : Path := (Location.resolve [] (dir.join p)).fullPath

/-- A path that is the shortest way from one place to another, both read from a directory: followed from
the first it leads to the second, by as many `..` as the first has names below what both share, and then
down through the names of the second. Any other relative path that leads there takes these steps too. -/
structure IsWay (dir source target way : Path) : Prop where
  leads : normalize dir (source.join way) = normalize dir target
  relative : way.isAbsolute = false
  written : way.text = "/".intercalate way.steps
  undotted : "." ∉ way.steps
  direct : way.isDirect = true
  steps : ∃ shared, Location.IsMeet shared (normalize dir source).steps (normalize dir target).steps ∧
    way.steps = List.replicate ((normalize dir source).steps.length - shared.length) ".." ++
      (normalize dir target).steps.drop shared.length
  shortest : ∀ other : Path, other.isAbsolute = false →
    normalize dir (source.join other) = normalize dir target →
      way.steps.Sublist other.steps ∧ way.text.length ≤ other.text.length

variable {dir source target p : Path}

theorem isName_of_mem_place {n : String} (h : n ∈ Location.resolve [] p) : IsName n :=
  isName_of_mem_resolve (List.forall_mem_nil _) h

theorem steps_fullPath {loc : Location} (h : ∀ n ∈ loc, IsName n) : loc.fullPath.steps = loc := by
  have hsegments : (loc.map Component.name).map segment = loc := by
    rw [List.map_map]
    exact List.map_id loc
  have hfull : loc.fullPath = ⟨"/" ++ "/".intercalate ((loc.map Component.name).map segment)⟩ := rfl
  rw [hfull, hsegments, steps_slash, steps_intercalate fun n hn => ⟨(h n hn).1, (h n hn).2.2.2⟩]

theorem steps_normalize (dir p : Path) : (normalize dir p).steps = Location.resolve [] (dir.join p) :=
  steps_fullPath fun _ => isName_of_mem_place

/-- Paths have one normal form exactly if they lead to one place. -/
theorem normalize_eq_iff {dir' p' : Path} : normalize dir p = normalize dir' p' ↔
    Location.resolve [] (dir.join p) = Location.resolve [] (dir'.join p') := by
  constructor
  · intro h
    rw [← steps_normalize, ← steps_normalize, h]
  · intro h
    rw [normalize, normalize, h]

/-! ### How the relative path is written -/

/-- The steps of the way between two locations. -/
def stepsBetween (a b : Location) : List String :=
  List.replicate (a.length - Location.common a b) ".." ++ b.drop (Location.common a b)

theorem map_segment_relative (a b : Location) : (Location.relative a b).map segment = stepsBetween a b := by
  unfold Location.relative stepsBetween
  rw [List.map_append, List.map_replicate, List.map_map]
  exact congrArg _ (List.map_id _)

variable {a b : Location}

theorem of_mem_relative {c : Component} (h : c ∈ Location.relative a b) :
    c = .parent ∨ ∃ n ∈ b, c = .name n := by
  rcases List.mem_append.mp h with h | h
  · exact .inl (List.eq_of_mem_replicate h)
  · obtain ⟨n, hn, rfl⟩ := List.mem_map.mp h
    exact .inr ⟨n, List.mem_of_mem_drop hn, rfl⟩

theorem isDirectFrom_relative (a b : Location) : isDirectFrom (Location.relative a b) = true := by
  unfold Location.relative
  induction a.length - Location.common a b with
  | zero =>
    refine isDirectFrom_of_not_mem fun h => ?_
    obtain ⟨n, -, hn⟩ := List.mem_map.mp h
    cases hn
  | succ k ih => exact ih

section Written

variable (hb : ∀ n ∈ b, IsName n)

include hb

theorem segment_relative {c : Component} (h : c ∈ Location.relative a b) :
    component? (segment c) = some c ∧ segment c ≠ "." ∧ segment c ≠ "" ∧ '/' ∉ (segment c).toList := by
  rcases of_mem_relative h with rfl | ⟨n, hn, rfl⟩
  · exact ⟨rfl, by decide, by decide, by decide⟩
  · exact ⟨component?_of_isName (hb n hn), (hb n hn).2.1, (hb n hn).1, (hb n hn).2.2.2⟩

theorem stepsBetween_proper : ∀ s ∈ stepsBetween a b, s ≠ "" ∧ '/' ∉ s.toList := by
  rw [← map_segment_relative]
  exact List.forall_mem_map.mpr fun c hc => (segment_relative hb hc).2.2

theorem filterMap_stepsBetween : (stepsBetween a b).filterMap component? = Location.relative a b := by
  rw [← map_segment_relative, List.filterMap_map]
  calc (Location.relative a b).filterMap (component? ∘ segment)
      = (Location.relative a b).filterMap some :=
        List.filterMap_congr fun c hc => (segment_relative hb hc).1
    _ = Location.relative a b := List.filterMap_some

end Written

theorem ofComponents_relative (a b : Location) :
    ofComponents (Location.relative a b) = ⟨"/".intercalate (stepsBetween a b)⟩ := by
  rw [← map_segment_relative]
  refine ofComponents_of_head fun h => ?_
  rcases of_mem_relative (List.mem_of_mem_head? h) with h | ⟨n, -, h⟩ <;> cases h

/-- Read from a directory, the relative path is written with the steps from place to place. -/
theorem relative_eq (dir source target : Path) : relative (Location.resolve [] dir) source target =
    "/".intercalate (stepsBetween (normalize dir source).steps (normalize dir target).steps) := by
  unfold relative
  rw [← resolve_join, ← resolve_join, ofComponents_relative, steps_normalize, steps_normalize]

/-! ### Other ways -/

/-- A path that goes on from a source leads where its steps lead from there. -/
theorem resolve_source_join {other : Path} (h : other.isAbsolute = false) :
    Location.resolve [] (dir.join (source.join other)) =
      Location.ofSteps (Location.resolve [] (dir.join source)) (other.steps.filterMap component?) := by
  rw [resolve_join, resolve_join, ← resolve_join dir, resolve_eq other, h, if_neg Bool.false_ne_true]

theorem root_not_mem_filterMap (steps : List String) : Component.root ∉ steps.filterMap component? := by
  intro h
  obtain ⟨s, -, hs⟩ := List.mem_filterMap.mp h
  unfold component? at hs
  split at hs
  · cases hs
  · split at hs <;> cases hs

theorem map_segment_filterMap (steps : List String) :
    (steps.filterMap component?).map segment = steps.filter fun s => s != "." := by
  induction steps with
  | nil => rfl
  | cons s rest ih =>
    by_cases hdot : s = "."
    · rw [List.filterMap_cons_none (by rw [hdot]; rfl), List.filter_cons_of_neg (by simp [hdot]), ih]
    · have hs : ∃ c, component? s = some c ∧ segment c = s := by
        unfold component?
        rw [if_neg hdot]
        split
        · next hup => exact ⟨_, rfl, hup.symm⟩
        · exact ⟨_, rfl, rfl⟩
      obtain ⟨c, hc, hsegment⟩ := hs
      rw [List.filterMap_cons_some hc, List.filter_cons_of_pos (by simpa using hdot), List.map_cons, ih,
        hsegment]

/-- Fewer steps make a text that is no longer. -/
theorem length_text_le {way other : Path} (hway : way.text = "/".intercalate way.steps)
    (h : way.steps.Sublist other.steps) : way.text.length ≤ other.text.length := by
  have hsteps : (way.steps.map String.toList).Sublist (Text.splitAt '/' other.text.toList) := by
    refine (h.map String.toList).trans ?_
    have hread : String.toList ∘ String.ofList = id := funext fun _ => String.toList_ofList
    unfold steps
    rw [List.map_map, hread, List.map_id]
    exact List.filter_sublist
  have hlength := Text.length_intercalate_le '/' hsteps
  rw [Text.intercalate_splitAt] at hlength
  rw [← String.length_toList, ← String.length_toList, hway, String.toList_intercalate]
  exact hlength

theorem isName_of_mem_steps {n : String} (h : n ∈ (normalize dir p).steps) : IsName n := by
  rw [steps_normalize] at h
  exact isName_of_mem_place h

/-- A relative path with the steps from place to place is the shortest way. -/
theorem isWay_of_steps {way : Path} (hrelative : way.isAbsolute = false)
    (hsteps : way.steps = stepsBetween (normalize dir source).steps (normalize dir target).steps)
    (hwritten : way.text = "/".intercalate way.steps) : IsWay dir source target way where
  relative := hrelative
  written := hwritten
  leads := by
    rw [normalize_eq_iff, resolve_source_join hrelative, hsteps,
      filterMap_stepsBetween fun _ => isName_of_mem_steps, ← steps_normalize, Location.resolve_relative,
      steps_normalize]
  undotted := by
    rw [hsteps, ← map_segment_relative]
    intro h
    obtain ⟨c, hc, hdot⟩ := List.mem_map.mp h
    exact (segment_relative (fun _ => isName_of_mem_steps) hc).2.1 hdot
  direct := by
    rw [isDirect_eq, hsteps, filterMap_stepsBetween fun _ => isName_of_mem_steps]
    exact isDirectFrom_relative _ _
  steps := by
    refine ⟨_, Location.isMeet_common _ _, ?_⟩
    rw [hsteps, List.length_take, Nat.min_eq_left (Location.common_le_length _ _)]
    rfl
  shortest := by
    intro other hother hleads
    rw [normalize_eq_iff, resolve_source_join hother, ← steps_normalize, ← steps_normalize] at hleads
    have hsublist : way.steps.Sublist other.steps := by
      have hway := (Location.relative_sublist (root_not_mem_filterMap _) hleads).map segment
      rw [map_segment_relative, map_segment_filterMap, ← hsteps] at hway
      exact hway.trans List.filter_sublist
    exact ⟨hsublist, length_text_le hwritten hsublist⟩

theorem isWay_relative (dir source target : Path) :
    IsWay dir source target ⟨relative (Location.resolve [] dir) source target⟩ := by
  have hproper := stepsBetween_proper (a := (normalize dir source).steps)
    fun n (hn : n ∈ (normalize dir target).steps) => isName_of_mem_steps hn
  have hsteps := steps_intercalate hproper
  rw [relative_eq]
  refine isWay_of_steps (isAbsolute_intercalate hproper) hsteps ?_
  rw [hsteps]

/-- For every working directory and all paths, however they are written: the relative path is the shortest
way from the first to the second, and it is the same for all paths with the same normal forms, read from
whichever directories. -/
theorem relative_spec (dir source target : Path) :
    IsWay dir source target ⟨relative (Location.resolve [] dir) source target⟩ ∧
      ∀ dir' source' target' : Path, normalize dir' source' = normalize dir source →
        normalize dir' target' = normalize dir target →
          relative (Location.resolve [] dir') source' target' =
            relative (Location.resolve [] dir) source target := by
  refine ⟨isWay_relative dir source target, fun dir' source' target' hsource htarget => ?_⟩
  rw [relative_eq, relative_eq, hsource, htarget]

/-- From the directory of the stack to the schema file, read from a working directory and spelled in a
roundabout way from the root. -/
theorem relative_spec_generated :
    IsWay ⟨"/srv/app"⟩ ⟨"generated/infra"⟩ ⟨"./generated/graphql/schema.graphql"⟩ ⟨"../graphql/schema.graphql"⟩ ∧
      normalize ⟨"/"⟩ ⟨"/srv/app//generated/infra/."⟩ = normalize ⟨"/srv/app"⟩ ⟨"generated/infra"⟩ ∧
      normalize ⟨"/"⟩ ⟨"../srv/app/generated/old/../graphql/schema.graphql"⟩ =
        normalize ⟨"/srv/app"⟩ ⟨"./generated/graphql/schema.graphql"⟩ ∧
      relative (Location.resolve [] ⟨"/"⟩) ⟨"/srv/app//generated/infra/."⟩
        ⟨"../srv/app/generated/old/../graphql/schema.graphql"⟩ = "../graphql/schema.graphql" := by
  obtain ⟨hway, hsame⟩ :=
    relative_spec ⟨"/srv/app"⟩ ⟨"generated/infra"⟩ ⟨"./generated/graphql/schema.graphql"⟩
  have hwritten : relative (Location.resolve [] ⟨"/srv/app"⟩) ⟨"generated/infra"⟩
      ⟨"./generated/graphql/schema.graphql"⟩ = "../graphql/schema.graphql" := by decide +kernel
  have hsource : normalize ⟨"/"⟩ ⟨"/srv/app//generated/infra/."⟩ =
      normalize ⟨"/srv/app"⟩ ⟨"generated/infra"⟩ := by decide +kernel
  have htarget : normalize ⟨"/"⟩ ⟨"../srv/app/generated/old/../graphql/schema.graphql"⟩ =
      normalize ⟨"/srv/app"⟩ ⟨"./generated/graphql/schema.graphql"⟩ := by decide +kernel
  exact ⟨hwritten ▸ hway, hsource, htarget, (hsame _ _ _ hsource htarget).trans hwritten⟩

end Path

end SchemaGen
