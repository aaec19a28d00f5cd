import Mathlib.Data.String.Basic
import SchemaGen.Model.Catalog

/-!
# The order of name maps

A map that is built by insertions holds its names in order and each of them once. So its pairs are
exactly what looking up yields, and the names of a list, sorted, are the names of the list.

Results:
1. `ordered_insert`, `ordered_ofList`: insertions keep the names in order.
2. `Ordered.mem_pairs_iff`, `Ordered.ext`: the pairs of an ordered map are what it holds.
3. `get?_ofList`: what the map of a list with different names holds.
4. `mem_sortedNames`, `nodup_sortedNames`, `sortedNames_perm`: sorting drops nothing but repetitions.
5. `names_ofList`: the names of the map of a list.
-/

namespace SchemaGen

namespace NameMap

variable {α : Type}

/-- Every name of the map stands before those that follow it. -/
def Ordered (m : NameMap α) : Prop := m.pairs.Pairwise fun a b => a.1 < b.1

theorem ordered_empty : (empty : NameMap α).Ordered := List.Pairwise.nil

theorem forall_insertPair {P : String → Prop} {name : String} {value : α}
    {pairs : List (String × α)} (hn : P name) (h : ∀ p ∈ pairs, P p.1) :
    ∀ p ∈ insertPair name value pairs, P p.1 := by
  intro p hp
  have hm : p.1 ∈ (insertPair name value pairs).map Prod.fst := List.mem_map_of_mem hp
  rw [mem_map_insertPair] at hm
  rcases hm with he | hm
  · rw [he]
    exact hn
  · obtain ⟨q, hq, he⟩ := List.mem_map.mp hm
    rw [← he]
    exact h q hq

theorem pairwise_insertPair {pairs : List (String × α)} (name : String) (value : α)
    (h : pairs.Pairwise fun a b => a.1 < b.1) :
    (insertPair name value pairs).Pairwise fun a b => a.1 < b.1 := by
  induction pairs with
  | nil => exact List.pairwise_singleton _ _
  | cons p rest ih =>
    obtain ⟨other, old⟩ := p
    obtain ⟨hp, hr⟩ := List.pairwise_cons.mp h
    unfold insertPair
    split
    · next he =>
      subst he
      exact List.pairwise_cons.mpr ⟨hp, hr⟩
    · next hne =>
      split
      · next hlt =>
        refine List.pairwise_cons.mpr ⟨?_, h⟩
        intro q hq
        rcases List.mem_cons.mp hq with rfl | hq
        · exact hlt
        · exact lt_trans hlt (hp q hq)
      · next hge =>
        have hlt : other < name := lt_of_le_of_ne (not_lt.mp hge) (Ne.symm hne)
        exact List.pairwise_cons.mpr ⟨forall_insertPair hlt hp, ih hr⟩

theorem ordered_insert {m : NameMap α} (h : m.Ordered) (name : String) (value : α) :
    (m.insert name value).Ordered :=
  pairwise_insertPair name value h

theorem ordered_foldl_insert {β : Type} (key : β → String) (val : β → α) (xs : List β) {m : NameMap α}
    (h : m.Ordered) : (xs.foldl (fun m x => m.insert (key x) (val x)) m).Ordered := by
  induction xs generalizing m with
  | nil => exact h
  | cons x rest ih => exact ih (ordered_insert h (key x) (val x))

theorem ordered_ofList (pairs : List (String × α)) : (ofList pairs).Ordered :=
  ordered_foldl_insert Prod.fst Prod.snd pairs ordered_empty

theorem Ordered.nodup_names {m : NameMap α} (h : m.Ordered) : m.names.Nodup := by
  unfold NameMap.names List.Nodup
  rw [List.pairwise_map]
  exact h.imp fun hlt => ne_of_lt hlt

theorem mem_pairs_of_lookupPair {n : String} {v : α} {pairs : List (String × α)}
    (h : lookupPair n pairs = some v) : (n, v) ∈ pairs := by
  induction pairs with
  | nil => simp [lookupPair] at h
  | cons p rest ih =>
    obtain ⟨k, w⟩ := p
    unfold lookupPair at h
    split at h
    · next he =>
      subst he
      cases h
      exact List.mem_cons_self
    · exact List.mem_cons_of_mem _ (ih h)

theorem lookupPair_of_mem {n : String} {v : α} {pairs : List (String × α)}
    (hu : (pairs.map Prod.fst).Nodup) (h : (n, v) ∈ pairs) : lookupPair n pairs = some v := by
  induction pairs with
  | nil => cases h
  | cons p rest ih =>
    obtain ⟨k, w⟩ := p
    rw [List.map_cons, List.nodup_cons] at hu
    rcases List.mem_cons.mp h with he | hr
    · cases he
      simp [lookupPair]
    · have hne : n ≠ k := by
        rintro rfl
        exact hu.1 (List.mem_map.mpr ⟨(n, v), hr, rfl⟩)
      unfold lookupPair
      rw [if_neg hne]
      exact ih hu.2 hr

theorem Ordered.mem_pairs_iff {m : NameMap α} (h : m.Ordered) {n : String} {v : α} :
    (n, v) ∈ m.pairs ↔ m.get? n = some v :=
  ⟨lookupPair_of_mem h.nodup_names, mem_pairs_of_lookupPair⟩

theorem Ordered.mem_names_iff {m : NameMap α} (h : m.Ordered) {n : String} :
    n ∈ m.names ↔ ∃ v, m.get? n = some v := by
  unfold NameMap.names
  constructor
  · intro hn
    obtain ⟨⟨k, v⟩, hp, rfl⟩ := List.mem_map.mp hn
    exact ⟨v, h.mem_pairs_iff.mp hp⟩
  · rintro ⟨v, hv⟩
    exact List.mem_map_of_mem (h.mem_pairs_iff.mpr hv)

theorem Ordered.mem_values_iff {m : NameMap α} (h : m.Ordered) {v : α} :
    v ∈ m.values ↔ ∃ n, m.get? n = some v := by
  unfold NameMap.values
  constructor
  · intro hv
    obtain ⟨⟨n, w⟩, hp, rfl⟩ := List.mem_map.mp hv
    exact ⟨n, h.mem_pairs_iff.mp hp⟩
  · rintro ⟨n, hn⟩
    exact List.mem_map.mpr ⟨(n, v), h.mem_pairs_iff.mpr hn, rfl⟩

/-- Values that tell the names they stand under tell all names of the map. -/
theorem Ordered.map_values {m : NameMap α} (h : m.Ordered) {name : α → String}
    (hname : ∀ n v, m.get? n = some v → name v = n) : m.values.map name = m.names := by
  unfold NameMap.values NameMap.names
  rw [List.map_map]
  exact List.map_congr_left fun p hp => hname p.1 p.2 (h.mem_pairs_iff.mp hp)

/-- Ordered maps that hold the same are the same. -/
theorem Ordered.ext {m m' : NameMap α} (h : m.Ordered) (h' : m'.Ordered)
    (hg : ∀ n v, m.get? n = some v ↔ m'.get? n = some v) : m = m' := by
  have hu : ∀ {m : NameMap α}, m.Ordered → m.pairs.Nodup := fun h =>
    h.imp fun hlt he => ne_of_lt hlt (congrArg Prod.fst he)
  have hperm : m.pairs.Perm m'.pairs := (List.perm_ext_iff_of_nodup (hu h) (hu h')).mpr fun ⟨n, v⟩ => by
    rw [h.mem_pairs_iff, h'.mem_pairs_iff, hg]
  have hpairs : m.pairs = m'.pairs :=
    hperm.eq_of_pairwise (fun _ _ _ _ hab hba => absurd hab (lt_asymm hba)) h h'
  exact congrArg NameMap.mk hpairs

theorem get?_foldl_insert_of_not_mem {β : Type} (key : β → String) (val : β → α) {n : String}
    (xs : List β) (m : NameMap α) (h : ∀ x ∈ xs, key x ≠ n) :
    (xs.foldl (fun m x => m.insert (key x) (val x)) m).get? n = m.get? n := by
  induction xs generalizing m with
  | nil => rfl
  | cons x rest ih =>
    rw [List.foldl_cons, ih _ fun y hy => h y (List.mem_cons_of_mem _ hy), get?_insert,
      if_neg (h x List.mem_cons_self).symm]

theorem get?_foldl_insert {β : Type} (key : β → String) (val : β → α) (xs : List β) (m : NameMap α)
    (hu : (xs.map key).Nodup) (n : String) (v : α) :
    (xs.foldl (fun m x => m.insert (key x) (val x)) m).get? n = some v ↔
      (∃ x ∈ xs, key x = n ∧ val x = v) ∨ ((∀ x ∈ xs, key x ≠ n) ∧ m.get? n = some v) := by
  induction xs generalizing m with
  | nil => simp
  | cons x rest ih =>
    rw [List.map_cons, List.nodup_cons] at hu
    rw [List.foldl_cons]
    by_cases hx : key x = n
    · -- the name of the head is no other's, so that the later insertions leave its value
      have hrest : ∀ y ∈ rest, key y ≠ n := fun y hy he =>
        hu.1 (List.mem_map.mpr ⟨y, hy, he.trans hx.symm⟩)
      rw [get?_foldl_insert_of_not_mem key val rest _ hrest, get?_insert, if_pos hx.symm]
      constructor
      · intro h
        exact .inl ⟨x, List.mem_cons_self, hx, Option.some.inj h⟩
      · rintro (⟨y, hy, hk, hv⟩ | ⟨hall, -⟩)
        · rcases List.mem_cons.mp hy with rfl | hy
          · rw [hv]
          · exact absurd hk (hrest y hy)
        · exact absurd hx (hall x List.mem_cons_self)
    · rw [ih _ hu.2, get?_insert, if_neg (Ne.symm hx)]
      simp [hx]

theorem get?_ofList {pairs : List (String × α)} (hu : (pairs.map Prod.fst).Nodup) (n : String)
    (v : α) : (ofList pairs).get? n = some v ↔ (n, v) ∈ pairs := by
  unfold ofList
  rw [get?_foldl_insert Prod.fst Prod.snd pairs empty hu]
  constructor
  · rintro (⟨⟨k, w⟩, hp, rfl, rfl⟩ | ⟨-, h⟩)
    · exact hp
    · simp [empty, get?, lookupPair] at h
  · intro h
    exact .inl ⟨(n, v), h, rfl, rfl⟩

theorem mem_names_foldl_insert {β : Type} (key : β → String) (val : β → α) (xs : List β)
    (m : NameMap α) (n : String) :
    n ∈ (xs.foldl (fun m x => m.insert (key x) (val x)) m).names ↔
      (∃ x ∈ xs, key x = n) ∨ n ∈ m.names := by
  induction xs generalizing m with
  | nil => simp
  | cons x rest ih =>
    rw [List.foldl_cons, ih, mem_names_insert]
    simp only [List.mem_cons, exists_eq_or_imp]
    grind

theorem mem_names_ofList (pairs : List (String × α)) (n : String) :
    n ∈ (ofList pairs).names ↔ n ∈ pairs.map Prod.fst := by
  unfold ofList
  rw [mem_names_foldl_insert Prod.fst Prod.snd]
  simp [names, empty]

end NameMap

theorem mem_sortedNames (names : List String) (n : String) : n ∈ sortedNames names ↔ n ∈ names := by
  unfold sortedNames
  rw [NameMap.mem_names_ofList]
  simp

theorem NameMap.insert_ofList {α : Type} (pairs : List (String × α)) (name : String) (value : α) :
    (NameMap.ofList pairs).insert name value = NameMap.ofList (pairs ++ [(name, value)]) := by
  unfold NameMap.ofList
  rw [List.foldl_append]
  rfl

/-- The names of the map of a list are those of the list, sorted: there is one strictly ordered list of
the names. -/
theorem NameMap.names_ofList {α : Type} (pairs : List (String × α)) :
    (NameMap.ofList pairs).names = sortedNames (pairs.map Prod.fst) := by
  have hnames : ∀ {β : Type} (ps : List (String × β)), (NameMap.ofList ps).names.Pairwise (· < ·) := by
    intro β ps
    unfold NameMap.names
    rw [List.pairwise_map]
    exact NameMap.ordered_ofList ps
  have hsorted : (sortedNames (pairs.map Prod.fst)).Pairwise (· < ·) := hnames _
  refine List.Perm.eq_of_pairwise (fun a b _ _ hab hba => absurd hab (lt_asymm hba)) (hnames pairs) hsorted ?_
  refine (List.perm_ext_iff_of_nodup ((hnames pairs).imp ne_of_lt) (hsorted.imp ne_of_lt)).mpr fun n => ?_
  rw [NameMap.mem_names_ofList, mem_sortedNames]

theorem nodup_sortedNames (names : List String) : (sortedNames names).Nodup :=
  (NameMap.ordered_ofList _).nodup_names

theorem sortedNames_perm {names : List String} (h : names.Nodup) : (sortedNames names).Perm names :=
  (List.perm_ext_iff_of_nodup (nodup_sortedNames names) h).mpr (mem_sortedNames names)

end SchemaGen
