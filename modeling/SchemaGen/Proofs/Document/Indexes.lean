import SchemaGen.Proofs.Document.Accepted

/-!
# What accepted indexes look like

The indexes of an accepted table have different names. A local one lies in the partitions of its table
and is sorted, and one that carries a list of attributes lists some, all of them declared.

Results:
1. `Rules.isIndex_of_index`: what one accepted index looks like.
2. `SchemaDoc.hasIndexes_of_parse`: what the indexes of an accepted document look like.
-/

namespace SchemaGen

namespace Rules

variable {file : Path} {field tablePartition : String} {attrs : List AttributeDoc}

/-- What an accepted index looks like. -/
structure IsIndex (attrs : List AttributeDoc) (tablePartition : String) (i : Index) : Prop where
  inPartition : i.kind = .lsi → i.partition = tablePartition
  sorted : i.kind = .lsi → i.sort.isSome = true
  listed : ∀ names, i.projection = .including names →
    names ≠ [] ∧ ∀ name ∈ names, ∃ a ∈ attrs, a.name = name

/-- A projection that was accepted with a list carries some attributes, and declared ones only. -/
theorem listed_of_projection {name : String} {draft : Draft.Index} {names : List String}
    (h : projection file field name draft attrs = .ok (.including names)) :
    names ≠ [] ∧ ∀ name ∈ names, ∃ a ∈ attrs, a.name = name := by
  unfold projection at h
  dsimp only at h
  split at h
  · cases h
  · split at h
    · cases h
    · split at h
      · obtain ⟨hsome, h⟩ := ensure_bind_eq_ok.mp h
        obtain ⟨_, hdeclared, h⟩ := bind_eq_ok.mp h
        cases h
        refine ⟨by simpa using hsome, fun name hname => ?_⟩
        have hpass := (ensure_eq_ok_iff _ _ _ _).mp (forM_eq_ok.mp hdeclared name hname)
        simpa using hpass
      · cases h

theorem isIndex_of_index {draft : Draft.Index} {i : Index}
    (h : index file field tablePartition attrs draft = .ok i) : IsIndex attrs tablePartition i := by
  unfold index at h
  obtain ⟨name, -, h⟩ := bind_eq_ok.mp h
  obtain ⟨_, -, h⟩ := bind_eq_ok.mp h
  obtain ⟨kind, -, h⟩ := bind_eq_ok.mp h
  obtain ⟨partition, -, h⟩ := bind_eq_ok.mp h
  obtain ⟨_, -, h⟩ := bind_eq_ok.mp h
  obtain ⟨_, -, h⟩ := bind_eq_ok.mp h
  obtain ⟨_, hlocal, h⟩ := bind_eq_ok.mp h
  obtain ⟨proj, hproj, h⟩ := bind_eq_ok.mp h
  cases h
  rw [localIndex_eq_ok_iff] at hlocal
  constructor
  case inPartition => exact fun hk => (hlocal hk).1
  case sorted => exact fun hk => (hlocal hk).2
  case listed =>
    rintro names rfl
    exact listed_of_projection hproj

/-- Accepted indexes are accepted one by one, and no name repeats or was seen before. -/
theorem areIndexes_of_indexesFrom {n : Nat} {seen : List String} {drafts : List Draft.Index}
    {indexes : List Index} (h : indexesFrom file tablePartition attrs n seen drafts = .ok indexes) :
    (∀ i ∈ indexes, IsIndex attrs tablePartition i) ∧ (indexes.map Index.name).Nodup ∧
      ∀ i ∈ indexes, i.name ∉ seen := by
  induction drafts generalizing n seen indexes with
  | nil =>
    cases h
    simp
  | cons draft rest ih =>
    unfold indexesFrom at h
    obtain ⟨i, hi, h⟩ := bind_eq_ok.mp h
    obtain ⟨hnew, h⟩ := ensure_bind_eq_ok.mp h
    obtain ⟨more, hm, h⟩ := bind_eq_ok.mp h
    cases h
    obtain ⟨hmore, hdistinct, hfresh⟩ := ih hm
    have hfirst : i.name ∉ more.map Index.name := by
      intro hn
      obtain ⟨j, hj, he⟩ := List.mem_map.mp hn
      exact hfresh j hj (he ▸ List.mem_cons_self)
    refine ⟨List.forall_mem_cons.mpr ⟨isIndex_of_index hi, hmore⟩,
      List.nodup_cons.mpr ⟨hfirst, hdistinct⟩,
      List.forall_mem_cons.mpr ⟨by simpa using hnew, fun j hj hs => ?_⟩⟩
    exact hfresh j hj (List.mem_cons_of_mem _ hs)

end Rules

/-- What holds of the indexes of an accepted table. -/
structure TableDoc.HasIndexes (t : TableDoc) : Prop where
  each : ∀ i ∈ t.indexes.getD [], Rules.IsIndex t.attributes t.partition i
  distinct : ((t.indexes.getD []).map Index.name).Nodup

namespace Rules

theorem hasIndexes_of_table {file : Path} {draft : Draft.Document} {t : TableDoc}
    (h : table file draft = .ok t) : t.HasIndexes := by
  unfold table at h
  obtain ⟨version, -, h⟩ := bind_eq_ok.mp h
  split at h
  · cases h
  · obtain ⟨partition, -, h⟩ := bind_eq_ok.mp h
    obtain ⟨attrs, -, h⟩ := bind_eq_ok.mp h
    obtain ⟨_, -, h⟩ := bind_eq_ok.mp h
    obtain ⟨_, -, h⟩ := bind_eq_ok.mp h
    dsimp only at h
    split at h
    · obtain ⟨indexes, hi, h⟩ := bind_eq_ok.mp h
      cases hi
      cases h
      exact ⟨by simp, by simp⟩
    · obtain ⟨indexes, hi, h⟩ := bind_eq_ok.mp h
      obtain ⟨all, hall, rfl⟩ := map_eq_ok.mp hi
      cases h
      obtain ⟨heach, hdistinct, -⟩ := areIndexes_of_indexesFrom hall
      exact ⟨heach, hdistinct⟩

theorem table_of_document {file : Path} {draft : Draft.Document} {d : SchemaDoc} {t : TableDoc}
    (h : document file draft = .ok d) (ht : d.body = .table t) : table file draft = .ok t := by
  unfold document at h
  obtain ⟨name, -, h⟩ := bind_eq_ok.mp h
  obtain ⟨kind, -, h⟩ := bind_eq_ok.mp h
  obtain ⟨_, -, h⟩ := bind_eq_ok.mp h
  obtain ⟨_, -, h⟩ := bind_eq_ok.mp h
  obtain ⟨body, hbody, h⟩ := bind_eq_ok.mp h
  cases h
  subst ht
  unfold Rules.body at hbody
  split at hbody
  · obtain ⟨t', ht', he⟩ := map_eq_ok.mp hbody
    cases he
    exact ht'
  · split at hbody
    · obtain ⟨_, -, he⟩ := map_eq_ok.mp hbody
      cases he
    · split at hbody
      · obtain ⟨_, -, he⟩ := map_eq_ok.mp hbody
        cases he
      · cases hbody

end Rules

theorem SchemaDoc.hasIndexes_of_parse {file : Path} {source : String} {d : SchemaDoc} {t : TableDoc}
    (h : SchemaDoc.parse file source = .ok d) (ht : d.body = .table t) : t.HasIndexes := by
  unfold SchemaDoc.parse at h
  split at h
  · exact Rules.hasIndexes_of_table (Rules.table_of_document h ht)
  · cases h

end SchemaGen
