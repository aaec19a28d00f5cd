import Mathlib.Data.List.Nodup
import SchemaGen.Proofs.Document.Assembled
import SchemaGen.Proofs.Emission.Steps
import SchemaGen.Proofs.Naming.Derived

/-!
# The types of one entity

Every entity brings its own type; an object type also brings its input variant, and a table the inputs
of its operations and its envelopes. In a sound catalog the names of these types tell which entity
brings them, and which of its types they are.

Results:
1. `belongs_name`: the types of an entity bear its name or one generated for it.
2. `eq_of_name`: types of one name are brought by one entity, and are equal unless they are inputs of
   queries.
3. `crudInputs_ends`, `queryInputs_ends`, `responseEnvelopes_step`: the fragments of a table.
-/

namespace SchemaGen.Emission

/-- The types that an entity brings, the inputs of queries left out. -/
def ownDecls : Entity → List TypeDecl
  | .object o => [entityDecl (.object o), inputDecl o]
  | .table table =>
    [entityDecl (.table table), createDecl table, updateDecl table, itemEnvelope table,
      listEnvelope table] ++ (deleteDecl table).toOption.toList

/-- A type that an entity brings. -/
def Belongs (e : Entity) (d : TypeDecl) : Prop :=
  d ∈ ownDecls e ∨ ∃ table, e = .table table ∧ ∃ key ∈ table.queryKeys, queryDecl table key = .ok d

variable {c : Catalog} {e f : Entity} {d d' : TypeDecl} {table : Table} {key : QueryKey}

/-! ## Keys -/

theorem of_attribute?_eq_some {a : Attribute} {n : String} (h : table.attribute? n = some a) :
    a ∈ table.attributes ∧ a.name = n := by
  unfold Table.attribute? at h
  have hname := List.find?_some h
  exact ⟨List.mem_of_find?_eq_some h, beq_iff_eq.mp hname⟩

/-- The field of a key is that of the attribute with its name, under the flag that it is given. -/
theorem keyField_eq_ok {required : Bool} {name : String} {field : Field}
    (h : keyField table required name = .ok field) :
    ∃ a ∈ table.attributes, a.name = name ∧ field = .ofAttribute a required := by
  unfold keyField at h
  split at h
  · next a ha =>
    cases h
    obtain ⟨hmem, hname⟩ := of_attribute?_eq_some ha
    exact ⟨a, hmem, hname, rfl⟩
  · cases h

theorem exists_keyField (hk : ∀ k ∈ table.keyAttributes, ∃ a, table.attribute? k = some a) {k : String}
    (h : k ∈ table.keyAttributes) (required : Bool) : ∃ field, keyField table required k = .ok field := by
  obtain ⟨a, ha⟩ := hk k h
  unfold keyField
  rw [ha]
  exact ⟨_, rfl⟩

/-- A query key is made of key attributes. -/
theorem mem_keyAttributes_of_queryKey (hk : key ∈ table.queryKeys) :
    (∀ k ∈ key.required, k ∈ table.keyAttributes) ∧ ∀ k ∈ key.optional, k ∈ table.keyAttributes := by
  have hindex : ∀ index ∈ table.indexes, ∀ k ∈ index.key, k ∈ table.keyAttributes :=
    fun index hi k hk => table.mem_keyAttributes k |>.mpr (.inr ⟨index, hi, hk⟩)
  have hprimary : ∀ k ∈ table.primaryKey, k ∈ table.keyAttributes :=
    fun k hk => table.mem_keyAttributes k |>.mpr (.inl hk)
  have hpart : table.partition ∈ table.keyAttributes := hprimary _ List.mem_cons_self
  unfold Table.queryKeys at hk
  rcases List.mem_cons.mp hk with rfl | hk
  · simpa using hpart
  rcases List.mem_append.mp hk with hk | hk
  · split at hk
    · next sort hs =>
      have hsort : sort ∈ table.keyAttributes := hprimary _ (by simp [Table.primaryKey, hs])
      simp only [List.mem_cons, List.not_mem_nil, or_false] at hk
      rcases hk with rfl | rfl
      · simpa using hsort
      · simpa using ⟨hpart, hsort⟩
    · cases hk
  · obtain ⟨index, hi, rfl⟩ := List.mem_map.mp hk
    constructor
    · intro k hk
      rw [List.mem_singleton.mp hk]
      exact hindex index hi _ List.mem_cons_self
    · intro k hk
      exact hindex index hi k (List.mem_cons_of_mem _ (Option.mem_toList.mpr hk))

theorem deleteDecl_eq_ok (h : deleteDecl table = .ok d) :
    d.name = Naming.deleteInput table.name ∧
      ∀ field ∈ d.fields, ∃ a ∈ table.attributes, field.name = a.name ∧ field.type = .shape a.shape := by
  unfold deleteDecl at h
  obtain ⟨fields, hf, h⟩ := bind_eq_ok.mp h
  cases h
  refine ⟨rfl, fun field hm => ?_⟩
  obtain ⟨k, -, hk⟩ := exists_of_mem_mapM hf hm
  obtain ⟨a, ha, -, rfl⟩ := keyField_eq_ok hk
  exact ⟨a, ha, rfl, rfl⟩

theorem queryDecl_eq_ok (h : queryDecl table key = .ok d) :
    d.name = Naming.queryInput table.name key.required ∧
      ∀ field ∈ d.fields, ∃ a ∈ table.attributes, field.name = a.name ∧ field.type = .shape a.shape := by
  unfold queryDecl at h
  obtain ⟨required, hr, h⟩ := bind_eq_ok.mp h
  obtain ⟨optional, ho, h⟩ := bind_eq_ok.mp h
  cases h
  refine ⟨rfl, fun field hm => ?_⟩
  rcases List.mem_append.mp hm with hm | hm
  · obtain ⟨k, -, hk⟩ := exists_of_mem_mapM hr hm
    obtain ⟨a, ha, -, rfl⟩ := keyField_eq_ok hk
    exact ⟨a, ha, rfl, rfl⟩
  · obtain ⟨k, -, hk⟩ := exists_of_mem_mapM ho hm
    obtain ⟨a, ha, -, rfl⟩ := keyField_eq_ok hk
    exact ⟨a, ha, rfl, rfl⟩

theorem exists_deleteDecl (hk : ∀ k ∈ table.keyAttributes, ∃ a, table.attribute? k = some a) :
    ∃ d, deleteDecl table = .ok d := by
  have hall : ∀ k ∈ table.primaryKey, ∃ field, keyField table true k = .ok field := fun k hm =>
    exists_keyField hk (table.mem_keyAttributes k |>.mpr (.inl hm)) true
  obtain ⟨fields, hf⟩ := exists_mapM_eq_ok hall
  unfold deleteDecl
  rw [hf]
  exact ⟨_, rfl⟩

theorem exists_queryDecl (hk : ∀ k ∈ table.keyAttributes, ∃ a, table.attribute? k = some a)
    (hkey : key ∈ table.queryKeys) : ∃ d, queryDecl table key = .ok d := by
  obtain ⟨hreq, hopt⟩ := mem_keyAttributes_of_queryKey hkey
  obtain ⟨required, hr⟩ := exists_mapM_eq_ok fun k hm => exists_keyField hk (hreq k hm) true
  have hall : ∀ k ∈ key.optional.toList, ∃ field, keyField table false k = .ok field := fun k hm =>
    exists_keyField hk (hopt k (Option.mem_toList.mp hm)) false
  obtain ⟨optional, ho⟩ := exists_mapM_eq_ok hall
  unfold queryDecl
  rw [hr]
  show ∃ d, ((key.optional.toList.mapM (keyField table false)) >>= _) = Except.ok d
  rw [ho]
  exact ⟨_, rfl⟩

/-! ## Names -/

theorem mem_ownDecls_table :
    d ∈ ownDecls (.table table) ↔ d = entityDecl (.table table) ∨ d = createDecl table ∨
      d = updateDecl table ∨ d = itemEnvelope table ∨ d = listEnvelope table ∨
        deleteDecl table = .ok d := by
  have hdelete : d ∈ (deleteDecl table).toOption.toList ↔ deleteDecl table = .ok d := by
    cases deleteDecl table <;> simp [Except.toOption, eq_comm]
  unfold ownDecls
  rw [List.mem_append, hdelete]
  simp only [List.mem_cons, List.not_mem_nil, or_false, or_assoc]

theorem mem_ownDecls_object {o : ObjectType} :
    d ∈ ownDecls (.object o) ↔ d = entityDecl (.object o) ∨ d = inputDecl o := by
  simp [ownDecls]

theorem entityDecl_mem_ownDecls (e : Entity) : entityDecl e ∈ ownDecls e := by
  cases e <;> exact List.mem_cons_self

/-- The types of an entity bear its name or one generated for it. -/
theorem belongs_name (h : Belongs e d) : d.name = e.name ∨ d.name ∈ Corpus.generatedNames e := by
  rcases h with h | ⟨table, rfl, key, hk, h⟩
  · cases e with
    | object o =>
      rcases mem_ownDecls_object.mp h with rfl | rfl
      · exact .inl rfl
      · exact .inr (List.mem_singleton.mpr rfl)
    | table table =>
      rcases mem_ownDecls_table.mp h with rfl | rfl | rfl | rfl | rfl | h
      · exact .inl rfl
      · exact .inr (by simp [Corpus.generatedNames, createDecl])
      · exact .inr (by simp [Corpus.generatedNames, updateDecl])
      · exact .inr (by simp [Corpus.generatedNames, itemEnvelope, envelope])
      · exact .inr (by simp [Corpus.generatedNames, listEnvelope, envelope])
      · rw [(deleteDecl_eq_ok h).1]
        exact .inr (by simp [Corpus.generatedNames])
  · rw [(queryDecl_eq_ok h).1]
    exact .inr (List.mem_append.mpr (.inr (List.mem_map.mpr ⟨key, hk, rfl⟩)))

/-- The names of an entity's own types differ. -/
theorem names_ownDecls_nodup (hc : c.IsSound) (he : c.entity? e.name = some e) :
    ((ownDecls e).map TypeDecl.name).Nodup := by
  have hfree : ∀ g ∈ Corpus.generatedNames e, e.name ≠ g := by
    intro g hg heq
    rw [← heq] at hg
    rw [(hc.free e.name e he _ hg).1] at he
    cases he
  cases e with
  | object o =>
    have := hfree (Naming.inputVariant o.name) (List.mem_singleton.mpr rfl)
    simpa [ownDecls, entityDecl, inputDecl] using this
  | table table =>
    have hfixed := Naming.fixedTypes_nodup table.name
    have hname : table.name ∉ Naming.fixedTypes table.name := fun hm =>
      hfree table.name (List.mem_append.mpr (.inl hm)) rfl
    have hall : (table.name :: Naming.fixedTypes table.name).Nodup := List.nodup_cons.mpr ⟨hname, hfixed⟩
    have hlast : ([Naming.response table.name, Naming.listResponse table.name] ++
        [Naming.deleteInput table.name]).Perm ([Naming.deleteInput table.name] ++
          [Naming.response table.name, Naming.listResponse table.name]) := List.perm_append_comm
    have hperm : ([table.name, Naming.createInput table.name, Naming.updateInput table.name,
        Naming.response table.name, Naming.listResponse table.name] ++
          [Naming.deleteInput table.name]).Perm (table.name :: Naming.fixedTypes table.name) :=
      ((hlast.cons _).cons _).cons _
    refine (hperm.nodup_iff.mpr hall).sublist ?_
    unfold ownDecls
    rw [List.map_append]
    refine (List.append_sublist_append_left _).mpr ?_
    cases hd : deleteDecl table with
    | error fault => exact List.nil_sublist _
    | ok d =>
      show [d.name].Sublist [_]
      rw [(deleteDecl_eq_ok hd).1]

/-- Types of one name are brought by one entity. -/
theorem entity_eq_of_name (hc : c.IsSound) (he : c.entity? e.name = some e)
    (hf : c.entity? f.name = some f) (h : Belongs e d) (h' : Belongs f d') (hn : d.name = d'.name) :
    e = f := hc.eq_of_typeName he hf (belongs_name h) (hn ▸ belongs_name h')

/-- A type of an entity that bears the name of one of its own types is that type. -/
theorem eq_of_name (hc : c.IsSound) (he : c.entity? e.name = some e) (h : d ∈ ownDecls e)
    (h' : Belongs e d') (hn : d.name = d'.name) : d = d' := by
  rcases h' with h' | ⟨table, rfl, key, hk, h'⟩
  · exact List.inj_on_of_nodup_map (names_ownDecls_nodup hc he) h h' hn
  · exfalso
    rw [(queryDecl_eq_ok h').1] at hn
    have hquery := Naming.queryInput_not_mem_fixedTypes table.name key.required
    rw [← hn] at hquery
    have hfixed : d.name = table.name ∨ d.name ∈ Naming.fixedTypes table.name := by
      rcases mem_ownDecls_table.mp h with rfl | rfl | rfl | rfl | rfl | h
      · exact .inl rfl
      · exact .inr (by simp [Naming.fixedTypes, createDecl])
      · exact .inr (by simp [Naming.fixedTypes, updateDecl])
      · exact .inr (by simp [Naming.fixedTypes, itemEnvelope, envelope])
      · exact .inr (by simp [Naming.fixedTypes, listEnvelope, envelope])
      · rw [(deleteDecl_eq_ok h).1]
        exact .inr (by simp [Naming.fixedTypes])
    rcases hfixed with hname | hfixed
    · have hgen : d.name ∈ Corpus.generatedNames (.table table) :=
        hn ▸ List.mem_append.mpr (.inr (List.mem_map.mpr ⟨key, hk, rfl⟩))
      rw [hname] at hgen
      have he' : c.entity? table.name = some (.table table) := he
      rw [(hc.free table.name _ he' _ hgen).1] at he'
      cases he'
    · exact hquery hfixed

/-! ## Fields -/

/-- An entity's own types carry its attributes, or are the envelopes of a table or what deletes an item. -/
theorem fields_of_mem_ownDecls (h : d ∈ ownDecls e) :
    (∃ required : Attribute → Bool, d.fields = e.attributes.map fun a => .ofAttribute a (required a)) ∨
      ∃ table, e = .table table ∧
        (d = itemEnvelope table ∨ d = listEnvelope table ∨ deleteDecl table = .ok d) := by
  cases e with
  | object o =>
    rcases mem_ownDecls_object.mp h with rfl | rfl
    · exact .inl ⟨_, rfl⟩
    · exact .inl ⟨_, rfl⟩
  | table table =>
    rcases mem_ownDecls_table.mp h with rfl | rfl | rfl | h
    · exact .inl ⟨_, rfl⟩
    · exact .inl ⟨_, rfl⟩
    · exact .inl ⟨_, rfl⟩
    · exact .inr ⟨table, rfl, h⟩

/-- A field of a type is an attribute of the entity, or one of an envelope. -/
theorem field_of_belongs (h : Belongs e d) {field : Field} (hf : field ∈ d.fields) :
    (∃ a ∈ e.attributes, field.name = a.name ∧ field.type = .shape a.shape) ∨
      (field.name = "statusCode" ∧ field.type = .integer) ∨
      (field.name = "message" ∧ field.type = .shape (.scalar .string)) ∨
      field.name = "data" ∧ (field.type = .shape (.reference e.name) ∨
        field.type = .shape (.referenceArray e.name)) := by
  have henvelope : ∀ name description data, field ∈ (envelope name description data).fields →
      (field.name = "statusCode" ∧ field.type = .integer) ∨
        (field.name = "message" ∧ field.type = .shape (.scalar .string)) ∨
        field.name = "data" ∧ field.type = .shape data := by
    intro name description data hm
    simp only [envelope, List.mem_cons, List.not_mem_nil, or_false] at hm
    rcases hm with rfl | rfl | rfl
    · exact .inl ⟨rfl, rfl⟩
    · exact .inr (.inl ⟨rfl, rfl⟩)
    · exact .inr (.inr ⟨rfl, rfl⟩)
  rcases h with h | ⟨table, rfl, key, -, h⟩
  · rcases fields_of_mem_ownDecls h with ⟨required, hfields⟩ | ⟨table, rfl, rfl | rfl | h⟩
    · rw [hfields] at hf
      obtain ⟨a, ha, rfl⟩ := List.mem_map.mp hf
      exact .inl ⟨a, ha, rfl, rfl⟩
    · exact .inr ((henvelope _ _ _ hf).imp_right (Or.imp_right (And.imp_right .inl)))
    · exact .inr ((henvelope _ _ _ hf).imp_right (Or.imp_right (And.imp_right .inr)))
    · exact .inl ((deleteDecl_eq_ok h).2 field hf)
  · exact .inl ((queryDecl_eq_ok h).2 field hf)

/-- A field of a type is an attribute of the entity, or refers to the entity, or holds a plain text. -/
theorem shape_of_belongs (h : Belongs e d) {field : Field} (hf : field ∈ d.fields) {shape : Shape}
    (hs : field.type = .shape shape) : (∃ a ∈ e.attributes, a.shape = shape) ∨
      shape = .scalar .string ∨ shape = .reference e.name ∨ shape = .referenceArray e.name := by
  rcases field_of_belongs h hf with ⟨a, ha, -, htype⟩ | ⟨-, htype⟩ | ⟨-, htype⟩ | ⟨-, htype | htype⟩
  all_goals rw [hs] at htype
  · exact .inl ⟨a, ha, (FieldType.shape.inj htype).symm⟩
  · cases htype
  · exact .inr (.inl (FieldType.shape.inj htype))
  · exact .inr (.inr (.inl (FieldType.shape.inj htype)))
  · exact .inr (.inr (.inr (FieldType.shape.inj htype)))

/-! ## Fragments -/

/-- A step that declares types of some names, after which all these names are marked. -/
structure Declares (t : Target) (P : TypeDecl → Prop) (names : List String) (r : Registry)
    (ds : List Declaration) (r' : Registry) : Prop where
  step : TypeStep t P r ds r'
  marks : ∀ n ∈ names, r'.hasType t n = true
  named : ∀ d ∈ ds, d.name ∈ names

variable {t : Target} {r r₁ r₂ : Registry} {as bs : List Declaration} {xs ys : List String}
  {P : TypeDecl → Prop}

theorem Declares.refl (r : Registry) : Declares t P [] r [] r := ⟨.refl r, by simp, by simp⟩

theorem Declares.append (h₁ : Declares t P xs r as r₁) (h₂ : Declares t P ys r₁ bs r₂) :
    Declares t P (xs ++ ys) r (as ++ bs) r₂ := by
  refine ⟨h₁.step.append h₂.step, fun n hn => ?_, fun d hd => ?_⟩
  · rcases List.mem_append.mp hn with hn | hn
    · exact h₂.step.mark (h₁.marks n hn)
    · exact h₂.marks n hn
  · rcases List.mem_append.mp hd with hd | hd
    · exact List.mem_append_left _ (h₁.named d hd)
    · exact List.mem_append_right _ (h₂.named d hd)

/-- Just these names are marked by the step. -/
theorem Declares.hasType_iff (h : Declares t P xs r as r₁) {n : String} :
    r₁.hasType t n = true ↔ r.hasType t n = true ∨ n ∈ xs := by
  constructor
  · intro hn
    refine ((h.step.marks n).mp hn).imp_right fun hn => ?_
    obtain ⟨d, hd, rfl⟩ := List.mem_map.mp hn
    exact h.named d hd
  · rintro (hn | hn)
    · exact h.step.mark hn
    · exact h.marks n hn

/-- A collection declares what its members declare. -/
theorem collect_declares {α : Type} {step : α → Emit (List Declaration)} {names : α → List String}
    (members : List α)
    (h : ∀ a ∈ members, ∀ r, (step a).Ends r (Declares t P (names a) r)) :
    (Emit.collect step members).Ends r (Declares t P (members.flatMap names) r) := by
  induction members generalizing r with
  | nil => exact ⟨[], r, rfl, .refl r⟩
  | cons a rest ih =>
    unfold Emit.collect
    refine (h a List.mem_cons_self r).bind fun as r₁ h₁ => ?_
    refine (ih fun b hb => h b (List.mem_cons_of_mem _ hb)).bind fun bs r₂ h₂ => ?_
    exact Emit.ends_pure (h₁.append h₂)

/-- What a step that declares types of an entity has marked is the entity's name or generated for it. -/
theorem TypeMarks.name_of_marked {ds : List Declaration} {n : String} (h : TypeMarks t (Belongs e) r ds r₁)
    (hn : r₁.hasType t n = true) : r.hasType t n = true ∨ n = e.name ∨ n ∈ Corpus.generatedNames e := by
  refine ((h.marks n).mp hn).imp_right fun hn => ?_
  obtain ⟨d, hd, rfl⟩ := List.mem_map.mp hn
  obtain ⟨decl, rfl, hb⟩ := h.declared d hd
  exact belongs_name hb

theorem once_declares {decl : TypeDecl} (hp : P decl) :
    Declares t P [decl.name] r (once t decl r).1 (once t decl r).2 := by
  obtain ⟨hstep, hmark⟩ := once_step (t := t) (r := r) (P := fun d => P d ∧ d = decl) ⟨hp, rfl⟩
  refine ⟨hstep.mono fun d h => h.1, fun n hn => ?_, fun d hd => ?_⟩
  · rw [List.mem_singleton.mp hn]
    exact hmark
  · obtain ⟨_, rfl, -, rfl⟩ := hstep.declared d hd
    exact List.mem_singleton.mpr rfl

theorem onceOf_declares {name : String} {decl : Except RenderFault TypeDecl} (hd : decl = .ok d)
    (hn : d.name = name) (hp : P d) : (onceOf t name decl).Ends r (Declares t P [name] r) := by
  refine (onceOf_ends hd hn (P := fun d' => P d' ∧ d' = d) ⟨hp, rfl⟩).mono fun ds r' ⟨hstep, hmark⟩ => ?_
  refine ⟨hstep.mono fun d h => h.1, fun n hn => ?_, fun d' hd' => ?_⟩
  · rw [List.mem_singleton.mp hn]
    exact hmark
  · obtain ⟨_, rfl, -, rfl⟩ := hstep.declared d' hd'
    exact List.mem_singleton.mpr hn

theorem entityModel_step : Declares t (Belongs e) [e.name] r (entityModel t e r).1 (entityModel t e r).2 :=
  once_declares (P := Belongs e) (.inl (entityDecl_mem_ownDecls e))

theorem inputVariant_step {o : ObjectType} : Declares t (Belongs (.object o))
    [Naming.inputVariant o.name] r (inputVariant t (.object o) r).1 (inputVariant t (.object o) r).2 :=
  once_declares (P := Belongs (.object o)) (.inl (mem_ownDecls_object.mpr (.inr rfl)))

theorem responseEnvelopes_step : Declares t (Belongs (.table table))
    [Naming.listResponse table.name, Naming.response table.name] r (responseEnvelopes t table r).1
      (responseEnvelopes t table r).2 := by
  have hlist : Belongs (.table table) (listEnvelope table) := .inl (by simp [ownDecls])
  have hitem : Belongs (.table table) (itemEnvelope table) := .inl (by simp [ownDecls])
  exact Declares.append (once_declares hlist) (once_declares hitem)

theorem crudInputs_ends (hk : ∀ k ∈ table.keyAttributes, ∃ a, table.attribute? k = some a) :
    (crudInputs t table).Ends r (Declares t (Belongs (.table table))
      [Naming.createInput table.name, Naming.updateInput table.name, Naming.deleteInput table.name] r) := by
  obtain ⟨delete, hd⟩ := exists_deleteDecl hk
  have hcreate : Belongs (.table table) (createDecl table) := .inl (by simp [ownDecls])
  have hupdate : Belongs (.table table) (updateDecl table) := .inl (by simp [ownDecls])
  have hdelete : Belongs (.table table) delete := .inl (mem_ownDecls_table.mpr (by simp [hd]))
  unfold crudInputs
  refine (Emit.ends_total (once_declares hcreate)).bind fun create r₁ h₁ => ?_
  refine (Emit.ends_total (once_declares hupdate)).bind fun update r₂ h₂ => ?_
  refine (onceOf_declares hd (deleteDecl_eq_ok hd).1 hdelete).bind fun delete r₃ h₃ => ?_
  exact Emit.ends_pure ((h₁.append h₂).append h₃)

theorem queryInputs_ends (hk : ∀ k ∈ table.keyAttributes, ∃ a, table.attribute? k = some a) :
    (queryInputs t table).Ends r (Declares t (Belongs (.table table))
      (table.queryKeys.map fun key => Naming.queryInput table.name key.required) r) := by
  have hsorted : ∀ key, key ∈ sortedQueryKeys table ↔ key ∈ table.queryKeys := fun key =>
    List.mem_mergeSort
  unfold queryInputs
  have hall := collect_declares (r := r) (sortedQueryKeys table) fun key hkey r' => by
    rw [hsorted] at hkey
    obtain ⟨d, hd⟩ := exists_queryDecl hk hkey
    exact onceOf_declares (t := t) (r := r') hd (queryDecl_eq_ok hd).1
      (.inr ⟨table, rfl, key, hkey, hd⟩ : Belongs (.table table) d)
  refine hall.mono fun ds r' ⟨hstep, hmarks, hnamed⟩ => ⟨hstep, fun n hn => hmarks n ?_, fun d hd => ?_⟩
  · obtain ⟨key, hkey, rfl⟩ := List.mem_map.mp hn
    exact List.mem_flatMap.mpr ⟨key, (hsorted key).mpr hkey, List.mem_singleton.mpr rfl⟩
  · obtain ⟨key, hkey, hname⟩ := List.mem_flatMap.mp (hnamed d hd)
    rw [List.mem_singleton.mp hname]
    exact List.mem_map_of_mem ((hsorted key).mp hkey)

end SchemaGen.Emission
