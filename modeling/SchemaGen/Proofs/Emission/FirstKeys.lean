import SchemaGen.Proofs.Emission.Fragments

/-!
# The query key that stands for a name

Query keys of a table may share the name of their input: an index on the attribute that the primary key
starts with asks for the same attribute. One of them stands for the name, the one that comes first among
the query keys of the table. The inputs are emitted in the order of their names, but keys of one name stay
in the order in which the table has them, and the registry lets the first one through; so whatever the
target, and whatever it has emitted before, the input of that name is the one of the first key.

Hence a type is told by its name: whichever fragment declares it, for whichever target, it is the same type.

Results:
1. `find?_sortedQueryKeys`: sorting leaves the first key of a name the first.
2. `only_queryInputs`: the inputs that are emitted are those of first keys.
3. `eq_of_brings`: types of one name are equal.
4. `only_fragment`: what the fragments of an entity yield.
-/

namespace SchemaGen

/-- The query key that comes first among those with an input of that name. -/
def Table.firstKey? (table : Table) (name : String) : Option QueryKey :=
  table.queryKeys.find? fun key => Naming.queryInput table.name key.required == name

namespace Emission

variable {c : Catalog} {t : Target} {e f : Entity} {d d' : TypeDecl} {table : Table} {key : QueryKey}
  {name : String}

/-! ## The first key of a name -/

theorem of_firstKey?_eq_some (h : table.firstKey? name = some key) :
    key ∈ table.queryKeys ∧ Naming.queryInput table.name key.required = name := by
  unfold Table.firstKey? at h
  have hname := List.find?_some h
  exact ⟨List.mem_of_find?_eq_some h, beq_iff_eq.mp hname⟩

theorem exists_firstKey? (h : key ∈ table.queryKeys) :
    ∃ first, table.firstKey? (Naming.queryInput table.name key.required) = some first :=
  Option.isSome_iff_exists.mp (List.find?_isSome.mpr ⟨key, h, beq_self_eq_true _⟩)

/-- Keys of one name stand in the sorted list as they do in the table. -/
theorem filter_sortedQueryKeys (table : Table) (name : String) :
    (sortedQueryKeys table).filter (fun key => Naming.queryInput table.name key.required == name) =
      table.queryKeys.filter fun key => Naming.queryInput table.name key.required == name := by
  have hle : ∀ a b : String, nameLE a b = true ↔ a ≤ b := by
    intro a b
    unfold nameLE
    rw [Bool.not_eq_true', decide_eq_false_iff_not, not_lt]
  have hsorted : (table.queryKeys.filter fun key =>
      Naming.queryInput table.name key.required == name).Sublist (sortedQueryKeys table) := by
    refine List.sublist_mergeSort (fun a b c hab hbc => ?_) (fun a b => ?_) ?_ List.filter_sublist
    · rw [hle] at *
      exact hab.trans hbc
    · rw [Bool.or_eq_true, hle, hle]
      exact le_total _ _
    · refine List.Pairwise.imp_of_mem (R := fun _ _ => True) (fun ha hb _ => ?_)
        (List.pairwise_of_forall fun _ _ => trivial)
      rw [hle, beq_iff_eq.mp (List.mem_filter.mp ha).2, beq_iff_eq.mp (List.mem_filter.mp hb).2]
  have hsub := hsorted.filter fun key => Naming.queryInput table.name key.required == name
  rw [List.filter_filter, List.filter_congr fun key _ => Bool.and_self _] at hsub
  exact (hsub.eq_of_length ((List.mergeSort_perm _ _).filter _).length_eq.symm).symm

theorem find?_sortedQueryKeys (table : Table) (name : String) :
    ((sortedQueryKeys table).find? fun key => Naming.queryInput table.name key.required == name) =
      table.firstKey? name := by
  rw [← List.head?_filter, filter_sortedQueryKeys, List.head?_filter]
  rfl

/-- The sources of a table with two indexes, one of them on the attribute of the primary key, and of a type
that it embeds. -/
def ledgerSources : List (Path × List String) :=
  [(⟨"Entry.yml"⟩, ["name: Entry", "kind: table", "version: 1", "model:",
      "  keys:", "    primary: {partition: id}", "    secondary:", "    - {name: by-id, partition: id}",
      "    - {name: by-day, partition: day, sort: id}",
      "  attributes: [{name: id, type: string}, {name: day, type: string}, {name: sum, type: Sum}]"]),
    (⟨"Sum.yml"⟩, ["name: Sum", "kind: static", "attributes: [{name: text, type: string}]"])]

/-- The documents that these sources are parsed to. -/
def ledger : Corpus :=
  let attr (name : String) (shape : Shape) : AttributeDoc := ⟨name, shape, false, none, none⟩
  ⟨[⟨⟨"Entry.yml"⟩, "Entry", none, .table ⟨"1", "id", none,
      some [⟨"by-id", .gsi, "id", none, .all⟩, ⟨"by-day", .gsi, "day", some "id", .all⟩],
      [attr "id" (.scalar .string), attr "day" (.scalar .string), attr "sum" (.reference "Sum")]⟩⟩,
    ⟨⟨"Sum.yml"⟩, "Sum", none, .object .static [attr "text" (.scalar .string)]⟩], []⟩

theorem ledger_isParsed : ledger.IsParsed :=
  Corpus.isParsed_of_mapM (s := ledgerSources) (by decide +kernel) (.inl rfl)

/-- The catalog of these documents. -/
def ledgerCatalog : Catalog := ledger.catalog.toOption.getD .empty

theorem catalog_ledger : ledger.catalog = .ok ledgerCatalog := by decide +kernel

/-! ## What a step yields at most -/

/-- Whatever was marked before, all that the step yields has the property. -/
def Only {α : Type} (P : α → Prop) (x : Emit (List α)) : Prop :=
  ∀ r ds r', x r = (.ok ds, r') → ∀ d ∈ ds, P d

variable {α β : Type} {P Q : α → Prop}

theorem Only.mono {x : Emit (List α)} (h : Only P x) (hq : ∀ d, P d → Q d) : Only Q x :=
  fun r ds r' hx d hd => hq d (h r ds r' hx d hd)

theorem only_nil : Only P (Pure.pure [] : Emit (List α)) := by
  intro r ds r' h
  cases h
  simp

theorem only_total {f : Registry → List α × Registry} (h : ∀ r, ∀ d ∈ (f r).1, P d) :
    Only P (Emit.total f) := by
  intro r ds r' hx
  cases hx
  exact h r

theorem Only.append {x y : Emit (List α)} (hx : Only P x) (hy : Only P y) :
    Only P (x >>= fun as => y >>= fun bs => Pure.pure (as ++ bs)) := by
  intro r ds r' h
  obtain ⟨as, r₁, has, h⟩ := Emit.bind_eq_ok.mp h
  obtain ⟨bs, r₂, hbs, h⟩ := Emit.bind_eq_ok.mp h
  cases h
  exact List.forall_mem_append.mpr ⟨hx r as r₁ has, hy r₁ bs _ hbs⟩

theorem only_collect {step : β → Emit (List α)} {members : List β} (h : ∀ b ∈ members, Only P (step b)) :
    Only P (Emit.collect step members) := by
  induction members with
  | nil => exact only_nil
  | cons b rest ih =>
    exact (h b List.mem_cons_self).append (ih fun b hb => h b (List.mem_cons_of_mem _ hb))

theorem only_once {P : Declaration → Prop} {decl : TypeDecl} (h : P (.type decl)) (r : Registry) :
    ∀ d ∈ (once t decl r).1, P d := by
  unfold once
  split
  · exact List.forall_mem_singleton.mpr h
  · simp

/-! ## Inputs of queries -/

/-- What is emitted under a name, if it was free, is the type that was computed; the name is marked. -/
theorem of_onceOf {decl : Except RenderFault TypeDecl} {r r' : Registry} {ds : List Declaration}
    (h : onceOf t name decl r = (.ok ds, r')) : r' = (r.markType t name).2 ∧
      ∀ d ∈ ds, r.hasType t name = false ∧ ∃ own, d = .type own ∧ decl = .ok own := by
  unfold onceOf at h
  rw [Registry.fst_markType] at h
  split at h
  · next hfree =>
    obtain ⟨own, hown, rfl⟩ := map_eq_ok.mp (congrArg Prod.fst h)
    refine ⟨(congrArg Prod.snd h).symm, List.forall_mem_singleton.mpr ?_⟩
    exact ⟨(Bool.not_eq_true' _).mp hfree, own, rfl, hown⟩
  · cases h
    exact ⟨rfl, by simp⟩

/-- What is emitted for keys in turn: under each name that was free, the input of the first key that has
it. The induction is on the keys; what a key marks is not free for those after it. -/
theorem of_collect_queryInputs {keys : List QueryKey} {r r' : Registry} {ds : List Declaration}
    (h : Emit.collect (fun key => onceOf t (Naming.queryInput table.name key.required)
      (queryDecl table key)) keys r = (.ok ds, r')) :
    ∀ d ∈ ds, r.hasType t d.name = false ∧ ∃ key decl, d = .type decl ∧ queryDecl table key = .ok decl ∧
      (keys.find? fun key => Naming.queryInput table.name key.required == d.name) = some key := by
  induction keys generalizing r ds with
  | nil =>
    cases h
    simp
  | cons key rest ih =>
    obtain ⟨as, bs, r₁, hhead, hrest, rfl⟩ := Emit.collect_cons_eq_ok.mp h
    obtain ⟨rfl, hown⟩ := of_onceOf hhead
    refine List.forall_mem_append.mpr ⟨fun d hd => ?_, fun d hd => ?_⟩
    · obtain ⟨hfree, decl, rfl, hdecl⟩ := hown d hd
      have hname : Naming.queryInput table.name key.required = decl.name := (queryDecl_eq_ok hdecl).1.symm
      rw [hname] at hfree
      exact ⟨hfree, key, decl, rfl, hdecl, List.find?_cons_of_pos (beq_iff_eq.mpr hname)⟩
    · obtain ⟨hfree, other, decl, rfl, hdecl, hfound⟩ := ih hrest d hd
      rw [Registry.hasType_markType, Bool.or_eq_false_iff, decide_eq_false_iff_not] at hfree
      refine ⟨hfree.2, other, decl, rfl, hdecl, ?_⟩
      rw [List.find?_cons_of_neg]
      · exact hfound
      · rw [beq_iff_eq]
        exact fun he => hfree.1 ⟨rfl, he.symm⟩

/-- A type that an entity brings; of inputs of queries that share a name, the one of the first key. -/
def Brings (e : Entity) (d : TypeDecl) : Prop :=
  d ∈ ownDecls e ∨ ∃ table, e = .table table ∧ ∃ key, table.firstKey? d.name = some key ∧
    queryDecl table key = .ok d

theorem Brings.belongs (h : Brings e d) : Belongs e d := by
  refine h.imp_right fun ⟨table, he, key, hfirst, hdecl⟩ => ⟨table, he, key, ?_, hdecl⟩
  exact (of_firstKey?_eq_some hfirst).1

theorem brings_of_object {o : ObjectType} (h : Belongs (.object o) d) : Brings (.object o) d := by
  rcases h with h | ⟨table, he, -⟩
  · exact .inl h
  · cases he

/-- A type is told by its name. -/
theorem eq_of_brings (hc : c.IsSound) (he : c.entity? e.name = some e) (hf : c.entity? f.name = some f)
    (h : Brings e d) (h' : Brings f d') (hn : d.name = d'.name) : d = d' := by
  cases entity_eq_of_name hc he hf h.belongs h'.belongs hn
  rcases h with h | ⟨table, rfl, key, hkey, hdecl⟩
  · exact eq_of_name hc he h h'.belongs hn
  · rcases h' with h' | ⟨_, htable, key', hkey', hdecl'⟩
    · exact (eq_of_name hc he h' (.inr ⟨table, rfl, key, (of_firstKey?_eq_some hkey).1, hdecl⟩) hn.symm).symm
    · -- both are the input of the key that comes first under their name
      cases htable
      rw [hn, hkey'] at hkey
      cases hkey
      exact Except.ok.inj (hdecl.symm.trans hdecl')

/-! ## Fragments -/

/-- The declaration is a type that an entity of the catalog brings, or an operation that the entity at hand
calls for. -/
def Told (c : Catalog) (e : Entity) : Declaration → Prop
  | .type d => ∃ f, c.entity? f.name = some f ∧ Brings f d
  | .operation op => ∃ table, e = .table table ∧ op ∈ candidates table

theorem told_of_mem_ownDecls (he : c.entity? e.name = some e) (h : d ∈ ownDecls e) : Told c e (.type d) :=
  ⟨e, he, .inl h⟩

theorem only_queryInputs (he : c.entity? table.name = some (.table table)) :
    Only (Told c (.table table)) (queryInputs t table) := by
  intro r ds r' h d hd
  obtain ⟨-, key, decl, rfl, hdecl, hfound⟩ := of_collect_queryInputs h d hd
  rw [find?_sortedQueryKeys] at hfound
  exact ⟨.table table, he, .inr ⟨table, rfl, key, hfound, hdecl⟩⟩

theorem only_crudInputs (he : c.entity? table.name = some (.table table)) :
    Only (Told c (.table table)) (crudInputs t table) := by
  have hown : ∀ decl, decl ∈ ownDecls (.table table) →
      Only (Told c (.table table)) (Emit.total (once t decl)) := fun decl h =>
    only_total (only_once (told_of_mem_ownDecls (e := .table table) he h))
  intro r ds r' h
  obtain ⟨create, r₁, hcreate, h⟩ := Emit.bind_eq_ok.mp h
  obtain ⟨update, r₂, hupdate, h⟩ := Emit.bind_eq_ok.mp h
  obtain ⟨delete, r₃, hdelete, h⟩ := Emit.bind_eq_ok.mp h
  cases h
  have hlast : ∀ d ∈ delete, Told c (.table table) d := by
    intro d hd
    obtain ⟨-, decl, rfl, hdecl⟩ := (of_onceOf hdelete).2 d hd
    exact told_of_mem_ownDecls (e := .table table) he (mem_ownDecls_table.mpr (by simp [hdecl]))
  refine List.forall_mem_append.mpr ⟨List.forall_mem_append.mpr ⟨?_, ?_⟩, hlast⟩
  · exact hown _ (by simp [ownDecls]) r create r₁ hcreate
  · exact hown _ (by simp [ownDecls]) r₁ update r₂ hupdate

theorem only_forTable {g : Table → Emit (List Declaration)}
    (h : ∀ table, e = .table table → Only (Told c e) (g table)) : Only (Told c e) (forTable e g) := by
  cases e with
  | table table => exact h table rfl
  | object o => exact only_nil

theorem only_single (hc : c.IsSound) (he : c.entity? e.name = some e) (g : Fragment) :
    Only (Told c e) (single c t e g) := by
  cases g with
  | entityModel => exact only_total (only_once (told_of_mem_ownDecls he (entityDecl_mem_ownDecls e)))
  | inputVariant =>
    cases e with
    | table table => exact only_nil
    | object o =>
      exact only_total (only_once (told_of_mem_ownDecls he (mem_ownDecls_object.mpr (.inr rfl))))
  | embeddedTypes =>
    refine only_total fun r d hd => ?_
    obtain ⟨decl, rfl, o, ho, -, hb⟩ := (embeddedTypes_spec hc e r).1.step.declared d hd
    exact ⟨.object o, ho, brings_of_object hb⟩
  | crudInputs =>
    refine only_forTable fun table h => ?_
    subst h
    exact only_crudInputs he
  | queryInputs =>
    refine only_forTable fun table h => ?_
    subst h
    exact only_queryInputs he
  | responseEnvelopes =>
    refine only_forTable fun table h => only_total fun r => ?_
    subst h
    have hlist : listEnvelope table ∈ ownDecls (.table table) := by simp [ownDecls]
    have hitem : itemEnvelope table ∈ ownDecls (.table table) := by simp [ownDecls]
    exact List.forall_mem_append.mpr
      ⟨only_once (told_of_mem_ownDecls he hlist) _, only_once (told_of_mem_ownDecls he hitem) _⟩
  | operations =>
    refine only_forTable fun table h => only_total fun r d hd => ?_
    subst h
    have hstep := freeOperations_step (t := t) (sortedCandidates table) r
    obtain ⟨seen, hseen⟩ := exists_seen t r
    rw [show (operations t table r).1 = _ from hstep.declared seen hseen] at hd
    obtain ⟨op, hop, rfl⟩ := List.mem_map.mp hd
    exact ⟨table, rfl, mem_sortedCandidates.mp (of_mem_firstNamed hop).1⟩
  | modelArtifact => exact only_nil
  | apiSchemaEntity => exact only_nil

/-- Whichever fragment of an entity is rendered, for whichever target and whatever was marked before, its
types are those that their names tell, and its operations those that the entity calls for. -/
theorem only_fragment (hc : c.IsSound) (he : c.entity? e.name = some e) (g : Fragment) :
    Only (Told c e) (Emit.fragment c t e g) :=
  (only_collect fun f _ => only_single hc he f).append (only_single hc he g)

end Emission

end SchemaGen
