import SchemaGen.Proofs.Emission.Fragments
import SchemaGen.Target.Generate

/-!
# The operations that the targets emit

Tables are rendered in name order, and of operations that share a name the registry lets the first one
through. So a table keeps the operations whose names no table before it calls for (`kept`), the same for
every target. It keeps all of them exactly when no query of another table has the name of one of its own;
the check of generated names compares types only, and does not see to this.

Results:
1. `mem_kept_iff`, `forall_kept_iff`: what a table keeps, and when it keeps everything.
2. `keptFrom_tables`: what tables yield one after another.
3. `emits_kept`: what each target emits.
4. `operations_kept`: what the targets emit.
-/

namespace SchemaGen

open Emission

variable {c : Catalog} {t : Target} {r r' : Registry} {table other : Table} {op : Operation}
  {ops : List Operation} {seen : List String}

/-! ## What a table keeps -/

/-- The names that the operations of the tables before a table have. -/
def taken (c : Catalog) (table : Table) : List String :=
  (c.tables.filter fun other => other.name < table.name).flatMap fun other =>
    (candidates other).map Operation.name

/-- The operations that a table keeps, in the order in which they are emitted. -/
def kept (c : Catalog) (table : Table) : List Operation :=
  firstNamed (taken c table) (sortedCandidates table)

/-- What a table keeps: each of its operations whose name no table before it calls for. -/
theorem mem_kept_iff : op ∈ kept c table ↔ op ∈ candidates table ∧
    ∀ other ∈ c.tables, other.name < table.name → op.name ∉ (candidates other).map Operation.name := by
  have hsame : ∀ a ∈ sortedCandidates table, ∀ b ∈ sortedCandidates table, a.name = b.name → a = b :=
    fun a ha b hb => candidates_inj (mem_sortedCandidates.mp ha) (mem_sortedCandidates.mp hb)
  have htaken : op.name ∉ taken c table ↔ ∀ other ∈ c.tables, other.name < table.name →
      op.name ∉ (candidates other).map Operation.name := by
    unfold taken
    simp only [List.mem_flatMap, List.mem_filter, decide_eq_true_eq, not_exists, not_and, and_imp]
  unfold kept
  rw [mem_firstNamed hsame, mem_sortedCandidates, htaken]

/-- Only queries are ever lost. -/
theorem mem_kept_of_mutation (h : op ∈ candidates table) (hm : op.kind = .mutation) :
    op ∈ kept c table := by
  refine mem_kept_iff.mpr ⟨h, fun other _ hlt hn => ?_⟩
  obtain ⟨op', hop', he⟩ := List.mem_map.mp hn
  rcases operation_eq_of_name h hop' he.symm with ⟨hname, -⟩ | ⟨key, -, _, -, rfl, -⟩
  · exact absurd hname hlt.ne'
  · cases hm

/-- Every table keeps all of its operations exactly when no two tables have queries of one name. -/
theorem forall_kept_iff (hnames : ∀ table ∈ c.tables, ∀ other ∈ c.tables, table.name = other.name →
    table = other) :
    (∀ table ∈ c.tables, ∀ op ∈ candidates table, op ∈ kept c table) ↔
      ∀ table ∈ c.tables, ∀ other ∈ c.tables, table ≠ other → ∀ key ∈ table.queryKeys,
        ∀ key' ∈ other.queryKeys, Naming.queryOperation table.name key.required ≠
          Naming.queryOperation other.name key'.required := by
  have hquery : ∀ (table : Table) (key : QueryKey), key ∈ table.queryKeys →
      queryOperation table key ∈ candidates table := fun table key hk =>
    mem_candidates_iff.mpr (.inr ⟨key, hk, rfl⟩)
  constructor
  · intro hall table ht other ho hne key hk key' hk' he
    rcases lt_trichotomy table.name other.name with hlt | heq | hlt
    · have hkept := hall other ho _ (hquery other key' hk')
      refine (mem_kept_iff.mp hkept).2 table ht hlt ?_
      exact List.mem_map.mpr ⟨_, hquery table key hk, he⟩
    · exact hne (hnames table ht other ho heq)
    · have hkept := hall table ht _ (hquery table key hk)
      refine (mem_kept_iff.mp hkept).2 other ho hlt ?_
      exact List.mem_map.mpr ⟨_, hquery other key' hk', he.symm⟩
  · intro hclash table ht op hop
    refine mem_kept_iff.mpr ⟨hop, fun other ho hlt hm => ?_⟩
    obtain ⟨op', hop', he⟩ := List.mem_map.mp hm
    rcases operation_eq_of_name hop hop' he.symm with ⟨hn, -⟩ | ⟨key, hk, key', hk', rfl, rfl⟩
    · exact absurd hn hlt.ne'
    · have hne : table ≠ other := fun h => hlt.ne' (congrArg Table.name h)
      exact hclash table ht other ho hne key hk key' hk' he.symm

/-! ## Tables one after another -/

variable {α β γ : Type} {step : β → Emit (List α)} {calls : β → List Operation}
  {out : β → List Operation → List γ} {view : List α → List γ}

/-- A step of which one sees what its operations call for, as far as the registry lets them through. -/
def YieldsKept (t : Target) (view : List α → List γ) (step : Emit (List α)) (ops : List Operation)
    (out : List Operation → List γ) : Prop :=
  ∀ r seen, Seen t r seen → step.Ends r fun as r' =>
    view as = out (firstNamed seen ops) ∧ Seen t r' (seen ++ ops.map Operation.name)

/-- What one sees of such steps one after another. -/
def keptFrom (calls : β → List Operation) (out : β → List Operation → List γ) :
    List String → List β → List γ
  | _, [] => []
  | seen, b :: rest =>
    out b (firstNamed seen (calls b)) ++ keptFrom calls out (seen ++ (calls b).map Operation.name) rest

theorem collect_keptFrom (hnil : view [] = []) (happend : ∀ xs ys, view (xs ++ ys) = view xs ++ view ys)
    (members : List β) (h : ∀ b ∈ members, YieldsKept t view (step b) (calls b) (out b))
    (hr : Seen t r seen) :
    ∃ as r', Emit.collect step members r = (.ok as, r') ∧ view as = keptFrom calls out seen members := by
  induction members generalizing r seen with
  | nil => exact ⟨[], r, rfl, hnil⟩
  | cons b rest ih =>
    obtain ⟨xs, r₁, hb, hview, hseen⟩ := h b List.mem_cons_self r seen hr
    obtain ⟨ys, r', hrest, hmore⟩ := ih (fun b hb => h b (List.mem_cons_of_mem _ hb)) hseen
    refine ⟨xs ++ ys, r', Emit.collect_cons_eq_ok.mpr ⟨_, _, r₁, hb, hrest, rfl⟩, ?_⟩
    rw [happend, hview, hmore]
    rfl

theorem ordered_entityList (hc : c.IsSound) : c.entityList.Pairwise fun a b => a.name < b.name := by
  show (c.entities.pairs.map Prod.snd).Pairwise _
  rw [List.pairwise_map]
  refine List.Pairwise.imp_of_mem (fun {p q} hp hq hlt => ?_) hc.entities
  rw [hc.entity_name p.1 p.2 (hc.entities.mem_pairs_iff.mp hp),
    hc.entity_name q.1 q.2 (hc.entities.mem_pairs_iff.mp hq)]
  exact hlt

theorem ordered_tables (hc : c.IsSound) : c.tables.Pairwise fun a b => a.name < b.name := by
  refine List.Pairwise.filterMap _ (fun e f hlt table ht other ho => ?_) (ordered_entityList hc)
  cases e with
  | object o => cases ht
  | table table' =>
    cases f with
    | object o => cases ho
    | table other' =>
      cases ht
      cases ho
      exact hlt

theorem nodup_names_entityList (hc : c.IsSound) : (c.entityList.map Entity.name).Nodup :=
  List.pairwise_map.mpr ((ordered_entityList hc).imp ne_of_lt)

theorem nodup_names_tables (hc : c.IsSound) : (c.tables.map fun table => table.name).Nodup :=
  List.pairwise_map.mpr ((ordered_tables hc).imp ne_of_lt)

/-- The tables before a table in name order are those that stand before it. -/
theorem mem_taken_iff (hc : c.IsSound) {before rest : List Table}
    (h : c.tables = before ++ table :: rest) (n : String) :
    n ∈ taken c table ↔ n ∈ before.flatMap fun other => (sortedCandidates other).map Operation.name := by
  have hord := ordered_tables hc
  rw [h, List.pairwise_append, List.pairwise_cons] at hord
  obtain ⟨-, ⟨hrest, -⟩, hbefore⟩ := hord
  have hmem : ∀ other, other ∈ c.tables ∧ other.name < table.name ↔ other ∈ before := by
    intro other
    rw [h, List.mem_append, List.mem_cons]
    constructor
    · rintro ⟨hm | rfl | hm, hlt⟩
      · exact hm
      · exact absurd hlt (lt_irrefl _)
      · exact absurd hlt (lt_asymm (hrest other hm))
    · intro hm
      exact ⟨.inl hm, hbefore other hm table List.mem_cons_self⟩
  unfold taken
  simp only [List.mem_flatMap, List.mem_filter, decide_eq_true_eq, List.mem_map, hmem,
    mem_sortedCandidates]

/-- What the tables yield one after another is what they keep. -/
theorem keptFrom_tables (hc : c.IsSound) (out : Table → List Operation → List γ) :
    keptFrom sortedCandidates out [] c.tables = c.tables.flatMap fun table => out table (kept c table) := by
  -- the names seen are those of the tables that stand before
  suffices ∀ rest before, c.tables = before ++ rest →
      keptFrom sortedCandidates out
        (before.flatMap fun other => (sortedCandidates other).map Operation.name) rest =
        rest.flatMap fun table => out table (kept c table) from this c.tables [] rfl
  intro rest
  induction rest with
  | nil => exact fun _ _ => rfl
  | cons table rest ih =>
    intro before h
    have hnext := ih (before ++ [table]) (by rw [h, List.append_assoc]; rfl)
    rw [List.flatMap_append, List.flatMap_singleton] at hnext
    unfold keptFrom kept
    rw [hnext, List.flatMap_cons, firstNamed_congr (mem_taken_iff hc h)]
    rfl

/-! ## Targets -/

/-- The operations of a table. -/
theorem operations_yields (c : Catalog) (t : Target) (table : Table) :
    YieldsKept t Declaration.operations (Emit.fragment c t (.table table) .operations)
      (sortedCandidates table) id := by
  intro r seen hr
  refine (operations_ends c t (.table table) r).mono fun ds r' hstep => ?_
  exact ⟨hstep.operations_eq hr, hstep.marks seen hr⟩

/-- The file of a table's operations. -/
theorem operationsFile_yields (c : Catalog) (table : Table) :
    YieldsKept .typescript id (ClientModel.operationsFile c table) (sortedCandidates table) fun ops =>
      [(Naming.operationsFile table.name "ts",
        ClientModel.operationsText table.name (Selection.ofName c table.name) ops)] := by
  intro r seen hr
  refine (operations_yields c .typescript table r seen hr).bind fun ds r' ⟨hops, hseen⟩ => ?_
  exact Emit.ends_pure ⟨by rw [hops]; rfl, hseen⟩

/-- The operations of an entity of the API. -/
theorem apiSchemaEntity_yields (hc : c.IsSound) {e : Entity} (he : c.entity? e.name = some e) :
    YieldsKept t Declaration.operations (Emit.fragment c t e .apiSchemaEntity) (callsFor e) id := by
  intro r seen hr
  refine (apiSchemaEntity_ends hc he r).mono fun ds r' ⟨types, ops, r₁, hds, hentered, hops⟩ => ?_
  have hr₁ : Seen t r₁ seen := hr.congr hentered.step.operations
  rw [hds, Declaration.operations_append, hentered.step.operations_eq_nil]
  exact ⟨hops.operations_eq hr₁, hops.marks seen hr₁⟩

/-- Every operation of a table has a resolver. -/
theorem exists_resolver (h : op ∈ candidates table) :
    ∃ resolver, Infra.resolver table op = .ok resolver ∧ resolver.operation = op := by
  have hrequest : ∃ request, Infra.request table op = .ok request := by
    unfold Infra.request
    split
    · exact ⟨_, rfl⟩
    split
    · exact ⟨_, rfl⟩
    split
    · exact ⟨_, rfl⟩
    next hcreate hupdate hdelete =>
      rcases mem_candidates_iff.mp h with ⟨verb, hv, rfl⟩ | ⟨key, hk, rfl⟩
      · simp only [Naming.verbs, List.mem_cons, List.not_mem_nil, or_false] at hv
        rcases hv with rfl | rfl | rfl
        · exact absurd (beq_self_eq_true _) hcreate
        · exact absurd (beq_self_eq_true _) hupdate
        · exact absurd (beq_self_eq_true _) hdelete
      · have hfound : (Infra.queryKey? table (queryOperation table key).name).isSome = true :=
          List.find?_isSome.mpr ⟨key, hk, beq_self_eq_true _⟩
        obtain ⟨found, hfound⟩ := Option.isSome_iff_exists.mp hfound
        rw [hfound]
        exact ⟨_, rfl⟩
  obtain ⟨request, hrequest⟩ := hrequest
  unfold Infra.resolver
  rw [hrequest]
  exact ⟨_, rfl, rfl⟩

/-- The resolvers of operations of a table. -/
def resolversOf (table : Table) (ops : List Operation) : List Infra.Resolver :=
  ops.filterMap fun op => (Infra.resolver table op).toOption

theorem mapM_resolver (ops : List Operation) (h : ∀ op ∈ ops, op ∈ candidates table) :
    ops.mapM (Infra.resolver table) = .ok (resolversOf table ops) ∧
      (resolversOf table ops).map Infra.Resolver.operation = ops := by
  induction ops with
  | nil => exact ⟨rfl, rfl⟩
  | cons op rest ih =>
    obtain ⟨resolver, hop, hname⟩ := exists_resolver (h op List.mem_cons_self)
    obtain ⟨hrest, hnames⟩ := ih fun op hm => h op (List.mem_cons_of_mem _ hm)
    have hcons : resolversOf table (op :: rest) = resolver :: resolversOf table rest := by
      unfold resolversOf
      rw [List.filterMap_cons, hop]
      rfl
    rw [hcons, List.map_cons, hname, hnames, List.mapM_cons, hop, hrest]
    exact ⟨rfl, rfl⟩

/-- The resolvers of a table. -/
theorem resolvers_yields (c : Catalog) (table : Table) :
    YieldsKept .infra id (Infra.resolvers c table) (sortedCandidates table) (resolversOf table) := by
  intro r seen hr
  refine (operations_yields c .infra table r seen hr).bind fun ds r' ⟨hops, hseen⟩ => ?_
  have hresolvers := (mapM_resolver (firstNamed seen (sortedCandidates table)) fun op hm =>
    mem_sortedCandidates.mp (of_mem_firstNamed hm).1).1
  refine ⟨_, r', ?_, rfl, hseen⟩
  show ((Declaration.operations ds).mapM (Infra.resolver table), r') = _
  rw [hops]
  exact congrArg (·, r') hresolvers

/-- Object types call for no operation. -/
theorem keptFrom_callsFor (seen : List String) (entities : List Entity) :
    keptFrom callsFor (fun _ ops => ops) seen entities =
      keptFrom sortedCandidates (fun _ ops => ops) seen (entities.filterMap Entity.table?) := by
  induction entities generalizing seen with
  | nil => rfl
  | cons e rest ih =>
    cases e with
    | object o =>
      show [] ++ keptFrom callsFor _ (seen ++ []) rest = _
      rw [List.append_nil, ih]
      rfl
    | table table =>
      show _ ++ keptFrom callsFor _ _ rest = _ ++ keptFrom sortedCandidates _ _ _
      rw [ih]
      rfl

theorem tables_eq (c : Catalog) :
    (c.entityList.filter Entity.isApiVisible).filterMap Entity.table? = c.tables := by
  unfold Catalog.tables
  rw [List.filterMap_filter]
  refine List.filterMap_congr fun e _ => ?_
  cases e with
  | table table => rfl
  | object o => exact ite_self none

/-- Rendered from a fresh registry, the targets emit for every table the operations `ops` of it. -/
structure Emits (o : Options) (c : Catalog) (ops : Table → List Operation) : Prop where
  client : ∃ models r files, Emit.collect (ClientModel.modelFile o c) c.entityList .empty = (.ok models, r) ∧
    (Emit.collect (ClientModel.operationsFile c) c.tables r).1 = .ok files ∧
      files = c.tables.map fun table => (Naming.operationsFile table.name "ts",
        ClientModel.operationsText table.name (Selection.ofName c table.name) (ops table))
  api : ∃ ds, (ApiSchema.declarations c .empty).1 = .ok ds ∧
    Declaration.operations ds = c.tables.flatMap ops
  infra : ∃ resolvers, (Emit.collect (Infra.resolvers c) c.tables .empty).1 = .ok resolvers ∧
    resolvers.map Infra.Resolver.operation = c.tables.flatMap ops

theorem tables_kept (hc : c.IsSound) (t : Target) : ∃ ds,
    (Emit.collect (fun table => Emit.fragment c t (.table table) .operations) c.tables .empty).1 =
      .ok ds ∧ Declaration.operations ds = c.tables.flatMap (kept c) := by
  obtain ⟨ds, r', hrun, hview⟩ := collect_keptFrom rfl Declaration.operations_append c.tables
    (fun table _ => operations_yields c t table) seen_empty
  exact ⟨ds, congrArg Prod.fst hrun, hview.trans (keptFrom_tables hc fun _ ops => ops)⟩

/-- The files of the tables' operations. -/
theorem operationsFiles_kept (hc : c.IsSound) (hr : Seen .typescript r []) :
    (Emit.collect (ClientModel.operationsFile c) c.tables).Ends r fun files _ =>
      files = c.tables.map fun table => (Naming.operationsFile table.name "ts",
        ClientModel.operationsText table.name (Selection.ofName c table.name) (kept c table)) := by
  obtain ⟨files, r', hrun, hview⟩ := collect_keptFrom rfl (fun _ _ => rfl) c.tables
    (fun table _ => operationsFile_yields c table) hr
  refine ⟨files, r', hrun, ?_⟩
  rw [show files = _ from hview, keptFrom_tables hc]
  exact List.map_eq_flatMap.symm

/-- The operations that the API schema declares. -/
theorem declarations_kept (hc : c.IsSound) (hr : Seen .graphql r []) :
    (ApiSchema.declarations c).Ends r fun ds _ =>
      Declaration.operations ds = c.tables.flatMap (kept c) := by
  have hall : ∀ e ∈ c.entityList.filter Entity.isApiVisible, c.entity? e.name = some e :=
    fun e he => hc.entity?_of_mem (List.mem_filter.mp he).1
  obtain ⟨ds, r', hrun, hview⟩ := collect_keptFrom rfl Declaration.operations_append _
    (fun e he => apiSchemaEntity_yields hc (hall e he)) hr
  refine ⟨ds, r', hrun, hview.trans ?_⟩
  show keptFrom callsFor (fun _ ops => ops) [] _ = _
  rw [keptFrom_callsFor, tables_eq]
  exact keptFrom_tables hc _

/-- The files of the entities' types. -/
theorem modelFiles_end (hc : c.IsSound) (o : Options) (r : Registry) :
    (Emit.collect (ClientModel.modelFile o c) c.entityList).Ends r
      (Modelled .typescript (fun e => Naming.modelFile e.name "ts") c.entityList r) :=
  modelArtifacts_end hc (f := fun e ds => (Naming.modelFile e.name "ts",
    ClientModel.modelText (imports c (Declaration.types ds))
      ((Declaration.types ds).map (ClientModel.interface o.docs))))
    (fun _ _ => rfl) c.entityList (fun _ => hc.entity?_of_mem) r

theorem emits_kept (hc : c.IsSound) (o : Options) : Emits o c (kept c) := by
  constructor
  case client =>
    obtain ⟨models, r, hmodels, hmodelled⟩ := modelFiles_end hc o .empty
    obtain ⟨files, r', hrun, hfiles⟩ := operationsFiles_kept hc (seen_empty.congr hmodelled.operations)
    exact ⟨models, r, files, hmodels, congrArg Prod.fst hrun, hfiles⟩
  case api =>
    obtain ⟨ds, r', hrun, hops⟩ := declarations_kept hc seen_empty
    exact ⟨ds, congrArg Prod.fst hrun, hops⟩
  case infra =>
    obtain ⟨resolvers, r', hrun, hview⟩ := collect_keptFrom rfl (fun _ _ => rfl) c.tables
      (fun table _ => resolvers_yields c table) seen_empty
    refine ⟨resolvers, congrArg Prod.fst hrun, ?_⟩
    rw [show resolvers = _ from hview, keptFrom_tables hc, List.map_flatMap]
    exact List.flatMap_congr fun table _ => (mapM_resolver _ fun op hm => (mem_kept_iff.mp hm).1).2

/-- The targets emit for every table what it keeps: each of its operations once, unless it is a query of
whose name a table before it has a query, too. So they emit all operations of all tables exactly when no
two tables have queries of one name. -/
structure EmitsKept (o : Options) (c : Catalog) : Prop where
  emits : Emits o c (kept c)
  once : ∀ table ∈ c.tables, ((kept c table).map Operation.name).Nodup
  kept : ∀ table ∈ c.tables, ∀ op, op ∈ SchemaGen.kept c table ↔ op ∈ candidates table ∧
    ∀ other ∈ c.tables, other.name < table.name → op.name ∉ (candidates other).map Operation.name
  mutations : ∀ table ∈ c.tables, ∀ op ∈ candidates table, op.kind = .mutation →
    op ∈ SchemaGen.kept c table
  all : (∀ table ∈ c.tables, ∀ op ∈ candidates table, op ∈ SchemaGen.kept c table) ↔
    ∀ table ∈ c.tables, ∀ other ∈ c.tables, table ≠ other →
      ∀ key ∈ table.queryKeys, ∀ key' ∈ other.queryKeys,
        Naming.queryOperation table.name key.required ≠ Naming.queryOperation other.name key'.required

/-- What the targets emit for a catalog made from parsed documents. -/
theorem operations_kept {corpus : Corpus} (hp : corpus.IsParsed) (h : corpus.catalog = .ok c)
    (o : Options) : EmitsKept o c := by
  have hc := Corpus.isSound_of_catalog hp h
  constructor
  case emits => exact emits_kept hc o
  case once => exact fun table _ => nodup_names_firstNamed _ _
  case kept => exact fun table _ op => mem_kept_iff
  case mutations => exact fun table _ op hop => mem_kept_of_mutation hop
  case all =>
    refine forall_kept_iff fun table ht other ho he => ?_
    have htable := hc.entity?_of_mem_tables ht
    rw [he, hc.entity?_of_mem_tables ho] at htable
    cases htable
    rfl

/-- The sources of two tables whose names and keys are glued to one name of a query. -/
def gluedSources : List (Path × List String) :=
  [(⟨"Order.yml"⟩, ["name: Order", "kind: table", "version: 1", "model:",
      "  keys: {primary: {partition: lineByDay}}", "  attributes: [{name: lineByDay, type: string}]"]),
    (⟨"OrderByLine.yml"⟩, ["name: OrderByLine", "kind: table", "version: 1", "model:",
      "  keys: {primary: {partition: day}}", "  attributes: [{name: day, type: string}]"])]

/-- The documents that these sources are parsed to. -/
def glued : Corpus :=
  let table (name key : String) : SchemaDoc :=
    ⟨⟨name ++ ".yml"⟩, name, none,
      .table ⟨"1", key, none, none, [⟨key, .scalar .string, false, none, none⟩]⟩⟩
  ⟨[table "Order" "lineByDay", table "OrderByLine" "day"], []⟩

theorem glued_isParsed : glued.IsParsed :=
  Corpus.isParsed_of_mapM (s := gluedSources) (by decide +kernel) (.inl rfl)

/-- The catalog of these documents. -/
def gluedCatalog : Catalog := glued.catalog.toOption.getD .empty

theorem catalog_glued : glued.catalog = .ok gluedCatalog := by decide +kernel

theorem operations_kept_glued :
    glued.IsParsed ∧ glued.catalog = .ok gluedCatalog ∧ ∀ o, EmitsKept o gluedCatalog :=
  ⟨glued_isParsed, catalog_glued, operations_kept glued_isParsed catalog_glued⟩

/-- The second of the two tables calls for a query that no target emits: the first one has taken its
name. -/
theorem exists_operation_lost : glued.IsParsed ∧ glued.catalog = .ok gluedCatalog ∧
    ∃ table ∈ gluedCatalog.tables, ∃ op ∈ candidates table,
      (∃ ds, (ApiSchema.declarations gluedCatalog .empty).1 = .ok ds ∧
        op ∉ Declaration.operations ds) ∧
      ∀ t, ∃ ds, (Emit.collect (fun table => Emit.fragment gluedCatalog t (.table table) .operations)
        gluedCatalog.tables .empty).1 = .ok ds ∧ op ∉ Declaration.operations ds := by
  let order : Table :=
    ⟨"Order", "1", none, [⟨"lineByDay", .scalar .string, false, none⟩], "lineByDay", none, []⟩
  let byLine : Table := ⟨"OrderByLine", "1", none, [⟨"day", .scalar .string, false, none⟩], "day", none, []⟩
  let lost : Operation := queryOperation byLine ⟨["day"], none, none⟩
  have horder : order ∈ gluedCatalog.tables := by decide +kernel
  have hbyLine : byLine ∈ gluedCatalog.tables := by decide +kernel
  have hcalls : lost ∈ candidates byLine := by decide
  have hc := Corpus.isSound_of_catalog glued_isParsed catalog_glued
  have hlost : lost ∉ gluedCatalog.tables.flatMap (kept gluedCatalog) := by
    intro hm
    obtain ⟨table, ht, hkept⟩ := List.mem_flatMap.mp hm
    have hcandidate := (mem_kept_iff.mp hkept).1
    have hname : table.name = "OrderByLine" := (entity_of_mem_candidates hcandidate).symm
    have hbefore : order.name < table.name := hname ▸ by decide
    refine (mem_kept_iff.mp hkept).2 order horder hbefore ?_
    decide
  refine ⟨glued_isParsed, catalog_glued, byLine, hbyLine, lost, hcalls, ?_, fun t => ?_⟩
  · obtain ⟨ds, hrun, hops⟩ := (emits_kept hc ⟨true, "", 0, ""⟩).api
    exact ⟨ds, hrun, hops ▸ hlost⟩
  · obtain ⟨ds, hrun, hops⟩ := tables_kept hc t
    exact ⟨ds, hrun, hops ▸ hlost⟩

end SchemaGen
