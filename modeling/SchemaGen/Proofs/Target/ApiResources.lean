import SchemaGen.Proofs.Target.Operations

/-!
# Resources of the API description

The description of the API holds its resources by id: the API and its schema, a data source for each
table, and resolvers for the operations that the tables keep. A resolver says which field of which root
type it answers, and from which data source. Its id is made from the Pascal case of the operation's name,
and of members put in under one id the last one stays; so of operations that share an id the last one
alone has a resolver.

Results:
1. `lookup_insertAll`: what is held after members were put in.
2. `api_ends`: the resources of the API.
3. `mem_bindings_iff`: which operations have a resolver.
4. `nodup_rootField_bindings`: no field has two.
5. `lookup_dataSource`: what stands under the id of a data source.
-/

namespace SchemaGen

open Emission

/-! ## Members put in one after the other -/

namespace Members

variable {α : Type} {name : String} {value : α} {members : Members α}

theorem nodup_names_insert (h : (members.map Prod.fst).Nodup) :
    ((insert name value members).map Prod.fst).Nodup := by
  induction members with
  | nil => exact List.nodup_singleton name
  | cons m rest ih =>
    obtain ⟨other, old⟩ := m
    rw [List.map_cons, List.nodup_cons] at h
    unfold insert
    split
    · next he =>
      rw [List.map_cons, List.nodup_cons]
      exact ⟨he ▸ h.1, h.2⟩
    · next hne =>
      rw [List.map_cons, List.nodup_cons, mem_names_insert]
      exact ⟨fun hm => hm.elim hne h.1, ih h.2⟩

theorem mem_of_lookup (h : members.lookup name = some value) : (name, value) ∈ members := by
  obtain ⟨before, after, rfl, -⟩ := List.lookup_eq_some_iff.mp h
  exact List.mem_append_right _ List.mem_cons_self

/-- A name that stands for one value is looked up to it. -/
theorem lookup_of_forall (h : (name, value) ∈ members) (hone : ∀ v, (name, v) ∈ members → v = value) :
    members.lookup name = some value := by
  cases hl : members.lookup name with
  | none =>
    rw [List.lookup_eq_none_iff] at hl
    exact absurd rfl (bne_iff_ne.mp (hl _ h))
  | some v => rw [hone v (mem_of_lookup hl)]

theorem lookup_of_mem (hn : (members.map Prod.fst).Nodup) (h : (name, value) ∈ members) :
    members.lookup name = some value :=
  lookup_of_forall h fun _ hv => congrArg Prod.snd (List.inj_on_of_nodup_map hn hv h rfl)

/-- What a name stands for among the members that have an image, if all of that name have one. -/
theorem lookup_filterMap {β : Type} {f : α → Option β} (members : Members α)
    (h : ∀ v, (name, v) ∈ members → (f v).isSome = true) :
    (members.filterMap fun m => (f m.2).map fun b => (m.1, b)).lookup name =
      (members.lookup name).bind f := by
  induction members with
  | nil => rfl
  | cons m rest ih =>
    have hrest := ih fun v hv => h v (List.mem_cons_of_mem _ hv)
    obtain ⟨other, v⟩ := m
    rw [List.filterMap_cons, List.lookup_cons]
    by_cases he : name = other
    · obtain ⟨b, hb⟩ := Option.isSome_iff_exists.mp (h v (he ▸ List.mem_cons_self))
      simp [hb, he]
    · rw [beq_eq_false_iff_ne.mpr he, ← hrest]
      cases f v with
      | none => rfl
      | some b =>
        show ((other, b) :: _).lookup name = _
        rw [List.lookup_cons, beq_eq_false_iff_ne.mpr he]

end Members

namespace Infra

theorem nodup_names_insertAll {members : List (String × Json)} (h : (members.map Prod.fst).Nodup)
    (new : List (String × Json)) : ((insertAll members new).map Prod.fst).Nodup := by
  induction new generalizing members with
  | nil => exact h
  | cons m rest ih => exact ih (Members.nodup_names_insert h)

/-- What is held after the insertions is looked up from the last one to the first. -/
theorem lookup_insertAll (name : String) (members new : List (String × Json)) :
    (insertAll members new).lookup name = (new.reverse ++ members).lookup name := by
  induction new generalizing members with
  | nil => rfl
  | cons m rest ih =>
    have hnext : insertAll members (m :: rest) = insertAll (Members.insert m.1 m.2 members) rest := rfl
    rw [hnext, ih, List.lookup_append, Members.lookup_insert, List.reverse_cons, List.append_assoc,
      List.lookup_append]
    congr 1
    -- of what was put in, the first comes last in the order of looking up
    show _ = (m :: members).lookup name
    by_cases he : name = m.1
    · rw [if_pos he, List.lookup_cons, beq_iff_eq.mpr he]
    · rw [if_neg he, List.lookup_cons, beq_eq_false_iff_ne.mpr he]

/-- What is held after the insertions was put in, or was held before. -/
theorem mem_of_mem_insertAll {members new : List (String × Json)} {m : String × Json}
    (h : (members.map Prod.fst).Nodup) (hm : m ∈ insertAll members new) : m ∈ new.reverse ++ members := by
  have hlookup := Members.lookup_of_mem (nodup_names_insertAll h new) hm
  rw [lookup_insertAll] at hlookup
  exact Members.mem_of_lookup hlookup

end Infra

/-! ## Reading a description -/

namespace Json

/-- The member of that name. -/
def member? (name : String) : Json → Option Json
  | object members => members.lookup name
  | _ => none

/-- The items of a list; other values have none. -/
def items : Json → List Json
  | list items => items
  | _ => []

/-- The text, if the value is one. -/
def text? : Json → Option String
  | text value => some value
  | _ => none

/-- The text at a path of members. -/
def textAt? : List String → Json → Option String
  | [], value => value.text?
  | name :: path, value => (value.member? name).bind (textAt? path)

/-- The members of a part of a document. -/
def part (name : String) (document : Json) : List (String × Json) :=
  match document.member? name with
  | some (object members) => members
  | _ => []

end Json

namespace Infra

/-- The resource an attribute of which is referenced. -/
def attributeOwner? (value : Json) : Option String :=
  match value.member? "Fn::GetAtt" with
  | some (.list (.text resource :: _)) => some resource
  | _ => none

/-- What a resolver says: the root type and the field that it answers, and its data source. -/
structure Binding where
  root : String
  field : String
  source : String
  deriving DecidableEq, Repr

/-- What a resource says, if it is a resolver. -/
def binding? (resource : Json) : Option Binding :=
  match resource.member? "Type", resource.member? "Properties" with
  | some (.text "AWS::AppSync::Resolver"), some properties =>
    match properties.member? "TypeName", properties.member? "FieldName",
      properties.member? "DataSourceName" with
    | some (.text root), some (.text field), some source =>
      (attributeOwner? source).map fun owner => ⟨root, field, owner⟩
    | _, _, _ => none
  | _, _ => none

/-- What the resolvers among resources say. -/
def bindings (resources : List (String × Json)) : List Binding := resources.filterMap fun m => binding? m.2

theorem binding?_resource (r : Resolver) :
    binding? r.resource = some ⟨r.operation.kind.root, r.operation.name, r.source⟩ := rfl

/-! ## The resources of the API -/

variable {c : Catalog} {o : Options} {table : Table} {ops : List Operation} {op : Operation}
  {r : Registry} {b : Binding} {m : String × Json}

/-- The members that a table with those operations brings. -/
def tableMembers (table : Table) (ops : List Operation) : List (String × Json) :=
  (Naming.dataSource table.name, dataSource table) ::
    (resolversOf table ops).map fun resolver => (resolverId resolver.operation, resolver.resource)

/-- The resources that do not come from a table. -/
def fixedResources (o : Options) : List (String × Json) :=
  [(apiId, apiResource o), (schemaId, schemaResource o)]

/-- The resources that the tables bring, in the order in which they are put in. -/
def broughtResources (c : Catalog) : List (String × Json) :=
  c.tables.flatMap fun table => tableMembers table (kept c table)

/-- The resources of the API. -/
def resources (o : Options) (c : Catalog) : List (String × Json) :=
  insertAll (fixedResources o) (broughtResources c)

theorem tableResources_yields (c : Catalog) (table : Table) :
    YieldsKept .infra id (tableResources c table) (sortedCandidates table) (tableMembers table) := by
  intro r seen hr
  refine (resolvers_yields c table r seen hr).bind fun all r' ⟨hall, hseen⟩ => ?_
  exact Emit.ends_pure ⟨by rw [show all = _ from hall]; rfl, hseen⟩

/-- The description of the API, from a registry without operations. -/
theorem api_ends (hc : c.IsSound) (hr : Seen .infra r []) :
    (api o c).Ends r fun description _ =>
      description.member? "Resources" = some (.object (resources o c)) := by
  have hcollect : (Emit.collect (tableResources c) c.tables).Ends r fun members _ =>
      members = broughtResources c := by
    obtain ⟨members, r', hrun, hview⟩ := collect_keptFrom rfl (fun _ _ => rfl) c.tables
      (fun table _ => tableResources_yields c table) hr
    exact ⟨members, r', hrun, hview.trans (keptFrom_tables hc _)⟩
  refine hcollect.bind fun members r' hmembers => Emit.ends_pure ?_
  rw [hmembers]
  rfl

/-- The resolver that an operation calls for. -/
def bindingOf (op : Operation) : Binding := ⟨op.kind.root, op.name, Naming.dataSource op.entity⟩

theorem of_mem_resolversOf {resolver : Resolver} (h : resolver ∈ resolversOf table ops) :
    resolver.operation ∈ ops ∧ resolver.source = Naming.dataSource table.name := by
  obtain ⟨op, hop, hres⟩ := List.mem_filterMap.mp h
  unfold Infra.resolver at hres
  cases hrequest : request table op with
  | error fault =>
    rw [hrequest] at hres
    cases hres
  | ok request =>
    rw [hrequest] at hres
    cases hres
    exact ⟨hop, rfl⟩

theorem binding?_of_mem_resolversOf (hops : ∀ op ∈ ops, op ∈ candidates table) {resolver : Resolver}
    (h : resolver ∈ resolversOf table ops) :
    binding? resolver.resource = some (bindingOf resolver.operation) := by
  obtain ⟨hop, hsource⟩ := of_mem_resolversOf h
  rw [binding?_resource, hsource, ← entity_of_mem_candidates (hops _ hop)]
  rfl

/-- The resolvers that a table brings are those of its operations. -/
theorem filterMap_tableMembers (hops : ∀ op ∈ ops, op ∈ candidates table) :
    ((tableMembers table ops).filterMap fun m => (binding? m.2).map fun b => (m.1, b)) =
      ops.map fun op => (resolverId op, bindingOf op) := by
  have hresolvers : ∀ resolver ∈ resolversOf table ops,
      ((binding? resolver.resource).map fun b => (resolverId resolver.operation, b)) =
        some (resolverId resolver.operation, bindingOf resolver.operation) := by
    intro resolver h
    rw [binding?_of_mem_resolversOf hops h]
    rfl
  have hmap : (resolversOf table ops).filterMap (fun resolver =>
      (binding? resolver.resource).map fun b => (resolverId resolver.operation, b)) =
        (resolversOf table ops).map fun resolver =>
          (resolverId resolver.operation, bindingOf resolver.operation) :=
    (List.filterMap_congr hresolvers).trans (congrFun List.filterMap_eq_map' _)
  unfold tableMembers
  rw [List.filterMap_cons]
  show ((resolversOf table ops).map _).filterMap _ = _
  rw [List.filterMap_map]
  refine hmap.trans ?_
  conv_rhs => rw [← (mapM_resolver ops hops).2, List.map_map]
  rfl

theorem filterMap_broughtResources (c : Catalog) :
    ((broughtResources c).filterMap fun m => (binding? m.2).map fun b => (m.1, b)) =
      (c.tables.flatMap (kept c)).map fun op => (resolverId op, bindingOf op) := by
  unfold broughtResources
  rw [List.filterMap_flatMap, List.map_flatMap]
  exact List.flatMap_congr fun table _ => filterMap_tableMembers fun op hop => (mem_kept_iff.mp hop).1

/-- A resource is a fixed one, a data source, or the resolver of an operation. -/
theorem of_mem_resources (h : m ∈ (broughtResources c).reverse ++ fixedResources o) :
    m ∈ fixedResources o ∨
      (∃ table ∈ c.tables, m = (Naming.dataSource table.name, dataSource table)) ∨
        ∃ op ∈ c.tables.flatMap (kept c), m.1 = resolverId op ∧ binding? m.2 = some (bindingOf op) := by
  rcases List.mem_append.mp h with h | h
  · right
    obtain ⟨table, ht, hm⟩ := List.mem_flatMap.mp (List.mem_reverse.mp h)
    rcases List.mem_cons.mp hm with rfl | hm
    · exact .inl ⟨table, ht, rfl⟩
    · obtain ⟨resolver, hres, rfl⟩ := List.mem_map.mp hm
      have hbinding := binding?_of_mem_resolversOf (fun op hop => (mem_kept_iff.mp hop).1) hres
      exact .inr ⟨_, List.mem_flatMap.mpr ⟨table, ht, (of_mem_resolversOf hres).1⟩, rfl, hbinding⟩
  · exact .inl h

/-! ## Ids -/

theorem resolverId_ne_dataSource (op : Operation) (entity : String) :
    resolverId op ≠ Naming.dataSource entity := by
  intro he
  have hresolver : "Resolver".toList <:+ (Naming.dataSource entity).toList :=
    he ▸ Naming.suffix_append _ _
  have hsource := Naming.suffix_append entity "DataSource"
  exact absurd (List.suffix_of_suffix_length_le hresolver hsource (by decide)) (by decide)

theorem resolverId_not_mem_fixedResources (op : Operation) :
    resolverId op ∉ (fixedResources o).map Prod.fst := by
  have hends : ∀ n ∈ [apiId, schemaId], ¬ "Resolver".toList <:+ n.toList := by decide
  exact fun hm => hends _ hm (Naming.suffix_append _ _)

theorem dataSource_not_mem_fixedResources (entity : String) :
    Naming.dataSource entity ∉ (fixedResources o).map Prod.fst := by
  have hends : ∀ n ∈ [apiId, schemaId], ¬ "DataSource".toList <:+ n.toList := by decide
  exact fun hm => hends _ hm (Naming.suffix_append _ _)

/-- What bears the id of a resolver is one. -/
theorem isSome_binding?_of_mem (h : m ∈ (broughtResources c).reverse ++ fixedResources o)
    (hid : m.1 = resolverId op) : (binding? m.2).isSome = true := by
  rcases of_mem_resources h with h | ⟨table, -, rfl⟩ | ⟨_, -, -, hb⟩
  · have hm : m.1 ∈ (fixedResources o).map Prod.fst := List.mem_map_of_mem h
    exact absurd (hid ▸ hm) (resolverId_not_mem_fixedResources op)
  · exact absurd hid.symm (resolverId_ne_dataSource op table.name)
  · rw [hb]
    rfl

/-! ## The operations that have a resolver -/

/-- The last of the operations whose resolver has the id. -/
def lastWith (ops : List Operation) (id : String) : Option Operation :=
  ops.reverse.find? fun op => resolverId op == id

theorem of_lastWith_eq_some {id : String} (h : lastWith ops id = some op) :
    op ∈ ops ∧ resolverId op = id := by
  unfold lastWith at h
  have hid := List.find?_some h
  exact ⟨List.mem_reverse.mp (List.mem_of_find?_eq_some h), beq_iff_eq.mp hid⟩

theorem lookup_reverse_map (ops : List Operation) (id : String) :
    ((ops.map fun op => (resolverId op, bindingOf op)).reverse).lookup id =
      (lastWith ops id).map bindingOf := by
  unfold lastWith
  rw [← List.map_reverse]
  induction ops.reverse with
  | nil => rfl
  | cons op rest ih =>
    rw [List.map_cons, List.lookup_cons, List.find?_cons, Bool.beq_comm, ih]
    cases resolverId op == id with
    | true => rfl
    | false => rfl

/-- Under the id of an operation stands the resolver of the last one with that id. -/
theorem lookup_resolverId (o : Options) (c : Catalog) (op : Operation) :
    ((resources o c).lookup (resolverId op)).bind binding? =
      (lastWith (c.tables.flatMap (kept c)) (resolverId op)).map bindingOf := by
  have hall : ∀ v, (resolverId op, v) ∈ (broughtResources c).reverse ++ fixedResources o →
      (binding? v).isSome = true := fun v hv => isSome_binding?_of_mem hv rfl
  unfold resources
  rw [lookup_insertAll, ← Members.lookup_filterMap _ hall, List.filterMap_append, List.filterMap_reverse,
    filterMap_broughtResources]
  show (_ ++ []).lookup _ = _
  rw [List.append_nil, lookup_reverse_map]

theorem nodup_names_fixedResources (o : Options) : ((fixedResources o).map Prod.fst).Nodup := by
  have hids : [apiId, schemaId].Nodup := by decide
  exact hids

theorem nodup_names_resources (o : Options) (c : Catalog) : ((resources o c).map Prod.fst).Nodup :=
  nodup_names_insertAll (nodup_names_fixedResources o) _

theorem mem_of_mem_resources (h : m ∈ resources o c) : m ∈ (broughtResources c).reverse ++ fixedResources o :=
  mem_of_mem_insertAll (nodup_names_fixedResources o) h

/-- A resolver stands under the id of the operation that it answers. -/
theorem exists_operation_of_binding (h : m ∈ resources o c) (hb : binding? m.2 = some b) :
    ∃ op ∈ c.tables.flatMap (kept c), m.1 = resolverId op ∧ bindingOf op = b := by
  rcases of_mem_resources (mem_of_mem_resources h) with hfixed | ⟨table, -, rfl⟩ | ⟨op, hop, hid, hbinding⟩
  · rcases List.mem_cons.mp hfixed with rfl | hfixed
    · cases hb
    · rw [List.mem_singleton.mp hfixed] at hb
      cases hb
  · cases hb
  · rw [hbinding] at hb
    exact ⟨op, hop, hid, Option.some.inj hb⟩

/-- The operations that have a resolver are the last ones with their ids. -/
theorem mem_bindings_iff : b ∈ bindings (resources o c) ↔
    ∃ op ∈ c.tables.flatMap (kept c),
      lastWith (c.tables.flatMap (kept c)) (resolverId op) = some op ∧ bindingOf op = b := by
  unfold bindings
  rw [List.mem_filterMap]
  constructor
  · rintro ⟨m, hm, hb⟩
    -- a resolver stands under the id of an operation, and there the last one with the id is found
    obtain ⟨op, hop, hid, -⟩ := exists_operation_of_binding hm hb
    have hlast := lookup_resolverId o c op
    rw [← hid, Members.lookup_of_mem (nodup_names_resources o c) hm, Option.bind_some, hb] at hlast
    obtain ⟨last, hfound, rfl⟩ := Option.map_eq_some_iff.mp hlast.symm
    obtain ⟨hmem, hsame⟩ := of_lastWith_eq_some hfound
    exact ⟨last, hmem, hsame ▸ hfound, rfl⟩
  · rintro ⟨op, -, hlast, rfl⟩
    have hlookup := lookup_resolverId o c op
    rw [hlast] at hlookup
    obtain ⟨v, hv, hb⟩ := Option.bind_eq_some_iff.mp hlookup
    exact ⟨_, Members.mem_of_lookup hv, hb⟩

/-- The field that a resolver answers, with its root type. -/
def Binding.rootField (b : Binding) : String × String := (b.root, b.field)

/-- Operations are told apart by their names, so that no field has two resolvers. -/
theorem nodup_rootField_bindings (hnames : ((c.tables.flatMap (kept c)).map Operation.name).Nodup) :
    ((bindings (resources o c)).map Binding.rootField).Nodup := by
  unfold bindings List.Nodup
  rw [List.pairwise_map, List.pairwise_filterMap]
  have hids := nodup_names_resources o c
  unfold List.Nodup at hids
  rw [List.pairwise_map] at hids
  -- resources have different ids, and resolvers of one field would have the id of one operation
  refine List.Pairwise.imp_of_mem (fun {m m'} hm hm' hne b hb b' hb' he => ?_) hids
  obtain ⟨op, hop, hid, rfl⟩ := exists_operation_of_binding hm hb
  obtain ⟨op', hop', hid', rfl⟩ := exists_operation_of_binding hm' hb'
  have hsame : op = op' := List.inj_on_of_nodup_map hnames hop hop' (congrArg Prod.snd he)
  exact hne (by rw [hid, hid', hsame])

/-- Under the id of its data source a table has that data source. -/
theorem lookup_dataSource (hc : c.IsSound) (ht : table ∈ c.tables) :
    (resources o c).lookup (Naming.dataSource table.name) = some (dataSource table) := by
  unfold resources
  rw [lookup_insertAll]
  refine Members.lookup_of_forall ?_ fun v hv => ?_
  · refine List.mem_append_left _ (List.mem_reverse.mpr (List.mem_flatMap.mpr ⟨table, ht, ?_⟩))
    exact List.mem_cons_self
  · rcases of_mem_resources hv with hfixed | ⟨other, ho, he⟩ | ⟨op, -, hid, -⟩
    · exact absurd (List.mem_map_of_mem hfixed) (dataSource_not_mem_fixedResources table.name)
    · have hname : table.name = other.name := (String.append_left_inj _).mp (congrArg Prod.fst he)
      have hother := hc.entity?_of_mem_tables ho
      rw [← hname, hc.entity?_of_mem_tables ht] at hother
      cases hother
      exact congrArg Prod.snd he
    · exact absurd hid.symm (resolverId_ne_dataSource op table.name)

end Infra

end SchemaGen
