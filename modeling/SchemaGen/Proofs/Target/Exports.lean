import SchemaGen.Proofs.Target.Links
import SchemaGen.Proofs.Target.Resolvers

/-!
# Exports of the client models

The last file of the client models takes over what all other files define: the types, the enums, and the
operations with the types that go with them. Types and enums bear different names, operations start in lower
case and bear different names, too. But nothing keeps the types that go with operations apart: two operations
may be the same in Pascal case, and an entity or an enum may be called like such a type.

Results:
1. `barrel_perm`: the names that the last file takes over.
2. `nodup_operationTypes_iff`: when the types that go with operations bear different names.
3. `nodup_barrel_iff_of_render`: when no name is exported twice.
-/

namespace SchemaGen

open Emission

variable {c : Catalog} {o : Options} {t : Target} {r r' : Registry} {files : Files}
  {decls : Entity → List TypeDecl} {n : String} {table : Table} {op : Operation}

/-- The names that the files define which the last file lists. -/
def Target.barrel (t : Target) (files : Files) : List String :=
  (t.listed files).flatMap fun p => (files.get? p.1).elim [] t.definitions

/-- The operations that the tables keep, in Pascal case. -/
def operationTitles (c : Catalog) : List String :=
  (c.tables.flatMap (kept c)).map fun op => Naming.toPascal op.name

/-! ## What is taken over -/

/-- The last file takes over what the modules export. -/
theorem Printed.barrel_perm (hc : c.IsSound) (hn : c.IsNamed) (ht : t ∈ Target.models)
    (h : Printed o c t decls files) :
    (t.barrel files).Perm ((t.modelModules c decls).flatMap ModelModule.exports) := by
  have hexports : ∀ m ∈ t.modelModules c decls,
      (files.get? (m.file t.extension)).elim [] t.definitions = m.exports := by
    intro m hm
    obtain ⟨text, htext, hget⟩ := h.modules m hm
    rw [hget]
    exact (readBack_of_text? hc hn h.artifacts ht hm htext).definitions
  have hnodup : ((t.modelModules c decls).map (ModelModule.file t.extension)).Nodup :=
    nodup_moduleFiles hc ht
  have hperm := sortedNames_perm hnodup
  unfold Target.barrel
  rw [h.listed_eq hc ht, List.flatMap_map, Target.moduleFiles_eq ht decls]
  refine (hperm.flatMap_right _).trans ?_
  rw [List.flatMap_map]
  exact .of_eq (List.flatMap_congr hexports)

/-- What the modules export are the types and enums, the operations, and the types that go with these. -/
theorem exports_perm : ((Target.typescript.modelModules c decls).flatMap ModelModule.exports).Perm
    (((c.entityList.flatMap fun e => (decls e).map TypeDecl.name) ++ c.enumList.map EnumType.name) ++
      ((c.tables.flatMap (kept c)).map Operation.name ++ operationTypes c)) := by
  have hoperations : (operationExports c .typescript).Perm
      ((c.tables.flatMap (kept c)).map Operation.name ++ operationTypes c) := by
    have hperm := List.flatMap_append_perm (c.tables.flatMap (kept c)) (fun op => [op.name]) Operation.clientTypes
    rw [← List.map_eq_flatMap, List.flatMap_assoc, List.flatMap_assoc] at hperm
    exact hperm.symm
  rw [flatMap_exports, List.append_assoc, List.append_assoc]
  refine List.Perm.append_left _ ?_
  exact (List.perm_append_comm).trans (List.Perm.append_left _ hoperations)

/-! ## Types that go with operations -/

/-- They bear different names just when the operations do in Pascal case. -/
theorem nodup_operationTypes_iff (c : Catalog) : (operationTypes c).Nodup ↔ (operationTitles c).Nodup := by
  have hperm : (operationTypes c).Perm ((operationTitles c).map (· ++ "Variables") ++
      (operationTitles c).map (· ++ "Result")) := by
    have hperm := List.flatMap_append_perm (c.tables.flatMap (kept c))
      (fun op => [Naming.toPascal op.name ++ "Variables"]) fun op => [Naming.toPascal op.name ++ "Result"]
    rw [← List.map_eq_flatMap, ← List.map_eq_flatMap, List.flatMap_assoc] at hperm
    unfold operationTitles
    rw [List.map_map, List.map_map]
    exact hperm.symm
  have hinjective : ∀ mark : String, ((operationTitles c).map (· ++ mark)).Nodup ↔ (operationTitles c).Nodup :=
    fun mark => List.nodup_map_iff fun _ _ => (String.append_left_inj mark).mp
  rw [hperm.nodup_iff, List.nodup_append, hinjective, hinjective]
  constructor
  · exact And.left
  · refine fun h => ⟨h, h, fun n hn m hm => ?_⟩
    obtain ⟨title, -, rfl⟩ := List.mem_map.mp hn
    obtain ⟨title', -, rfl⟩ := List.mem_map.mp hm
    exact Naming.append_ne_of_suffix (by decide) (by decide)

/-- Whether the name starts in lower case. -/
def startsLower (n : String) : Bool := n.toList.head?.any Char.isLower

theorem startsLower_append {start : String} (h : start ≠ "") (text : String) :
    startsLower (start ++ text) = startsLower start := by
  unfold startsLower
  rw [Text.head?_append h]

/-- Operations start in lower case. -/
theorem startsLower_of_mem_candidates (h : op ∈ candidates table) : startsLower op.name = true := by
  rcases mem_candidates_iff.mp h with ⟨verb, hv, rfl⟩ | ⟨key, -, rfl⟩
  · have hstart : ∀ verb ∈ Naming.verbs, verb ≠ "" ∧ startsLower verb = true := by decide
    show startsLower (Naming.toCamel verb ++ table.name) = true
    rw [Naming.toCamel_verb hv]
    exact (startsLower_append (hstart verb hv).1 _).trans (hstart verb hv).2
  · show startsLower ("query" ++ table.name ++ "By" ++ Naming.byAttributes key.required) = true
    rw [String.append_assoc, String.append_assoc]
    exact startsLower_append (by decide) _

/-- The types that go with operations do not start in lower case. -/
theorem startsLower_of_mem_operationTypes (h : n ∈ operationTypes c) : startsLower n = false := by
  have htitle : ∀ mark ∈ ["Variables", "Result"], ∀ n, startsLower (Naming.toPascal n ++ mark) = false := by
    intro mark hmark n
    by_cases hempty : Naming.toPascal n = ""
    · have hmarks : ∀ mark ∈ ["Variables", "Result"], startsLower mark = false := by decide
      rw [hempty, String.empty_append]
      exact hmarks mark hmark
    · rw [startsLower_append hempty, startsLower, ← Bool.not_eq_true, Option.any_eq_true]
      rintro ⟨first, hfirst, hlower⟩
      rw [Naming.head?_toPascal n first hfirst] at hlower
      cases hlower
  obtain ⟨table, -, h⟩ := List.mem_flatMap.mp h
  obtain ⟨op, -, h⟩ := List.mem_flatMap.mp h
  simp only [Operation.clientTypes, List.mem_cons, List.not_mem_nil, or_false] at h
  rcases h with rfl | rfl
  · exact htitle _ (by decide) _
  · exact htitle _ (by decide) _

/-! ## Names that are exported twice -/

/-- The name of an entity or an enum, or one that is generated, is that of a type that goes with an operation
only as that of an entity or an enum. -/
theorem disjoint_modelTypes_iff (hc : c.IsSound) : (∀ n ∈ modelTypes c, n ∉ operationTypes c) ↔
    ∀ n ∈ operationTypes c, c.entity? n = none ∧ c.enum? n = none := by
  constructor
  · refine fun h n hn => ⟨?_, ?_⟩
    · refine Option.eq_none_iff_forall_ne_some.mpr fun e he => h n ?_ hn
      have hown : n ∈ modelNames e := by
        rw [← hc.entity_name n e he]
        cases e <;> exact List.mem_cons_self
      exact List.mem_append_left _ (List.mem_flatMap.mpr ⟨e, hc.entities.mem_values_iff.mpr ⟨n, he⟩, hown⟩)
    · refine Option.eq_none_iff_forall_ne_some.mpr fun e he => h n ?_ hn
      exact List.mem_append_right _ ((ApiSchema.mem_names_enumList_iff hc).mpr ⟨e, he⟩)
  · intro h n hn htype
    obtain ⟨hentity, henum⟩ := h n htype
    rcases List.mem_append.mp hn with hn | hn
    · obtain ⟨e, he, hn⟩ := List.mem_flatMap.mp hn
      rcases of_mem_modelNames hn with rfl | hn
      · rw [hc.entity?_of_mem he] at hentity
        cases hentity
      · exact not_mem_operationTypes_of_generated hn htype
    · obtain ⟨e, he⟩ := (ApiSchema.mem_names_enumList_iff hc).mp hn
      rw [he] at henum
      cases henum

/-- No name is exported twice just when the types that go with operations have names of their own. -/
theorem Printed.nodup_barrel_iff (hc : c.IsSound) (hn : c.IsNamed) (h : Printed o c .typescript decls files) :
    (Target.typescript.barrel files).Nodup ↔ (operationTitles c).Nodup ∧
      ∀ n ∈ operationTypes c, c.entity? n = none ∧ c.enum? n = none := by
  have hd := h.artifacts
  have hdeclared : ∀ n, n ∈ (c.entityList.flatMap fun e => (decls e).map TypeDecl.name) ++
      c.enumList.map EnumType.name ↔ n ∈ modelTypes c := by
    intro n
    unfold modelTypes
    rw [List.mem_append, List.mem_append, List.mem_flatMap, List.mem_flatMap]
    exact or_congr_left (exists_congr fun e => and_congr_right fun he => (hd e he).names n)
  have hname : ∀ n ∈ (c.tables.flatMap (kept c)).map Operation.name,
      startsLower n = true ∧ startsUpper n = false := by
    refine List.forall_mem_map.mpr fun op hop => ?_
    obtain ⟨table, -, hop⟩ := List.mem_flatMap.mp hop
    have hcandidate := (mem_kept_iff.mp hop).1
    exact ⟨startsLower_of_mem_candidates hcandidate, not_startsUpper_of_mem_candidates hcandidate⟩
  rw [((h.barrel_perm hc hn (by decide)).trans exports_perm).nodup_iff, List.nodup_append,
    ← nodup_operationTypes_iff, ← disjoint_modelTypes_iff hc]
  constructor
  · rintro ⟨-, hoperations, hapart⟩
    exact ⟨(List.nodup_append.mp hoperations).2.1,
      fun n hn htype => hapart n ((hdeclared n).mpr hn) n (List.mem_append_right _ htype) rfl⟩
  · rintro ⟨htypes, hapart⟩
    refine ⟨nodup_declaredNames hc hd, List.nodup_append.mpr ⟨nodup_names_kept hc, htypes, ?_⟩, ?_⟩
    · rintro n hn _ htype rfl
      have hlower := (hname n hn).1
      rw [startsLower_of_mem_operationTypes htype] at hlower
      cases hlower
    · rintro n hn _ hm rfl
      have hmodel := (hdeclared n).mp hn
      rcases List.mem_append.mp hm with hm | hm
      · have hupper := startsUpper_of_mem_modelTypes hc hmodel
        rw [(hname n hm).2] at hupper
        cases hupper
      · exact hapart n hmodel hm

/-- The client models render for a catalog made from parsed documents; the names that their last file takes
over differ just when the types that go with operations bear names of their own: the operations differ in
Pascal case, and no entity and no enum is called like such a type. -/
theorem nodup_barrel_iff_of_render {corpus : Corpus} (hp : corpus.IsParsed) (h : corpus.catalog = .ok c)
    (hr : r.IsFresh .typescript) : ∃ files r', Target.render o c .typescript r = (.ok files, r') ∧
      ((Target.typescript.barrel files).Nodup ↔ (operationTitles c).Nodup ∧
        ∀ n ∈ operationTypes c, c.entity? n = none ∧ c.enum? n = none) := by
  have hc := Corpus.isSound_of_catalog hp h
  obtain ⟨files, r', hrender⟩ := Target.exists_render_of_check (o := o) (t := .typescript) hc hr rfl
  obtain ⟨decls, hprinted⟩ := printed_of_render hc (by decide) hr hrender
  exact ⟨files, r', hrender, hprinted.nodup_barrel_iff hc (Corpus.isNamed_of_catalog hp h)⟩

theorem nodup_barrel_iff_of_render_stall : stall.IsParsed ∧ stall.catalog = .ok stallCatalog ∧
    Registry.IsFresh .typescript .empty ∧ ∀ o : Options, ∃ files r',
      Target.render o stallCatalog .typescript .empty = (.ok files, r') ∧
        (Target.typescript.barrel files).Nodup := by
  refine ⟨stall_isParsed, catalog_stall, Registry.isFresh_empty _, fun o => ?_⟩
  obtain ⟨files, r', hrender, hiff⟩ :=
    nodup_barrel_iff_of_render (o := o) stall_isParsed catalog_stall (Registry.isFresh_empty _)
  have hcalls : ∀ op ∈ stallCatalog.tables.flatMap (kept stallCatalog),
      op ∈ stallCatalog.tables.flatMap candidates := by
    intro op hop
    obtain ⟨table, ht, hop⟩ := List.mem_flatMap.mp hop
    exact List.mem_flatMap.mpr ⟨table, ht, (mem_kept_iff.mp hop).1⟩
  have htitles : ∀ a ∈ stallCatalog.tables.flatMap candidates, ∀ b ∈ stallCatalog.tables.flatMap candidates,
      Naming.toPascal a.name = Naming.toPascal b.name → a.name = b.name := by decide +kernel
  have htypes : ∀ op ∈ stallCatalog.tables.flatMap candidates, ∀ n ∈ op.clientTypes,
      stallCatalog.entity? n = none ∧ stallCatalog.enum? n = none := by decide +kernel
  have hnames := nodup_names_kept (Corpus.isSound_of_catalog stall_isParsed catalog_stall)
  refine ⟨files, r', hrender, hiff.mpr ⟨?_, fun n hn => ?_⟩⟩
  · refine List.pairwise_map.mpr ((List.pairwise_map.mp hnames).imp_of_mem fun ha hb hne heq => hne ?_)
    exact htitles _ (hcalls _ ha) _ (hcalls _ hb) heq
  · unfold operationTypes at hn
    rw [← List.flatMap_assoc] at hn
    obtain ⟨op, hop, hn⟩ := List.mem_flatMap.mp hn
    exact htypes op (hcalls op hop) n hn

/-- The source of an enum that is called like the variables of an operation of the table `Order`. -/
def purgeEnums : List String := ["DeleteOrderVariables: [HARD]"]

/-- The documents that this source and that of the table are parsed to. -/
def purge : Corpus := ⟨ApiSchema.rooted.documents, [⟨⟨"enums.yml"⟩, "DeleteOrderVariables", ["HARD"]⟩]⟩

theorem purge_isParsed : purge.IsParsed := by
  have henums : EnumDoc.parseAll ⟨"enums.yml"⟩ (Text.unlines purgeEnums) = .ok purge.enums := by
    decide +kernel
  exact ⟨ApiSchema.rooted_isParsed.documents, .inr ⟨_, _, henums⟩⟩

/-- The catalog of these documents. -/
def purgeCatalog : Catalog := purge.catalog.toOption.getD .empty

theorem catalog_purge : purge.catalog = .ok purgeCatalog := by decide +kernel

/-- The name of the enum is exported both by its own file and by that of the table's operations. -/
theorem exists_ambiguous_export : purge.IsParsed ∧ purge.catalog = .ok purgeCatalog ∧
    ∀ o : Options, ∃ files r', Target.render o purgeCatalog .typescript .empty = (.ok files, r') ∧
      ¬ (Target.typescript.barrel files).Nodup := by
  refine ⟨purge_isParsed, catalog_purge, fun o => ?_⟩
  have hc := Corpus.isSound_of_catalog purge_isParsed catalog_purge
  have hfresh := Registry.isFresh_empty .typescript
  obtain ⟨files, r', hrender⟩ := Target.exists_render_of_check (o := o) (t := .typescript) hc hfresh rfl
  obtain ⟨decls, hprinted⟩ := printed_of_render hc (by decide) hfresh hrender
  have hiff := hprinted.nodup_barrel_iff hc (Corpus.isNamed_of_catalog purge_isParsed catalog_purge)
  refine ⟨files, r', hrender, fun hnodup => ?_⟩
  have htype : "DeleteOrderVariables" ∈ operationTypes purgeCatalog := by
    let order : Table := ⟨"Order", "1", none, [⟨"id", .scalar .string, false, none⟩], "id", none, []⟩
    let op : Operation := itemOperation order "delete" (Naming.deleteInput "Order")
    have horder : order ∈ purgeCatalog.tables := by decide +kernel
    have hop : op ∈ candidates order := by decide +kernel
    refine List.mem_flatMap.mpr ⟨order, horder, List.mem_flatMap.mpr ⟨op, mem_kept_of_mutation hop rfl, ?_⟩⟩
    decide +kernel
  have henum : (purgeCatalog.enum? "DeleteOrderVariables").isSome = true := by decide +kernel
  rw [((hiff.mp hnodup).2 _ htype).2] at henum
  cases henum

end SchemaGen
