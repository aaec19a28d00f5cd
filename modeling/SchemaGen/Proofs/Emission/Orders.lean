import SchemaGen.Proofs.Emission.Requests

/-!
# Orders of requests

Requests for fragments leave the same operations marked in every order. The types may differ: a walk skips
an object type that a request has marked by itself, so that what only this type embeds is left out, while a
walk that comes before that request enters it. Most types are marked if all walks come first, and the fewest
if they come last. So every order leaves the same types marked exactly if each object type that a walk
reaches is also reached without passing a type that is marked by itself, or is asked for with its input.

Results:
1. `hasType_of_assured`, `asked_or_reached`: what every order marks, and what it may mark.
2. `exists_perm_most`, `exists_perm_least`: the orders that mark the most and the fewest types.
3. `orders_agree_iff`: when all orders leave the same marks.
-/

namespace SchemaGen.Emission

open Relation

variable {c : Catalog} {t : Target} {requests permuted : List Request} {o : ObjectType} {n : String}

/-- A request asks for the name by itself. -/
def Asked (requests : List Request) (n : String) : Prop := ∃ q ∈ requests, n ∈ q.names

/-- A request marks the type of an entity and enters nothing that the entity embeds. -/
def Bare (requests : List Request) (e : Entity) : Prop := ∃ q ∈ requests, q.Bares e

/-- A walk reaches the object type if nothing is marked before. -/
def Reached (c : Catalog) (requests : List Request) (o : ObjectType) : Prop :=
  ∃ q ∈ requests, q.Walks ∧ TransGen (Embeds c) q.entity (.object o)

/-- A walk reaches the object type without passing one that may be marked by itself. -/
def Assured (c : Catalog) (requests : List Request) (o : ObjectType) : Prop :=
  ∃ q ∈ requests, q.Walks ∧
    TransGen (fun e f => Embeds c e f ∧ ¬ Bare requests f) q.entity (.object o)

/-- Every object type that a walk reaches is reached in any case, or asked for with its input. -/
def Covered (c : Catalog) (requests : List Request) : Prop :=
  ∀ o, Reached c requests o → Assured c requests o ∨ ∀ n ∈ enteredNames o, Asked requests n

/-! ## Paths -/

theorem Embeds.refers {e f : Entity} (h : Embeds c e f) (hc : c.IsSound) : c.Refers e f :=
  ((Catalog.mem_dependencies_iff hc).mp h.1).1

/-- What a path of embedded types leads to is an object type of the catalog. -/
theorem entity?_of_transGen {R : Entity → Entity → Prop} (hR : ∀ e f, R e f → Embeds c e f) {e : Entity}
    (hc : c.IsSound) (h : TransGen R e (.object o)) : c.entity? o.name = some (.object o) := by
  obtain ⟨f, -, hstep⟩ := TransGen.tail'_iff.mp h
  exact ((hR f _ hstep).refers hc).entity? hc

/-- Entered object types with a name in common are one. -/
theorem eq_of_mem_enteredNames (hc : c.IsSound) {o' : ObjectType} (ho : c.entity? o.name = some (.object o))
    (ho' : c.entity? o'.name = some (.object o')) (hn : n ∈ enteredNames o) (hn' : n ∈ enteredNames o') :
    o = o' := by
  have hname : ∀ {o : ObjectType}, n ∈ enteredNames o →
      n = (Entity.object o).name ∨ n ∈ Corpus.generatedNames (.object o) := fun h => List.mem_cons.mp h
  exact Entity.object.inj (hc.eq_of_typeName ho ho' (hname hn) (hname hn'))

/-! ## What every order marks -/

section

variable (hc : c.IsSound) (he : ∀ q ∈ requests, q.entity ∈ c.entityList)

include hc he

/-- An assured object type is marked, and so are its input and all that it references. The induction is
along the path to it; what is marked on it is not marked by itself, so that it is done. -/
theorem done_of_assured (h : Assured c requests o) :
    (serveAll c t requests .empty).hasType t o.name = true ∧ Done c t (serveAll c t requests .empty) o := by
  have hrun := serves_all (t := t) hc requests he .empty
  obtain ⟨q, hq, hw, hpath⟩ := h
  have hdone : ∀ o : ObjectType, c.entity? o.name = some (.object o) → ¬ Bare requests (.object o) →
      (serveAll c t requests .empty).hasType t o.name = true → Done c t (serveAll c t requests .empty) o := by
    intro o ho hbare hm
    rcases hrun.settled o ho hm with hn | hd | hb
    · cases hn
    · exact hd
    · exact absurd hb hbare
  generalize hf : Entity.object o = f at hpath
  induction hpath generalizing o with
  | single hstep =>
    subst hf
    have hm := hrun.embeds q hq hw o hstep.1
    exact ⟨hm, hdone o ((hstep.1.refers hc).entity? hc) hstep.2 hm⟩
  | @tail g f hpath hstep ih =>
    subst hf
    obtain ⟨o', rfl⟩ : ∃ o', g = .object o' := by
      obtain ⟨e, -, hlast⟩ := TransGen.tail'_iff.mp hpath
      cases g with
      | table table => cases hlast.1.2
      | object o' => exact ⟨o', rfl⟩
    have hm := (ih rfl).2.references o (hstep.1.refers hc)
    exact ⟨hm, hdone o ((hstep.1.refers hc).entity? hc) hstep.2 hm⟩

theorem hasType_of_assured (h : Assured c requests o) (hn : n ∈ enteredNames o) :
    (serveAll c t requests .empty).hasType t n = true := by
  obtain ⟨hm, hd⟩ := done_of_assured (t := t) hc he h
  rcases List.mem_cons.mp hn with rfl | hn
  · exact hm
  · rw [List.mem_singleton.mp hn]
    exact hd.variant

theorem hasType_of_asked (h : Asked requests n) : (serveAll c t requests .empty).hasType t n = true := by
  obtain ⟨q, hq, hn⟩ := h
  exact (serves_all hc requests he .empty).names q hq n hn

/-- What is marked was asked for or reached. -/
theorem asked_or_reached (h : (serveAll c t requests .empty).hasType t n = true) :
    Asked requests n ∨ ∃ o, Reached c requests o ∧ n ∈ enteredNames o := by
  rcases (serves_all hc requests he .empty).source n h with hn | hn | ⟨q, hq, hw, o, hpath, hn⟩
  · cases hn
  · exact .inl hn
  · exact .inr ⟨o, ⟨q, hq, hw, TransGen.mono (fun _ _ h => h.1) _ _ hpath⟩, hn⟩

/-! ## The most and the fewest marks -/

/-- Where all walks come first, they mark all that they reach: no type was marked by itself. -/
theorem exists_perm_most (t : Target) : ∃ permuted, permuted.Perm requests ∧
    ∀ o, Reached c requests o → ∀ n ∈ enteredNames o, (serveAll c t permuted .empty).hasType t n = true := by
  refine ⟨_, List.filter_append_perm (fun q => decide q.Walks) requests, fun o hreached n hn => ?_⟩
  obtain ⟨q, hq, hw, hpath⟩ := hreached
  rw [serveAll_append]
  refine (serves_all hc _ (fun p hp => he p (List.mem_filter.mp hp).1) _).mark n ?_
  have hbare : ∀ f, ¬ Bare (requests.filter fun q => decide q.Walks) f := by
    rintro f ⟨p, hp, -, -, hnot⟩
    exact hnot (of_decide_eq_true (List.mem_filter.mp hp).2)
  refine hasType_of_assured hc (fun p hp => he p (List.mem_filter.mp hp).1) ?_ hn
  exact ⟨q, List.mem_filter.mpr ⟨hq, decide_eq_true hw⟩, hw,
    TransGen.mono (fun _ f h => ⟨h, hbare f⟩) _ _ hpath⟩

/-- Where all walks come last, they pass no type that is marked by itself. -/
theorem exists_perm_least (t : Target) : ∃ permuted, permuted.Perm requests ∧
    ∀ n, (serveAll c t permuted .empty).hasType t n = true →
      Asked requests n ∨ ∃ o, Assured c requests o ∧ n ∈ enteredNames o := by
  refine ⟨_, List.perm_append_comm.trans (List.filter_append_perm (fun q => decide q.Walks) requests),
    fun n hn => ?_⟩
  rw [serveAll_append] at hn
  have hfirst := serves_all (t := t) hc (requests.filter fun q => !decide q.Walks)
    (fun p hp => he p (List.mem_filter.mp hp).1) .empty
  have hlast := serves_all (t := t) hc (requests.filter fun q => decide q.Walks)
    (fun p hp => he p (List.mem_filter.mp hp).1)
    (serveAll c t (requests.filter fun q => !decide q.Walks) .empty)
  rcases hlast.source n hn with hn | ⟨q, hq, hn⟩ | ⟨q, hq, hw, o, hpath, hn⟩
  · rcases hfirst.source n hn with hn | ⟨q, hq, hn⟩ | ⟨q, hq, hw, -⟩
    · cases hn
    · exact .inl ⟨q, (List.mem_filter.mp hq).1, hn⟩
    · have hnot := (List.mem_filter.mp hq).2
      rw [decide_eq_true hw] at hnot
      cases hnot
  · exact .inl ⟨q, (List.mem_filter.mp hq).1, hn⟩
  · refine .inr ⟨o, ⟨q, (List.mem_filter.mp hq).1, hw, ?_⟩, hn⟩
    refine TransGen.mono (fun e f h => ⟨h.1, ?_⟩) _ _ hpath
    -- what is marked by itself was marked first
    rintro ⟨p, hp, rfl, hm, hnot⟩
    have hmem : p ∈ requests.filter fun q => !decide q.Walks :=
      List.mem_filter.mpr ⟨hp, by rw [decide_eq_false hnot]; rfl⟩
    have hmarked := hfirst.names p hmem p.entity.name
      (List.mem_flatMap.mpr ⟨.entityModel, hm, List.mem_singleton.mpr rfl⟩)
    rw [h.2] at hmarked
    cases hmarked

end

/-! ## All orders -/

theorem asked_perm (h : permuted.Perm requests) : Asked permuted n ↔ Asked requests n := by
  unfold Asked
  simp only [h.mem_iff]

theorem reached_perm (h : permuted.Perm requests) : Reached c permuted o ↔ Reached c requests o := by
  unfold Reached
  simp only [h.mem_iff]

theorem assured_perm (h : permuted.Perm requests) : Assured c permuted o ↔ Assured c requests o := by
  unfold Assured Bare
  simp only [h.mem_iff]

/-- If all that may be reached is covered, then what is marked is what every order marks. -/
theorem hasType_iff_of_covered (hc : c.IsSound) (he : ∀ q ∈ requests, q.entity ∈ c.entityList)
    (hcovered : Covered c requests) (hp : permuted.Perm requests) :
    (serveAll c t permuted .empty).hasType t n = true ↔
      Asked requests n ∨ ∃ o, Assured c requests o ∧ n ∈ enteredNames o := by
  have he' : ∀ q ∈ permuted, q.entity ∈ c.entityList := fun q hq => he q (hp.mem_iff.mp hq)
  constructor
  · intro hn
    rcases asked_or_reached hc he' hn with hn | ⟨o, ho, hn⟩
    · exact .inl ((asked_perm hp).mp hn)
    · rcases hcovered o ((reached_perm hp).mp ho) with ho | hall
      · exact .inr ⟨o, ho, hn⟩
      · exact .inl (hall n hn)
  · rintro (hn | ⟨o, ho, hn⟩)
    · exact hasType_of_asked hc he' ((asked_perm hp).mpr hn)
    · exact hasType_of_assured hc he' ((assured_perm hp).mpr ho) hn

/-- If all orders mark the same types, then all that may be reached is covered. -/
theorem covered_of_forall_perm (hc : c.IsSound) (he : ∀ q ∈ requests, q.entity ∈ c.entityList)
    (h : ∀ permuted, permuted.Perm requests → ∀ n, (serveAll c t permuted .empty).hasType t n =
      (serveAll c t requests .empty).hasType t n) : Covered c requests := by
  intro o hreached
  obtain ⟨most, hmost, hmarked⟩ := exists_perm_most hc he t
  obtain ⟨least, hleast, hbound⟩ := exists_perm_least hc he t
  have hall : ∀ n ∈ enteredNames o, Asked requests n ∨ ∃ o', Assured c requests o' ∧ n ∈ enteredNames o' := by
    intro n hn
    refine hbound n ?_
    rw [h least hleast, ← h most hmost]
    exact hmarked o hreached n hn
  by_cases hassured : Assured c requests o
  · exact .inl hassured
  · refine .inr fun n hn => (hall n hn).resolve_right ?_
    rintro ⟨o', ho', hn'⟩
    -- the names tell which object type was entered
    obtain ⟨q, -, -, hpath⟩ := hreached
    obtain ⟨q', -, -, hpath'⟩ := id ho'
    have heq := eq_of_mem_enteredNames hc (entity?_of_transGen (fun _ _ h => h) hc hpath)
      (entity?_of_transGen (fun _ _ h => h.1) hc hpath') hn hn'
    exact hassured (heq ▸ ho')

/-- All orders of requests leave the same operations marked. They leave the same types marked exactly if
each object type that a walk reaches is reached in any case, or asked for with its input. -/
theorem orders_agree_iff {p : Corpus} (hp : p.IsParsed) (h : p.catalog = .ok c) (t : Target)
    (requests : List Request) (he : ∀ q ∈ requests, q.entity ∈ c.entityList) :
    (∀ permuted, permuted.Perm requests → ∀ n, (serveAll c t permuted .empty).hasOperation t n =
      (serveAll c t requests .empty).hasOperation t n) ∧
    ((∀ permuted, permuted.Perm requests → ∀ n, (serveAll c t permuted .empty).hasType t n =
      (serveAll c t requests .empty).hasType t n) ↔ Covered c requests) := by
  have hc := Corpus.isSound_of_catalog hp h
  refine ⟨fun permuted hperm n => ?_, covered_of_forall_perm hc he, fun hcovered permuted hperm n => ?_⟩
  · have he' : ∀ q ∈ permuted, q.entity ∈ c.entityList := fun q hq => he q (hperm.mem_iff.mp hq)
    rw [Bool.eq_iff_iff, (serves_all hc permuted he' .empty).operations,
      (serves_all hc requests he .empty).operations]
    simp only [hperm.mem_iff]
  · rw [Bool.eq_iff_iff, hasType_iff_of_covered hc he hcovered hperm,
      hasType_iff_of_covered hc he hcovered (.refl _)]

/-- The sources of three object types, each of which embeds the next. -/
def chainSources : List (Path × List String) :=
  [(⟨"A.yml"⟩, ["name: A", "kind: static", "attributes: [{name: b, type: B}]"]),
    (⟨"B.yml"⟩, ["name: B", "kind: static", "attributes: [{name: c, type: C}]"]),
    (⟨"C.yml"⟩, ["name: C", "kind: static", "attributes: [{name: text, type: string}]"])]

/-- The documents that these sources are parsed to. -/
def chain : Corpus :=
  ⟨[⟨⟨"A.yml"⟩, "A", none, .object .static [⟨"b", .reference "B", false, none, none⟩]⟩,
    ⟨⟨"B.yml"⟩, "B", none, .object .static [⟨"c", .reference "C", false, none, none⟩]⟩,
    ⟨⟨"C.yml"⟩, "C", none, .object .static [⟨"text", .scalar .string, false, none, none⟩]⟩], []⟩

theorem chain_isParsed : chain.IsParsed :=
  Corpus.isParsed_of_mapM (s := chainSources) (by decide +kernel) (.inl rfl)

/-- The catalog of these documents. -/
def chainCatalog : Catalog := chain.catalog.toOption.getD .empty

theorem catalog_chain : chain.catalog = .ok chainCatalog := by decide +kernel

/-- The first object type of the chain. -/
def firstLink : ObjectType := ⟨"A", none, [⟨"b", .reference "B", false, none⟩], .static⟩

/-- The second object type of the chain. -/
def secondLink : ObjectType := ⟨"B", none, [⟨"c", .reference "C", false, none⟩], .static⟩

/-- The third object type of the chain. -/
def thirdLink : ObjectType := ⟨"C", none, [⟨"text", .scalar .string, false, none⟩], .static⟩

/-- Requests for what two object types embed, and for the type and the input of the second one. -/
def chainRequests : List Request :=
  [⟨.embeddedTypes, .object firstLink⟩, ⟨.entityModel, .object secondLink⟩,
    ⟨.inputVariant, .object secondLink⟩, ⟨.embeddedTypes, .object secondLink⟩]

/-- It does not matter whether the second object type is marked when the first one is walked. -/
theorem orders_agree_chain : chain.IsParsed ∧ chain.catalog = .ok chainCatalog ∧
    (∀ q ∈ chainRequests, q.entity ∈ chainCatalog.entityList) ∧
      ∀ t permuted, permuted.Perm chainRequests → ∀ n,
        (serveAll chainCatalog t permuted .empty).hasType t n =
          (serveAll chainCatalog t chainRequests .empty).hasType t n := by
  have he : ∀ q ∈ chainRequests, q.entity ∈ chainCatalog.entityList := by decide +kernel
  refine ⟨chain_isParsed, catalog_chain, he, fun t => ?_⟩
  refine (orders_agree_iff chain_isParsed catalog_chain t chainRequests he).2.mpr fun o hreached => ?_
  have hreach : ∀ e ∈ [Entity.object firstLink, .object secondLink], ∀ f, TransGen (Embeds chainCatalog) e f →
      f = .object secondLink ∨ f = .object thirdLink := by
    have hfirst : chainCatalog.dependencies (.object firstLink) = [.object secondLink] := by decide +kernel
    have hsecond : chainCatalog.dependencies (.object secondLink) = [.object thirdLink] := by decide +kernel
    have hthird : chainCatalog.dependencies (.object thirdLink) = [] := by decide +kernel
    intro e hmem f hpath
    induction hpath with
    | single hstep =>
      have hdep := hstep.1
      simp only [List.mem_cons, List.not_mem_nil, or_false] at hmem
      rcases hmem with rfl | rfl
      · rw [hfirst, List.mem_singleton] at hdep
        exact .inl hdep
      · rw [hsecond, List.mem_singleton] at hdep
        exact .inr hdep
    | tail _ hstep ih =>
      have hdep := hstep.1
      rcases ih with rfl | rfl
      · rw [hsecond, List.mem_singleton] at hdep
        exact .inr hdep
      · rw [hthird] at hdep
        cases hdep
  obtain ⟨q, hq, -, hpath⟩ := hreached
  have hentities : ∀ q ∈ chainRequests, q.entity ∈ [Entity.object firstLink, .object secondLink] := by decide
  rcases hreach q.entity (hentities q hq) _ hpath with heq | heq
  · cases heq
    right
    unfold Asked
    decide +kernel
  · cases heq
    have hbare : ∀ q ∈ chainRequests, q.entity ≠ .object thirdLink := by decide
    refine .inl ⟨⟨.embeddedTypes, .object secondLink⟩, by decide, by decide, .single ⟨?_, ?_⟩⟩
    · exact ⟨by decide +kernel, rfl⟩
    · rintro ⟨q, hq, heq, -⟩
      exact hbare q hq heq

/-- Requests for the type of the second object type, and for what the first one embeds. -/
def hidingRequests : List Request :=
  [⟨.entityModel, .object secondLink⟩, ⟨.embeddedTypes, .object firstLink⟩]

/-- A type that is marked by itself before a walk hides what it embeds from the walk. -/
theorem exists_orders_differ : chain.IsParsed ∧ chain.catalog = .ok chainCatalog ∧
    (∀ q ∈ hidingRequests, q.entity ∈ chainCatalog.entityList) ∧
      ∀ t, (serveAll chainCatalog t hidingRequests .empty).typesOf t = ["B"] ∧
        (serveAll chainCatalog t hidingRequests.reverse .empty).typesOf t = ["B", "BInput", "C", "CInput"] := by
  refine ⟨chain_isParsed, catalog_chain, by decide +kernel, fun t => ?_⟩
  cases t <;> decide +kernel

end SchemaGen.Emission
