import SchemaGen.Proofs.Document.Assembled
import SchemaGen.Target.Generate

/-!
# Documents in any order

Documents are taken one after another: an enum has the values that are declared for it first, and a later
declaration is compared with them; a document is compared with those before it. No order matters, since
each of these passes succeeds exactly if no two declarations disagree, and leaves behind just what was
declared.

Results:
1. `foldlM_addUse_eq_ok_iff`, `enumValues_eq_ok_iff`: the enums that attributes declare.
2. `assemble_perm`: the catalog of documents that have different names.
3. `catalog_eq_ok_iff_of_perm`: when documents make a catalog, and which.
4. `render_eq_of_perm`: what the targets make of documents in any order.
-/

namespace SchemaGen

namespace Corpus

variable {enums enums' : NameMap (List String)} {documents permuted : List SchemaDoc} {entries : List EnumDoc}
  {uses : List EnumUse}

/-! ## Enums -/

/-- The values are known for the enum, or an attribute that names the enum lists them. -/
def Lists (enums : NameMap (List String)) (uses : List EnumUse) (n : String) (values : List String) : Prop :=
  enums.get? n = some values ∨ ∃ u ∈ uses, u.name = n ∧ u.values = some values

/-- The enums have just the values that are known or listed. -/
def Gathers (enums : NameMap (List String)) (uses : List EnumUse) (enums' : NameMap (List String)) : Prop :=
  enums'.Ordered ∧ ∀ n values, enums'.get? n = some values ↔ Lists enums uses n values

theorem lists_cons_iff {u : EnumUse} (h : Gathers enums [u] enums') {n : String} {values : List String} :
    Lists enums' uses n values ↔ Lists enums (u :: uses) n values := by
  unfold Lists
  rw [h.2]
  simp only [Lists, List.exists_mem_cons_iff, List.not_mem_nil, false_and, exists_false, or_false, or_assoc]

/-- One attribute's values are added, unless others are known. -/
theorem addUse_spec (ho : enums.Ordered) (u : EnumUse) :
    (∃ enums', addUse enums u = .ok enums' ∧ Gathers enums [u] enums') ∨
      (∃ fault, addUse enums u = .error fault) ∧
        ∃ known values, known ≠ values ∧ Lists enums [u] u.name known ∧ Lists enums [u] u.name values := by
  have hlists : ∀ n values, Lists enums [u] n values ↔
      enums.get? n = some values ∨ u.name = n ∧ u.values = some values := by
    simp [Lists]
  unfold addUse
  cases hv : u.values with
  | none =>
    refine .inl ⟨enums, rfl, ho, fun n values => ?_⟩
    rw [hlists, hv]
    simp
  | some values =>
    cases hk : enums.get? u.name with
    | none =>
      refine .inl ⟨enums.insert u.name values, rfl, NameMap.ordered_insert ho _ _, fun n values' => ?_⟩
      rw [hlists, NameMap.get?_insert, hv]
      by_cases hn : n = u.name
      · subst hn
        simp [hk]
      · simp [hn, Ne.symm hn]
    | some known =>
      by_cases he : known = values
      · refine .inl ⟨enums, if_pos he, ho, fun n values' => ?_⟩
        rw [hlists, hv]
        constructor
        · exact .inl
        · rintro (h | ⟨rfl, h⟩)
          · exact h
          · rw [hk, he, h]
      · exact .inr ⟨⟨_, if_neg he⟩, known, values, he, (hlists _ _).mpr (.inl hk),
          (hlists _ _).mpr (.inr ⟨rfl, hv⟩)⟩

/-- The values that attributes list are gathered exactly if no two lists for one enum differ: then there
is a map that has them all. -/
theorem foldlM_addUse_eq_ok_iff (ho : enums.Ordered) :
    uses.foldlM addUse enums = .ok enums' ↔ Gathers enums uses enums' := by
  induction uses generalizing enums with
  | nil =>
    have hlists : ∀ n values, Lists enums [] n values ↔ enums.get? n = some values := by simp [Lists]
    constructor
    · intro h
      cases h
      exact ⟨ho, fun n values => (hlists n values).symm⟩
    · rintro ⟨ho', hg⟩
      exact congrArg Except.ok (ho.ext ho' fun n values => (hlists n values).symm.trans (hg n values).symm)
  | cons u rest ih =>
    rw [List.foldlM_cons]
    rcases addUse_spec ho u with ⟨enums₁, hadd, hone⟩ | ⟨⟨fault, hadd⟩, known, values, hne, hknown, hvalues⟩
    · rw [hadd]
      show rest.foldlM addUse enums₁ = _ ↔ _
      rw [ih hone.1]
      unfold Gathers
      simp only [lists_cons_iff hone]
    · -- a map has one list of values for the enum, but two are called for
      rw [hadd]
      constructor
      · intro h
        cases h
      · rintro ⟨-, hg⟩
        have hmore : ∀ {values}, Lists enums [u] u.name values → enums'.get? u.name = some values := by
          intro values h
          refine (hg _ _).mpr (h.imp_right fun ⟨v, hv, hn⟩ => ⟨v, ?_, hn⟩)
          exact List.mem_singleton.mp hv ▸ List.mem_cons_self
        exact absurd (Option.some.inj ((hmore hknown).symm.trans (hmore hvalues))) hne

/-- The enums of a corpus, if every enum that is named has values. -/
theorem enumValues_eq_ok_iff {c : Corpus} : c.enumValues = .ok enums ↔
    Gathers (NameMap.ofList (c.enums.map fun e => (e.name, e.values))) (c.documents.flatMap enumUses) enums ∧
      ∀ u ∈ c.documents.flatMap enumUses, checkUse enums u = .ok () := by
  unfold enumValues
  rw [← foldlM_addUse_eq_ok_iff (NameMap.ordered_ofList _), ← forM_eq_ok]
  constructor
  · intro h
    obtain ⟨all, hall, h⟩ := bind_eq_ok.mp h
    obtain ⟨_, hcheck, h⟩ := bind_eq_ok.mp h
    cases h
    exact ⟨hall, hcheck⟩
  · rintro ⟨hall, hcheck⟩
    exact bind_eq_ok.mpr ⟨enums, hall, bind_eq_ok.mpr ⟨(), hcheck, rfl⟩⟩

theorem enumValues_of_perm (h : permuted.Perm documents) (hv : enumValues ⟨documents, entries⟩ = .ok enums) :
    enumValues ⟨permuted, entries⟩ = .ok enums := by
  have huses : ∀ u, u ∈ permuted.flatMap enumUses ↔ u ∈ documents.flatMap enumUses := fun u =>
    (h.flatMap_right enumUses).mem_iff
  rw [enumValues_eq_ok_iff] at hv ⊢
  unfold Gathers Lists at hv ⊢
  simpa only [huses] using hv

/-! ## Entities -/

/-- Documents of different names make one catalog in every order. -/
theorem assemble_perm (h : permuted.Perm documents) (hu : (documents.map SchemaDoc.name).Nodup)
    (enums : NameMap (List String)) : assemble enums permuted = assemble enums documents := by
  have hu' : (permuted.map SchemaDoc.name).Nodup := (h.map _).nodup_iff.mpr hu
  have hordered : ∀ documents, (assemble enums documents).entities.Ordered := fun documents => by
    rw [entities_assemble]
    exact NameMap.ordered_foldl_insert _ _ _ NameMap.ordered_empty
  have hentities : (assemble enums permuted).entities = (assemble enums documents).entities := by
    refine (hordered permuted).ext (hordered documents) fun n e => ?_
    have hget := entity?_assemble enums hu n e
    have hget' := entity?_assemble enums hu' n e
    simp only [h.mem_iff] at hget'
    exact hget'.trans hget.symm
  have henums : (assemble enums permuted).enums = (assemble enums documents).enums := by
    rw [enums_assemble, enums_assemble]
  calc assemble enums permuted
      = ⟨(assemble enums permuted).entities, (assemble enums permuted).enums⟩ := rfl
    _ = ⟨(assemble enums documents).entities, (assemble enums documents).enums⟩ := by
      rw [hentities, henums]

/-! ## Owners -/

/-- The documents are only asked for the place of a fault. -/
theorem addOwner_of_eq_ok {owner name : String} {owned owned' : NameMap String}
    (h : addOwner documents owner owned name = .ok owned') (permuted : List SchemaDoc) :
    addOwner permuted owner owned name = .ok owned' := by
  unfold addOwner at h ⊢
  split at h
  · next o ho =>
    split at h
    · next he => exact (if_pos he).trans h
    · cases h
  · exact h

theorem owners_of_eq_ok {c : Catalog} {owned : NameMap String} (h : owners documents c = .ok owned)
    (permuted : List SchemaDoc) : owners permuted c = .ok owned :=
  foldlM_eq_ok_of_agree (fun _ _ _ he =>
    foldlM_eq_ok_of_agree (fun _ _ _ hn => addOwner_of_eq_ok hn permuted) he) h

theorem enumNotGenerated_of_eq_ok {owned : NameMap String} {e : EnumType}
    (h : enumNotGenerated documents owned e = .ok ()) (permuted : List SchemaDoc) :
    enumNotGenerated permuted owned e = .ok () := by
  unfold enumNotGenerated
  rw [enumNotGenerated_eq_ok h]

/-! ## Catalogs -/

/-- Documents that have gone through all checks make the catalog. -/
theorem Assembled.catalog_eq_ok {corpus : Corpus} {c : Catalog} {owned : NameMap String}
    (h : Assembled corpus c enums owned) : corpus.catalog = .ok c := by
  have hchecked : checkGeneratedNames corpus.documents c = .ok () := by
    unfold checkGeneratedNames
    exact bind_eq_ok.mpr ⟨owned, h.owners,
      bind_eq_ok.mpr ⟨(), forM_eq_ok.mpr h.documents, forM_eq_ok.mpr h.enums⟩⟩
  unfold Corpus.catalog
  refine bind_eq_ok.mpr ⟨(), (distinctNames_eq_ok_iff _).mpr h.distinct, bind_eq_ok.mpr ⟨enums, h.values, ?_⟩⟩
  refine bind_eq_ok.mpr ⟨(), forM_eq_ok.mpr h.apart, bind_eq_ok.mpr ⟨(), ?_, ?_⟩⟩
  · rw [← h.catalog]
    exact hchecked
  · rw [← h.catalog]
    rfl

theorem Assembled.perm {c : Catalog} {owned : NameMap String} (h : permuted.Perm documents)
    (ha : Assembled ⟨documents, entries⟩ c enums owned) : Assembled ⟨permuted, entries⟩ c enums owned where
  catalog := ha.catalog.trans (assemble_perm h ha.distinct enums).symm
  distinct := (h.map _).nodup_iff.mpr ha.distinct
  values := enumValues_of_perm h ha.values
  apart d hd := ha.apart d (h.mem_iff.mp hd)
  owners := owners_of_eq_ok ha.owners permuted
  documents d hd := ha.documents d (h.mem_iff.mp hd)
  enums e he := enumNotGenerated_of_eq_ok (ha.enums e he) permuted

theorem catalog_of_perm {c : Catalog} (h : permuted.Perm documents)
    (hc : catalog ⟨documents, entries⟩ = .ok c) : catalog ⟨permuted, entries⟩ = .ok c := by
  obtain ⟨enums, owned, ha⟩ := assembled_of_catalog hc
  exact (ha.perm h).catalog_eq_ok

theorem catalog_eq_ok_iff_of_perm {c : Catalog} (h : permuted.Perm documents) :
    catalog ⟨permuted, entries⟩ = .ok c ↔ catalog ⟨documents, entries⟩ = .ok c :=
  ⟨catalog_of_perm h.symm, catalog_of_perm h⟩

end Corpus

/-- Documents in any order make a catalog or none, and if they do it is the same one, of which every
target makes the same files, or finds the same fault. -/
theorem render_eq_of_perm {documents permuted : List SchemaDoc} (h : permuted.Perm documents)
    (entries : List EnumDoc) :
    ((∃ c, Corpus.catalog ⟨permuted, entries⟩ = .ok c) ↔ ∃ c, Corpus.catalog ⟨documents, entries⟩ = .ok c) ∧
      ∀ c c', Corpus.catalog ⟨permuted, entries⟩ = .ok c → Corpus.catalog ⟨documents, entries⟩ = .ok c' →
        c = c' ∧ ∀ (o : Options) (t : Target) (r : Registry), t.render o c r = t.render o c' r := by
  refine ⟨exists_congr fun c => Corpus.catalog_eq_ok_iff_of_perm h, fun c c' hc hc' => ?_⟩
  obtain rfl : c = c' := Except.ok.inj ((Corpus.catalog_of_perm h.symm hc).symm.trans hc')
  exact ⟨rfl, fun _ _ _ => rfl⟩

/-- Three documents that name one enum: two of them list its values, and one does not; one of them also
refers to an enum of the enum catalog, and one to another document. -/
def returns : List SchemaDoc :=
  [⟨⟨"Orders.yml"⟩, "Orders", none, .table ⟨"1", "orderId", none, none,
      [⟨"orderId", .scalar .string, true, none, none⟩,
        ⟨"status", .enum "Status" [], false, none, some ["OPEN", "CLOSED"]⟩,
        ⟨"color", .reference "Color", false, none, none⟩]⟩⟩,
    ⟨⟨"Returns.yml"⟩, "Returns", none, .object .api
      [⟨"order", .reference "Orders", true, none, none⟩, ⟨"status", .enum "Status" [], false, none, none⟩]⟩,
    ⟨⟨"Refund.yml"⟩, "Refund", none, .object .static
      [⟨"status", .enum "Status" [], false, none, some ["OPEN", "CLOSED"]⟩]⟩]

/-- The enum catalog of these documents. -/
def returnColors : List EnumDoc := [⟨⟨"enums.yml"⟩, "Color", ["RED"]⟩]

theorem render_eq_of_perm_returns : returns.reverse.Perm returns ∧ ∃ c c',
    Corpus.catalog ⟨returns.reverse, returnColors⟩ = .ok c ∧ Corpus.catalog ⟨returns, returnColors⟩ = .ok c' ∧
      c.enumList = [⟨"Color", ["RED"]⟩, ⟨"Status", ["OPEN", "CLOSED"]⟩] ∧
        c = c' ∧ ∀ (o : Options) (t : Target) (r : Registry), t.render o c r = t.render o c' r := by
  have hperm := returns.reverse_perm
  have hc' : ∃ c', Corpus.catalog ⟨returns, returnColors⟩ = .ok c' ∧
      c'.enumList = [⟨"Color", ["RED"]⟩, ⟨"Status", ["OPEN", "CLOSED"]⟩] :=
    ⟨(Corpus.catalog ⟨returns, returnColors⟩).toOption.getD .empty, by decide +kernel, by decide +kernel⟩
  obtain ⟨c', hc', henums⟩ := hc'
  obtain ⟨hiff, hsame⟩ := render_eq_of_perm hperm returnColors
  obtain ⟨c, hc⟩ := hiff.mpr ⟨c', hc'⟩
  obtain ⟨rfl, hrender⟩ := hsame c c' hc hc'
  exact ⟨hperm, c, c, hc, hc', henums, rfl, hrender⟩

end SchemaGen
