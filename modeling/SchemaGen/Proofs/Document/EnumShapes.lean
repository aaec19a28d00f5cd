import SchemaGen.Proofs.Document.Conflicts
import SchemaGen.Proofs.Emission.Names

/-!
# One shape for each enum

Values of an enum are listed in the enum catalog or by attributes, in any of the documents, and an attribute
names an enum by its enum type or by a reference. In the catalog all of these have become one: the enum with
its values, in the order in which every list has them, and attributes of just this shape.

Results:
1. `resolves_toAttribute`: what an attribute of a document becomes.
2. `oneShape_of_catalog`: the enums of a catalog, and the attributes that name them.
-/

namespace SchemaGen

variable {corpus : Corpus} {c : Catalog} {enums : NameMap (List String)} {owned : NameMap String}

/-- The attribute names the enum, by its enum type or by a reference to it. -/
def AttributeDoc.NamesEnum (c : Catalog) (a : AttributeDoc) (n : String) : Prop :=
  a.shape.enumName? = some n ∨ a.shape = .reference n ∧ ∃ e, c.enum? n = some e

/-- What an attribute of a document becomes in a catalog: of the shape of the enum if it names one, and
otherwise of its own. -/
structure AttributeDoc.Resolves (c : Catalog) (a : AttributeDoc) (b : Attribute) : Prop where
  name : b.name = a.name
  named : ∀ n, a.NamesEnum c n → ∃ e, c.enum? n = some e ∧ b.shape = .enum n e.values
  other : (∀ n, ¬ a.NamesEnum c n) → b.shape = a.shape

/-- Each enum has one list of values, which is every list that is declared for it, and one shape, which is that
of every attribute that names it. -/
structure Corpus.OneShape (corpus : Corpus) (c : Catalog) : Prop where
  declared : ∀ n e, c.enum? n = some e → e.name = n ∧ e.values ≠ [] ∧ corpus.Declares n e.values ∧
    ∀ values, corpus.Declares n values → values = e.values
  known : ∀ n values, corpus.Declares n values → c.enum? n = some ⟨n, values⟩
  attributes : ∀ d ∈ corpus.documents, ∃ e, c.entity? d.name = some e ∧
    List.Forall₂ (AttributeDoc.Resolves c) d.body.attributes e.attributes
  described : ∀ n e, c.entity? n = some e → ∃ d ∈ corpus.documents, d.name = n
  valued : ∀ n e, c.entity? n = some e → ∀ a ∈ e.attributes, ∀ m values, a.shape = .enum m values →
    values ≠ [] ∧ c.enum? m = some ⟨m, values⟩
  resolved : ∀ n e, c.entity? n = some e → ∀ a ∈ e.attributes, ∀ m, a.shape = .reference m → c.enum? m = none

namespace Corpus

namespace Assembled

variable (h : Assembled corpus c enums owned) (hp : corpus.IsParsed)

include h hp

theorem enum?_iff_declares (n : String) (e : EnumType) :
    c.enum? n = some e ↔ e.name = n ∧ corpus.Declares n e.values := by
  rw [h.enum?_iff hp]
  constructor
  · rintro ⟨values, hv, rfl⟩
    exact ⟨rfl, (get?_enumValues hp h.values).mp hv⟩
  · rintro ⟨rfl, hdeclares⟩
    exact ⟨e.values, (get?_enumValues hp h.values).mpr hdeclares, rfl⟩

/-- An attribute that names an enum becomes one of its shape, and no other attribute changes its shape. -/
theorem resolves_toAttribute {d : SchemaDoc} (hd : d ∈ corpus.documents) {a : AttributeDoc}
    (ha : a ∈ d.body.attributes) : a.Resolves c (toAttribute enums a) := by
  have henum : ∀ n values, enums.get? n = some values ↔ c.enum? n = some ⟨n, values⟩ := by
    intro n values
    rw [h.enum?_iff_declares hp, get?_enumValues hp h.values]
    exact (and_iff_right rfl).symm
  constructor
  case name => rfl
  case named =>
    rintro n (hn | ⟨hn, e, he⟩)
    · obtain ⟨values, hv⟩ := exists_values_of_enumValues h.values hd ha hn
      refine ⟨_, (henum n values).mp hv, ?_⟩
      cases hshape : a.shape with
      | enum m listed =>
        rw [hshape] at hn
        cases hn
        show resolve enums a.shape = _
        rw [hshape, resolve, hv]
        rfl
      | _ =>
        rw [hshape] at hn
        cases hn
    · obtain ⟨values, hv, rfl⟩ := (h.enum?_iff hp e).mp he
      refine ⟨_, he, ?_⟩
      show resolve enums a.shape = _
      rw [hn]
      exact resolve_reference enums n values hv
  case other =>
    intro hnone
    show resolve enums a.shape = a.shape
    cases hshape : a.shape with
    | enum m listed => exact absurd (.inl (congrArg Shape.enumName? hshape)) (hnone m)
    | reference m =>
      have hget : enums.get? m = none := by
        cases hget : enums.get? m with
        | none => rfl
        | some values => exact absurd (.inr ⟨hshape, _, (henum m values).mp hget⟩) (hnone m)
      unfold resolve
      dsimp only
      rw [hget]
    | _ => rfl

theorem oneShape : corpus.OneShape c := by
  have hc := isSound_of_catalog hp h.catalog_eq_ok
  constructor
  case declared =>
    intro n e he
    obtain ⟨hname, hdeclares⟩ := (h.enum?_iff_declares hp n e).mp he
    refine ⟨hname, (values_of_declares hp hdeclares).1, hdeclares, fun values hvalues => ?_⟩
    exact (h.conflictFree hp).agree n values e.values hvalues hdeclares
  case known => exact fun n values hdeclares => (h.enum?_iff_declares hp n ⟨n, values⟩).mpr ⟨rfl, hdeclares⟩
  case attributes =>
    intro d hd
    refine ⟨toEntity enums d, ?_, ?_⟩
    · rw [h.catalog]
      exact (entity?_assemble enums h.distinct _ _).mpr ⟨d, hd, rfl, rfl⟩
    · rw [attributes_toEntity, List.forall₂_map_right_iff, List.forall₂_same]
      exact fun a ha => h.resolves_toAttribute hp hd ha
  case described =>
    intro n e he
    obtain ⟨d, hd, -, hname, -⟩ := h.exists_document hp he
    exact ⟨d, hd, hname⟩
  case valued =>
    intro n e he a ha m values hshape
    obtain ⟨f, hf⟩ := hc.enumerated n e he a ha m (congrArg Shape.enumName? hshape)
    obtain ⟨d, hd, -, -, heq⟩ := h.exists_document hp he
    obtain ⟨b, hb, rfl⟩ := exists_attribute heq ha
    have hresolves := h.resolves_toAttribute hp hd hb
    -- what has the shape of an enum named the enum before
    have hnames : ∃ k, b.NamesEnum c k := by
      by_contra hnone
      have hsame := hresolves.other fun k hk => hnone ⟨k, hk⟩
      rw [hshape] at hsame
      exact hnone ⟨m, .inl (congrArg Shape.enumName? hsame.symm)⟩
    obtain ⟨k, hk⟩ := hnames
    obtain ⟨g, hg, hgshape⟩ := hresolves.named k hk
    rw [hshape] at hgshape
    cases hgshape
    obtain ⟨hname, hdeclares⟩ := (h.enum?_iff_declares hp m g).mp hg
    refine ⟨(values_of_declares hp hdeclares).1, ?_⟩
    rw [hg, ← hname]
  case resolved => exact hc.resolved

end Assembled

/-- The enums of a catalog of parsed documents, and the attributes that name them, agree with every list of
values that is declared. -/
theorem oneShape_of_catalog (hp : corpus.IsParsed) (h : corpus.catalog = .ok c) : corpus.OneShape c := by
  obtain ⟨enums, owned, hassembled⟩ := assembled_of_catalog h
  exact hassembled.oneShape hp

end Corpus

end SchemaGen
