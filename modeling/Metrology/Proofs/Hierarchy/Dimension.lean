import Metrology.Proofs.Hierarchy.Declared

/-!
# Dimensions along a hierarchy

A child takes over the dimension of its parent, and an equation, whether it was declared or taken over,
has the dimension of its quantity. Nothing else is known about a world of declared quantities than how
they were declared, so both are read off the declarations.
-/

namespace Metrology

namespace NamedQuantity

variable {q r p : NamedQuantity} {e : FactorProduct}

@[simp] theorem parent?_markKind : q.markKind.parent? = q.parent? := by
  cases q <;> rfl

@[simp] theorem parent?_withCharacter (character : Character) :
    (q.withCharacter character).parent? = q.parent? := by
  cases q <;> rfl

@[simp] theorem equation?_markKind : q.markKind.equation? = q.equation? := by
  cases q <;> rfl

@[simp] theorem equation?_withCharacter (character : Character) :
    (q.withCharacter character).equation? = q.equation? := by
  cases q <;> rfl

/-- An equation of its own is accepted for a child only, and only if it has the dimension of the
parent. -/
theorem withEquation_spec {equation : QuantitySpec} (h : q.withEquation equation = .ok r) :
    ∃ p d, q.parent? = some p ∧ r.parent? = some p ∧ r.equation? = some equation.product ∧
      equation.dimension = .ok d ∧ PowerProduct.same d p.dimension = true := by
  cases q with
  | root => cases h
  | child name parent inherited dimension character isKind =>
    obtain ⟨d, hd, h⟩ := bind_eq_ok.mp h
    split at h
    · cases h
    · rename_i hsame
      obtain ⟨g, -, h⟩ := bind_eq_ok.mp h
      split at h
      · cases h
      · obtain rfl := pure_eq_ok.mp h
        exact ⟨parent, d, rfl, rfl, rfl, hd, by simpa using hsame⟩

namespace Declared

theorem parent (h : q.Declared) (hp : q.parent? = some p) :
    p.Declared ∧ q.dimension = p.dimension := by
  induction h with
  | dimensionless => cases hp
  | ofDimension => cases hp
  | ofEquation _ _ _ hq =>
    obtain ⟨d, -, hq⟩ := bind_eq_ok.mp hq
    obtain rfl := pure_eq_ok.mp hq
    cases hp
  | childOf name hparent => exact Option.some.inj hp ▸ ⟨hparent, rfl⟩
  | withEquation _ _ _ _ hr ih =>
    obtain ⟨p', d, hq, hr', -⟩ := withEquation_spec hr
    obtain rfl : p' = p := Option.some.inj (hr'.symm.trans hp)
    rw [dimension_withEquation hr]
    exact ih hq
  | markKind _ ih =>
    rw [dimension_markKind]
    exact ih (by simpa using hp)
  | withCharacter character _ ih =>
    rw [dimension_withCharacter]
    exact ih (by simpa using hp)

/-- The dimension of an equation can be computed, and it is that of the quantity. -/
theorem equation (h : q.Declared) (he : q.equation? = some e) :
    PowerProduct.Canonical e ∧ (∀ t ∈ e, ∃ r, t.factor = .quantity r) ∧
      (QuantitySpec.ofProduct e).dimension = .ok q.dimension := by
  induction h with
  | dimensionless =>
    obtain rfl := Option.some.inj he
    exact ⟨PowerProduct.canonical_one, by simp, rfl⟩
  | ofDimension => cases he
  | ofEquation hcanonical hquantities _ hq =>
    obtain ⟨d, hd, hq⟩ := bind_eq_ok.mp hq
    obtain rfl := pure_eq_ok.mp hq
    obtain rfl := Option.some.inj he
    exact ⟨hcanonical, hquantities, hd⟩
  | childOf name _ ih => exact ih he
  | @withEquation equation q r hq hcanonical hquantities _ hr =>
    obtain ⟨p, d, hp, -, hequation, hd, hsame⟩ := withEquation_spec hr
    obtain rfl := Option.some.inj (hequation.symm.trans he)
    refine ⟨hcanonical, hquantities, ?_⟩
    rw [dimension_withEquation hr, (hq.parent hp).2, ← Dimension.eq_of_same hsame]
    exact hd
  | markKind _ ih =>
    rw [dimension_markKind]
    exact ih (by simpa using he)
  | withCharacter character _ ih =>
    rw [dimension_withCharacter]
    exact ih (by simpa using he)

end Declared

end NamedQuantity

/-- Quantities that declarations make, together with all the quantities they are declared from, where a
name belongs to one quantity only. -/
structure DeclaredWorld where
  Holds : NamedQuantity → Prop
  declared {q : NamedQuantity} : Holds q → q.Declared
  dimensionless_holds : Holds .dimensionless
  parent_holds {q p : NamedQuantity} : Holds q → q.parent? = some p → Holds p
  equation_holds {q r : NamedQuantity} {e : FactorProduct} {t : Term Factor} :
    Holds q → q.equation? = some e → t ∈ e → t.factor = .quantity r → Holds r
  eq_of_name {a b : NamedQuantity} : Holds a → Holds b → a.name = b.name → a = b

namespace DeclaredWorld

/-- The declarations keep dimensions along the links to parents. -/
def toWorld (D : DeclaredWorld) : World where
  Holds := D.Holds
  dimensionless_holds := D.dimensionless_holds
  parent_holds := D.parent_holds
  dimension_parent hq hp := ((D.declared hq).parent hp).2
  equation_holds hq he t ht := by
    obtain ⟨r, hr⟩ := ((D.declared hq).equation he).2.1 t ht
    exact ⟨r, hr, D.equation_holds hq he ht hr⟩
  eq_of_name := D.eq_of_name

theorem toWorld_declared (D : DeclaredWorld) : D.toWorld.Declared := fun _ hq => D.declared hq

end DeclaredWorld

end Metrology
