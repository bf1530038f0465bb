import Metrology.NamedQuantity.Declaration
import Metrology.Proofs.PowerProduct.Group
import Metrology.Proofs.QuantitySpec.Dimension

/-!
# Declared quantities

The quantities of a system are declared one after the other, each from quantities declared before. The
dimension of a declared quantity is canonical, and the dimension of its name alone can always be
computed.
-/

namespace Metrology

namespace NamedQuantity

/-- The quantities that declarations make, in any number of steps. -/
inductive Declared : NamedQuantity → Prop where
  | dimensionless : Declared .dimensionless
  | ofDimension (name : String) {d : Dimension} : PowerProduct.Canonical d →
      Declared (.ofDimension name d)
  | ofEquation {name : String} {e : QuantitySpec} {q : NamedQuantity} :
      PowerProduct.Canonical e.product → (∀ t ∈ e.product, ∃ r, t.factor = .quantity r) →
      (∀ t ∈ e.product, ∀ r, t.factor = .quantity r → Declared r) →
      NamedQuantity.ofEquation name e = .ok q → Declared q
  | childOf (name : String) {p : NamedQuantity} : Declared p → Declared (.childOf name p)
  | withEquation {e : QuantitySpec} {q r : NamedQuantity} : Declared q →
      PowerProduct.Canonical e.product → (∀ t ∈ e.product, ∃ r, t.factor = .quantity r) →
      (∀ t ∈ e.product, ∀ r, t.factor = .quantity r → Declared r) →
      q.withEquation e = .ok r → Declared r
  | markKind {q : NamedQuantity} : Declared q → Declared q.markKind
  | withCharacter {q : NamedQuantity} (character : Character) : Declared q →
      Declared (q.withCharacter character)

variable {q r : NamedQuantity} {e : QuantitySpec}

@[simp] theorem dimension_markKind : q.markKind.dimension = q.dimension := by
  cases q <;> rfl

@[simp] theorem dimension_withCharacter (character : Character) :
    (q.withCharacter character).dimension = q.dimension := by
  cases q <;> rfl

/-- An equation of its own changes neither the dimension of a child nor its place. -/
theorem dimension_withEquation (h : q.withEquation e = .ok r) : r.dimension = q.dimension := by
  unfold withEquation at h
  split at h
  · cases h
  · obtain ⟨d, -, h⟩ := bind_eq_ok.mp h
    split at h
    · cases h
    · obtain ⟨g, -, h⟩ := bind_eq_ok.mp h
      split at h
      · cases h
      · exact pure_eq_ok.mp h ▸ rfl

theorem Declared.dimension_canonical (h : q.Declared) : PowerProduct.Canonical q.dimension := by
  induction h with
  | dimensionless => exact PowerProduct.canonical_one
  | ofDimension name hd => exact hd
  | ofEquation _ _ _ hq _ =>
    obtain ⟨d, hd, hq⟩ := bind_eq_ok.mp hq
    obtain rfl := pure_eq_ok.mp hq
    exact (QuantitySpec.dimension_spec hd).1
  | childOf name _ ih => exact ih
  | withEquation _ _ _ _ hr ih _ => rwa [dimension_withEquation hr]
  | markKind _ ih => rwa [dimension_markKind]
  | withCharacter character _ ih => rwa [dimension_withCharacter]

end NamedQuantity

/-- Every quantity of the world has been declared. -/
def World.Declared (W : World) : Prop := ∀ q, W.Holds q → q.Declared

theorem World.dimension_named {W : World} (hW : W.Declared) {q : NamedQuantity} (hq : W.Holds q) :
    (QuantitySpec.named q).dimension = .ok q.dimension := by
  cases hproper : q.isDimensionless with
  | true =>
    obtain rfl := W.eq_dimensionless hq hproper
    rfl
  | false =>
    have hone : PowerProduct.mul Dimension.one q.dimension = .ok q.dimension :=
      PowerProduct.one_mul_canonical (hW q hq).dimension_canonical
    unfold QuantitySpec.dimension
    rw [QuantitySpec.named_product hproper, List.foldlM_cons]
    simp [PowerProduct.pow_one, hone, bind, Except.bind, pure, Except.pure]

end Metrology
