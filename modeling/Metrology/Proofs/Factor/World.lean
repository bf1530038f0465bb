import Metrology.Catalog.Isq
import Metrology.Proofs.Hierarchy.Forest
import Metrology.Proofs.PowerProduct.Canonical

/-!
# Worlds of quantities

Quantities are compared by their names, so nothing can be said about quantities of which two share a
name. A world is a collection of quantities in which a name belongs to one quantity only. It holds the
parents of its quantities, which share their dimension, and all that their equations mention.
-/

namespace Metrology

structure World where
  Holds : NamedQuantity → Prop
  dimensionless_holds : Holds .dimensionless
  parent_holds {q p : NamedQuantity} : Holds q → q.parent? = some p → Holds p
  dimension_parent {q p : NamedQuantity} : Holds q → q.parent? = some p → q.dimension = p.dimension
  equation_holds {q : NamedQuantity} {e : FactorProduct} :
    Holds q → q.equation? = some e → ∀ t ∈ e, ∃ r, t.factor = .quantity r ∧ Holds r
  eq_of_name {a b : NamedQuantity} : Holds a → Holds b → a.name = b.name → a = b

namespace World

variable {W : World}

/-- The quantities of a world, where only names and parents matter. -/
def forest (W : World) : Forest where
  Holds := W.Holds
  parent_holds := W.parent_holds
  eq_of_name := W.eq_of_name

theorem same_iff_eq {a b : NamedQuantity} (ha : W.Holds a) (hb : W.Holds b) :
    a.same b = true ↔ a = b :=
  W.forest.same_iff_eq ha hb

theorem eq_dimensionless {q : NamedQuantity} (hq : W.Holds q) (h : q.isDimensionless = true) :
    q = .dimensionless :=
  W.eq_of_name hq W.dimensionless_holds (NamedQuantity.isDimensionless_iff.mp h)

theorem treeRoot_holds {q : NamedQuantity} (hq : W.Holds q) : W.Holds q.treeRoot :=
  W.forest.treeRoot_holds hq

theorem kindRoot_holds {q : NamedQuantity} (hq : W.Holds q) : W.Holds q.kindRoot :=
  NamedQuantity.kindRoot_of_closed (fun _ _ => W.parent_holds) hq

/-- The world of finitely many quantities, none of which has an equation. -/
def ofList (quantities : List NamedQuantity)
    (hparent : ∀ q ∈ quantities, ∀ p, q.parent? = some p → p ∈ quantities ∧ q.dimension = p.dimension)
    (hequation : ∀ q ∈ quantities, q.equation? = none)
    (hname : ((NamedQuantity.dimensionless :: quantities).map (·.name)).Nodup) : World where
  Holds q := q ∈ NamedQuantity.dimensionless :: quantities
  dimensionless_holds := List.mem_cons_self
  parent_holds {q p} hq hp := by
    rcases List.mem_cons.mp hq with rfl | hq
    · cases hp
    · exact List.mem_cons_of_mem _ (hparent q hq p hp).1
  dimension_parent {q p} hq hp := by
    rcases List.mem_cons.mp hq with rfl | hq
    · cases hp
    · exact (hparent q hq p hp).2
  equation_holds {q e} hq he := by
    rcases List.mem_cons.mp hq with rfl | hq
    · obtain rfl := Option.some.inj he
      simp
    · rw [hequation q hq] at he
      cases he
  eq_of_name ha hb hab := List.inj_on_of_nodup_map hname ha hb hab

open Catalog in
/-- Length with some of its descendants. -/
def lengths : World :=
  ofList [Isq.length, Isq.width, Isq.height, Isq.pathLength, Isq.distance]
    (by
      intro q hq p hp
      simp only [List.mem_cons, List.not_mem_nil, or_false] at hq
      rcases hq with rfl | rfl | rfl | rfl | rfl <;> cases hp <;> exact ⟨by simp, rfl⟩)
    (by decide) (by decide)

open Catalog in
theorem lengths_holds {q : NamedQuantity}
    (h : q ∈ [Isq.length, Isq.width, Isq.height, Isq.pathLength, Isq.distance]) : lengths.Holds q :=
  List.mem_cons_of_mem _ h

end World

/-! ### The quantities that a factor mentions -/

mutual

/-- Every quantity that occurs as a factor, at any depth of the recipes of units, satisfies `P`. -/
def Factor.QuantitiesIn (P : NamedQuantity → Prop) (f : Factor) : Prop :=
  match f with
  | .quantity q => P q
  | .unit u => u.QuantitiesIn P
  | _ => True
termination_by structural f

def MeasureUnit.QuantitiesIn (P : NamedQuantity → Prop) (u : MeasureUnit) : Prop :=
  match u with
  | .mk form _ _ => form.QuantitiesIn P
termination_by structural u

def UnitForm.QuantitiesIn (P : NamedQuantity → Prop) (f : UnitForm) : Prop :=
  match f with
  | .one | .base .. => True
  | .defined _ _ _ unit => unit.QuantitiesIn P
  | .prefixed _ _ unit => unit.QuantitiesIn P
  | .scaled _ unit => unit.QuantitiesIn P
  | .derived recipe => recipeQuantitiesIn P recipe
termination_by structural f

def recipeQuantitiesIn (P : NamedQuantity → Prop) (recipe : List (Term Factor)) : Prop :=
  match recipe with
  | [] => True
  | t :: rest => termQuantitiesIn P t ∧ recipeQuantitiesIn P rest
termination_by structural recipe

def termQuantitiesIn (P : NamedQuantity → Prop) (t : Term Factor) : Prop :=
  match t with
  | ⟨factor, _⟩ => factor.QuantitiesIn P
termination_by structural t

end

@[simp] theorem Factor.quantitiesIn_quantity {P : NamedQuantity → Prop} {q : NamedQuantity} :
    (Factor.quantity q).QuantitiesIn P ↔ P q := by
  rw [Factor.QuantitiesIn]

/-- Every quantity that a factor mentions belongs to the world. -/
def World.Covers (W : World) (f : Factor) : Prop := f.QuantitiesIn W.Holds

end Metrology
