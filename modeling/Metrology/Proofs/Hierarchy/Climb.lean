import Metrology.Hierarchy
import Mathlib

/-!
# Climbing a hierarchy

The queries on a hierarchy climb from a quantity to its parent. They are stated here in terms of
`parent?` alone, together with the induction that goes with them, so that nothing later depends on how
a quantity stores its other data.
-/

namespace Metrology

namespace NamedQuantity

/-- A fact holds of every quantity if it holds of the roots and passes from parents to children. -/
@[elab_as_elim]
theorem climb {motive : NamedQuantity → Prop}
    (top : ∀ q, q.parent? = none → motive q)
    (step : ∀ q p, q.parent? = some p → motive p → motive q) (q : NamedQuantity) : motive q := by
  induction q using NamedQuantity.treeRoot.induct with
  | case1 => exact top _ rfl
  | case2 name parent equation dimension character isKind ih => exact step _ parent rfl ih

@[simp] theorem same_iff {a b : NamedQuantity} : a.same b = true ↔ a.name = b.name := by
  simp [same]

@[simp] theorem isDimensionless_iff {q : NamedQuantity} :
    q.isDimensionless = true ↔ q.name = dimensionlessName := by
  simp [isDimensionless]

@[simp] theorem parent?_dimensionless : dimensionless.parent? = none := rfl

@[simp] theorem name_dimensionless : dimensionless.name = dimensionlessName := rfl

section Equations

variable {q p : NamedQuantity}

theorem treeRoot_top (h : q.parent? = none) : q.treeRoot = q := by
  cases q with
  | root => rfl
  | child => cases h

theorem treeRoot_step (h : q.parent? = some p) : q.treeRoot = p.treeRoot := by
  cases q with
  | root => cases h
  | child => exact Option.some.inj h ▸ rfl

theorem kindRoot_top (h : q.parent? = none) : q.kindRoot = q := by
  cases q with
  | root => rfl
  | child => cases h

theorem kindRoot_step (h : q.parent? = some p) :
    q.kindRoot = if q.isKind then q else p.kindRoot := by
  cases q with
  | root => cases h
  | child => exact Option.some.inj h ▸ rfl

theorem depth_top (h : q.parent? = none) : q.depth = 0 := by
  cases q with
  | root => rfl
  | child => cases h

theorem depth_step (h : q.parent? = some p) : q.depth = p.depth + 1 := by
  cases q with
  | root => cases h
  | child => exact Option.some.inj h ▸ rfl

@[simp] theorem advance_zero : q.advance 0 = q := by
  cases q <;> rfl

theorem advance_step (h : q.parent? = some p) (n : Nat) : q.advance (n + 1) = p.advance n := by
  cases q with
  | root => cases h
  | child => exact Option.some.inj h ▸ rfl

end Equations

section Closed

variable {P : NamedQuantity → Prop} (hparent : ∀ q p, P q → q.parent? = some p → P p)

include hparent

theorem treeRoot_of_closed {q : NamedQuantity} (hq : P q) : P q.treeRoot := by
  induction q using climb with
  | top q h => rwa [treeRoot_top h]
  | step q p h ih =>
    rw [treeRoot_step h]
    exact ih (hparent q p hq h)

theorem kindRoot_of_closed {q : NamedQuantity} (hq : P q) : P q.kindRoot := by
  induction q using climb with
  | top q h => rwa [kindRoot_top h]
  | step q p h ih =>
    rw [kindRoot_step h]
    split
    · exact hq
    · exact ih (hparent q p hq h)

end Closed

end NamedQuantity

end Metrology
