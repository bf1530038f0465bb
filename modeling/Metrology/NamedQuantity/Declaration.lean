import Metrology.Convertibility.Search

/-!
# Declaring named quantities

A quantity is declared as a base quantity of a dimension, by an equation, or as a child of another
quantity, whose equation, dimension and character it takes over. A child may refine the equation, if
the new one has the dimension of the parent and converts to it at least explicitly. Marks for kind
and character can be added to any quantity.
-/

namespace Metrology

namespace NamedQuantity

def ofDimension (name : String) (dimension : Dimension) : NamedQuantity :=
  .root name none dimension .scalar false

def ofEquation (name : String) (equation : QuantitySpec) : Except Fault NamedQuantity := do
  return .root name (some equation.product) (← equation.dimension) equation.character false

def childOf (name : String) (parent : NamedQuantity) : NamedQuantity :=
  .child name parent parent.equation? parent.dimension parent.character false

def markKind : NamedQuantity → NamedQuantity
  | .root name equation dimension character _ => .root name equation dimension character true
  | .child name parent equation dimension character _ =>
    .child name parent equation dimension character true

def withCharacter (character : Character) : NamedQuantity → NamedQuantity
  | .root name equation dimension _ isKind => .root name equation dimension character isKind
  | .child name parent equation dimension _ isKind =>
    .child name parent equation dimension character isKind

/-- Give a child an equation of its own. -/
def withEquation (q : NamedQuantity) (equation : QuantitySpec) : Except Fault NamedQuantity :=
  match q with
  | .root .. => .error .equationWithoutParent
  | .child name parent _ dimension _ isKind => do
    if !PowerProduct.same (← equation.dimension) parent.dimension then
      throw .equationOfOtherDimension
    if !(← equation.convertible (QuantitySpec.named parent)).atLeast .explicit then
      throw .equationNotConvertible
    return .child name parent (some equation.product) dimension equation.character isKind

end NamedQuantity

end Metrology
