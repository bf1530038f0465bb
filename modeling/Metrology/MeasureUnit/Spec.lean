import Metrology.MeasureUnit
import Metrology.Convertibility.Search

/-!
# The quantity of a unit

A unit measures the kind of quantity it is restricted to. Otherwise it takes the kind from its
definition, and a recipe has the product of the kinds of its units. A unit without any is not
associated with a quantity and fits all of them.
-/

namespace Metrology

mutual

def MeasureUnit.quantitySpec? (u : MeasureUnit) : Except Fault (Option QuantitySpec) :=
  match u with
  | .mk form spec _ =>
    match spec with
    | some q => .ok (some (QuantitySpec.named q).kindOf)
    | none => form.quantitySpec?
termination_by structural u

def UnitForm.quantitySpec? (f : UnitForm) : Except Fault (Option QuantitySpec) :=
  match f with
  | .one => .ok (some QuantitySpec.dimensionless.kindOf)
  | .base .. => .ok none
  | .defined _ _ _ unit => unit.quantitySpec?
  | .prefixed _ _ unit => unit.quantitySpec?
  | .scaled _ unit => unit.quantitySpec?
  | .derived recipe => recipeSpec? QuantitySpec.dimensionless.kindOf recipe
termination_by structural f

def recipeSpec? (start : QuantitySpec) (recipe : List (Term Factor)) :
    Except Fault (Option QuantitySpec) :=
  match recipe with
  | [] => .ok (some start)
  | t :: rest => do
    match ← mulTermSpec? start t with
    | some next => recipeSpec? next rest
    | none => return none
termination_by structural recipe

def mulTermSpec? (start : QuantitySpec) (t : Term Factor) : Except Fault (Option QuantitySpec) :=
  match t with
  | ⟨factor, power⟩ => factor.mulSpec? start power
termination_by structural t

/-- Factors that are not units are left out. -/
def Factor.mulSpec? (start : QuantitySpec) (power : Ratio) (f : Factor) :
    Except Fault (Option QuantitySpec) :=
  match f with
  | .unit u => do
    match ← u.quantitySpec? with
    | some s => return some (← start.mul (← s.pow power))
    | none => return none
  | _ => .ok (some start)
termination_by structural f

end

namespace MeasureUnit

def isAssociated (u : MeasureUnit) : Except Fault Bool := do
  return (← u.quantitySpec?).isSome

/-- Whether a unit may express quantities of a specification. -/
def fits (u : MeasureUnit) (s : QuantitySpec) : Except Fault Bool := do
  match ← u.quantitySpec? with
  | some kind => kind.implicitlyConvertible s
  | none => return true

end MeasureUnit

end Metrology
