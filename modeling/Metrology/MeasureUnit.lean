import Metrology.Factor
import Metrology.ScalePrefix

/-!
# Units

Units are named, defined as multiples of other units, prefixed, scaled, and multiplied. A product of
units is kept as a recipe over named, prefixed and scaled units; a recipe that is one unit to the
first power is that unit, and the empty recipe is the unit one.
-/

namespace Metrology

namespace MeasureUnit

def one : MeasureUnit := .mk .one none none

/-- A unit with a name and a symbol of its own and no definition. -/
def named (name : String) (symbol : Symbol) : MeasureUnit := .mk (.base name symbol) none none

/-- Define a named unit as a multiple of another unit, whose origin it takes over if it has none. -/
def definedAs (u : MeasureUnit) (magnitude : Magnitude) (unit : MeasureUnit) :
    Except Fault MeasureUnit :=
  let origin := u.origin?.or unit.origin?
  match u.form with
  | .base name symbol | .defined name symbol _ _ =>
    .ok (.mk (.defined name symbol magnitude unit) u.spec? origin)
  | _ => .error .definitionOfUnnamedUnit

/-- Restrict a unit to one quantity. -/
def associated (u : MeasureUnit) (q : NamedQuantity) : MeasureUnit :=
  .mk u.form (some q) u.origin?

def withOrigin (u : MeasureUnit) (origin : PointOrigin) : MeasureUnit :=
  .mk u.form u.spec? (some origin)

/-- Put a symbol in front of a named unit. -/
def prefixed (symbol : Symbol) (magnitude : Magnitude) (unit : MeasureUnit) :
    Except Fault MeasureUnit :=
  match unit.form with
  | .base .. | .defined .. => .ok (.mk (.prefixed symbol magnitude unit) none unit.origin?)
  | _ => .error .prefixOfUnnamedUnit

/-- A named unit with a scale prefix. -/
def withScale (p : ScalePrefix) (unit : MeasureUnit) : Except Fault MeasureUnit := do
  prefixed p.symbol (← p.magnitude) unit

/-- A multiple of a unit without a name; the multiple by one is the unit itself. -/
def scaled (magnitude : Magnitude) (unit : MeasureUnit) : MeasureUnit :=
  if PowerProduct.isOne magnitude then unit else .mk (.scaled magnitude unit) none none

/-- A unit as a product of units. -/
def product (u : MeasureUnit) : FactorProduct :=
  match u.form with
  | .one => []
  | .derived recipe => recipe
  | _ => [⟨.unit u, .one⟩]

/-- The unit of a product of units. -/
def ofProduct (recipe : FactorProduct) : MeasureUnit :=
  if PowerProduct.isOne recipe then one
  else match PowerProduct.single? recipe with
    | some (.unit u) => u
    | _ => .mk (.derived recipe) none none

def mul (a b : MeasureUnit) : Except Fault MeasureUnit := do
  return ofProduct (← PowerProduct.mul a.product b.product)

def div (a b : MeasureUnit) : Except Fault MeasureUnit := do
  return ofProduct (← PowerProduct.div a.product b.product)

def pow (a : MeasureUnit) (power : Ratio) : Except Fault MeasureUnit := do
  return ofProduct (← PowerProduct.pow a.product power)

/-- The qualified name of a named unit. -/
def name? (u : MeasureUnit) : Option String := u.form.name?

end MeasureUnit

end Metrology
