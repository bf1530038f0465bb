import Metrology.MeasureUnit

/-!
# Canonical units and conversion factors

The canonical form of a unit is an exact magnitude times a product of units without definition.
Units convert into each other if these products agree, and the conversion factor is the quotient of
the magnitudes.
-/

namespace Metrology

structure CanonicalUnit where
  magnitude : Magnitude
  reference : FactorProduct

namespace CanonicalUnit

def one : CanonicalUnit := ⟨[], []⟩

/-- Multiply a canonical unit by a magnitude. -/
def scale (magnitude : Magnitude) (c : CanonicalUnit) : Except Fault CanonicalUnit := do
  return ⟨← PowerProduct.mul magnitude c.magnitude, c.reference⟩

/-- Multiply a canonical unit by a power of another one. -/
def mulPow (c d : CanonicalUnit) (power : Ratio) : Except Fault CanonicalUnit := do
  let magnitude ← PowerProduct.mul c.magnitude (← PowerProduct.pow d.magnitude power)
  let reference ← PowerProduct.mul c.reference (← PowerProduct.pow d.reference power)
  return ⟨magnitude, reference⟩

def text (ascii : Bool) (c : CanonicalUnit) : Except Fault String := do
  return (← Magnitude.text c.magnitude) ++ " x " ++ (← FactorProduct.text ascii c.reference)

end CanonicalUnit

mutual

/-- The canonical form of a unit: definitions, prefixes and multiples are unwrapped, and the factors
of a recipe multiplied in their order. -/
def MeasureUnit.canonical (u : MeasureUnit) : Except Fault CanonicalUnit :=
  match u with
  | .mk form spec origin => UnitForm.canonical (.mk form spec origin) form
termination_by structural u

def UnitForm.canonical (self : MeasureUnit) (f : UnitForm) : Except Fault CanonicalUnit :=
  match f with
  | .one => .ok .one
  | .base .. => .ok ⟨[], [⟨.unit self, .one⟩]⟩
  | .defined _ _ magnitude unit => do CanonicalUnit.scale magnitude (← unit.canonical)
  | .prefixed _ magnitude unit => do CanonicalUnit.scale magnitude (← unit.canonical)
  | .scaled magnitude unit => do CanonicalUnit.scale magnitude (← unit.canonical)
  | .derived recipe => canonicalTerms .one recipe
termination_by structural f

def canonicalTerms (start : CanonicalUnit) (recipe : List (Term Factor)) :
    Except Fault CanonicalUnit :=
  match recipe with
  | [] => .ok start
  | t :: rest => do canonicalTerms (← canonicalTerm start t) rest
termination_by structural recipe

def canonicalTerm (start : CanonicalUnit) (t : Term Factor) : Except Fault CanonicalUnit :=
  match t with
  | ⟨factor, power⟩ => Factor.mulCanonical start power factor
termination_by structural t

/-- Factors that are not units are left out. -/
def Factor.mulCanonical (start : CanonicalUnit) (power : Ratio) (f : Factor) :
    Except Fault CanonicalUnit :=
  match f with
  | .unit u => do start.mulPow (← u.canonical) power
  | _ => .ok start
termination_by structural f

end

namespace MeasureUnit

def convertible (a b : MeasureUnit) : Except Fault Bool := do
  return PowerProduct.same (← a.canonical).reference (← b.canonical).reference

/-- Interchangeable without scaling. -/
def equivalent (a b : MeasureUnit) : Except Fault Bool := do
  let c ← a.canonical
  let d ← b.canonical
  return PowerProduct.same c.reference d.reference && PowerProduct.same c.magnitude d.magnitude

/-- What to multiply a number of units `source` by to get a number of units `target`. -/
def conversionFactor (source target : MeasureUnit) : Except Fault Magnitude := do
  let c ← source.canonical
  let d ← target.canonical
  if PowerProduct.same c.reference d.reference then PowerProduct.div c.magnitude d.magnitude
  else throw .unitsNotConvertible

/-- The conversion factor of units known at run time only. -/
def checkedConversionFactor (source target : MeasureUnit) : Except Failure Magnitude := do
  let c ← liftM source.canonical
  let d ← liftM target.canonical
  if PowerProduct.same c.reference d.reference then
    liftM (PowerProduct.div c.magnitude d.magnitude)
  else
    let s ← liftM (source.symbolText false)
    let t ← liftM (target.symbolText false)
    throw (.reported (.incompatible s t))

/-- The largest unit of which both are multiples: one of the two if it is such a unit, else an
anonymous multiple of the first. -/
def common (a b : MeasureUnit) : Except Fault MeasureUnit := do
  let c ← a.canonical
  let d ← b.canonical
  if !PowerProduct.same c.reference d.reference then throw .noCommonUnit
  if PowerProduct.same c.magnitude d.magnitude then
    return match a.form, b.form with
      | .derived _, .base .. | .derived _, .defined .. => b
      | _, _ => a
  let shared ← Magnitude.common c.magnitude d.magnitude
  if PowerProduct.same shared c.magnitude then return a
  if PowerProduct.same shared d.magnitude then return b
  return scaled (← PowerProduct.div shared c.magnitude) a

end MeasureUnit

end Metrology
