import Metrology.Convertibility.CommonSpec
import Metrology.MeasureUnit.Spec
import Metrology.MeasureUnit.Canonical
import Metrology.Representation

/-!
# References

A reference says what a number counts: a quantity specification together with a unit. A unit that is
associated with a kind of quantity is a reference on its own. References multiply and divide part by
part, and the checks on conversions between two of them need no number.
-/

namespace Metrology

structure Reference where
  spec : QuantitySpec
  unit : MeasureUnit

namespace Reference

/-- A unit with the kind of quantity it is associated with. -/
def ofUnit (unit : MeasureUnit) : Except Fault Reference := do
  match ← unit.quantitySpec? with
  | some spec => return ⟨spec, unit⟩
  | none => throw .noAssociatedSpec

/-- A named quantity in a unit. -/
def ofNamed (q : NamedQuantity) (unit : MeasureUnit) : Reference := ⟨.named q, unit⟩

def mul (r s : Reference) : Except Fault Reference := do
  return ⟨← r.spec.mul s.spec, ← r.unit.mul s.unit⟩

def div (r s : Reference) : Except Fault Reference := do
  return ⟨← r.spec.div s.spec, ← r.unit.div s.unit⟩

def pow (r : Reference) (power : Ratio) : Except Fault Reference := do
  return ⟨← r.spec.pow power, ← r.unit.pow power⟩

/-- The reference in which quantities of two references are added and compared. -/
def common (r s : Reference) : Except Fault Reference := do
  let some spec ← r.spec.common? s.spec | throw .noCommonSpec
  return ⟨spec, ← r.unit.common s.unit⟩

/-- The same quantity counted in another unit. -/
def withUnit (r : Reference) (unit : MeasureUnit) : Reference := { r with unit }

/-- Another quantity counted in the same unit. -/
def withSpec (r : Reference) (spec : QuantitySpec) : Reference := { r with spec }

/-- The unit has to fit the quantity, and the representation its character. -/
def checkNumber (r : Reference) (ρ : Type) [Representation ρ] : Except Fault Unit := do
  if !(← r.unit.fits r.spec) then throw (.mismatch .unitOfOtherKind)
  if !Representation.supports ρ r.spec.character then throw (.mismatch .characterNotSupported)

/-- Check that a conversion preserves the value and needs no request: the source quantity is one of
the target quantities, and whole numbers stay whole. -/
def checkImplicit (source target : Reference) (ρ : Type) [Representation ρ] :
    Except Fault Unit := do
  if !(← source.spec.implicitlyConvertible target.spec) then throw (.mismatch .notImplicit)
  let factor ← source.unit.conversionFactor target.unit
  if !(Representation.isFloating ρ || factor.isIntegral) then throw (.mismatch .wouldTruncate)
  target.checkNumber ρ

/-- Check a conversion on request, which may truncate the value. -/
def checkExplicit (source target : Reference) (ρ : Type) [Representation ρ] :
    Except Fault Unit := do
  if !(← source.spec.explicitlyConvertible target.spec) then throw (.mismatch .notExplicit)
  let _ ← source.unit.conversionFactor target.unit
  target.checkNumber ρ

/-- Check a reinterpretation as another quantity of the same kind. -/
def checkCast (source target : Reference) (ρ : Type) [Representation ρ] : Except Fault Unit := do
  if !(← source.spec.castable target.spec) then throw (.mismatch .notCastable)
  let _ ← source.unit.conversionFactor target.unit
  target.checkNumber ρ

end Reference

end Metrology
