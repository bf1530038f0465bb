import Metrology.Reference

/-!
# Quantities

A quantity is a number of units of a reference. Converting it to another unit multiplies the number
by the exact conversion factor, and a factor of one leaves it alone. Quantities of different
references are added and compared in their common reference.
-/

namespace Metrology

structure Quantity (ρ : Type) where
  value : ρ
  reference : Reference

/-- A number of units `source` as a number of units `target`. -/
def rescale {ρ : Type} [Representation ρ] (source target : MeasureUnit) (v : ρ) :
    Except Fault ρ := do
  let factor ← source.conversionFactor target
  if PowerProduct.isOne factor then return v else Representation.scale v factor

namespace Quantity

section Conversion

variable {ρ : Type} [Representation ρ]

/-- A number of units of a reference that admits its representation. -/
def new (value : ρ) (reference : Reference) : Except Fault (Quantity ρ) := do
  reference.checkNumber ρ
  return ⟨value, reference⟩

def zero (reference : Reference) : Except Fault (Quantity ρ) := new Representation.zero reference

def unit (q : Quantity ρ) : MeasureUnit := q.reference.unit

def spec (q : Quantity ρ) : QuantitySpec := q.reference.spec

/-- The conversion that needs no request. -/
def convertTo (q : Quantity ρ) (target : Reference) : Except Fault (Quantity ρ) := do
  q.reference.checkImplicit target ρ
  return ⟨← rescale q.unit target.unit q.value, target⟩

/-- The conversion on request. -/
def forceTo (q : Quantity ρ) (target : Reference) : Except Fault (Quantity ρ) := do
  q.reference.checkExplicit target ρ
  return ⟨← rescale q.unit target.unit q.value, target⟩

/-- The same quantity in another unit. -/
def inUnit (q : Quantity ρ) (unit : MeasureUnit) : Except Fault (Quantity ρ) :=
  q.convertTo (q.reference.withUnit unit)

/-- The same quantity in another unit, truncated if need be. -/
def forceIn (q : Quantity ρ) (unit : MeasureUnit) : Except Fault (Quantity ρ) :=
  q.forceTo (q.reference.withUnit unit)

/-- A more specific quantity with the same number of the same unit. -/
def asSpec (q : Quantity ρ) (spec : QuantitySpec) : Except Fault (Quantity ρ) := do
  q.reference.checkExplicit (q.reference.withSpec spec) ρ
  return ⟨q.value, q.reference.withSpec spec⟩

/-- Another quantity of the same kind with the same number of the same unit. -/
def castSpec (q : Quantity ρ) (spec : QuantitySpec) : Except Fault (Quantity ρ) := do
  q.reference.checkCast (q.reference.withSpec spec) ρ
  return ⟨q.value, q.reference.withSpec spec⟩

/-- The numbers of two quantities in their common unit, the left one first. -/
def commonValues (a b : Quantity ρ) (unit : MeasureUnit) : Except Fault (ρ × ρ) := do
  return (← rescale a.unit unit a.value, ← rescale b.unit unit b.value)

/-- Combine the numbers of two quantities in their common reference. -/
def combine (operation : ρ → ρ → Except Fault ρ) (a b : Quantity ρ) :
    Except Fault (Quantity ρ) := do
  let reference ← a.reference.common b.reference
  reference.checkNumber ρ
  let (x, y) ← commonValues a b reference.unit
  return ⟨← operation x y, reference⟩

/-- Whether two quantities have equal numbers in their common unit. -/
def equal (a b : Quantity ρ) : Except Fault Bool := do
  let reference ← a.reference.common b.reference
  reference.checkNumber ρ
  let (x, y) ← commonValues a b reference.unit
  return Representation.equal x y

/-- Change the number and keep the reference. -/
def mapValue (operation : ρ → Except Fault ρ) (q : Quantity ρ) : Except Fault (Quantity ρ) := do
  return ⟨← operation q.value, q.reference⟩

variable {σ : Type} [Representation σ]

/-- A product, given the product of the numbers. -/
def mulWith (operation : ρ → σ → Except Fault ρ) (a : Quantity ρ) (b : Quantity σ) :
    Except Fault (Quantity ρ) := do
  let reference ← a.reference.mul b.reference
  new (← operation a.value b.value) reference

/-- A quotient, given the quotient of the numbers. -/
def divWith (operation : ρ → σ → Except Fault ρ) (a : Quantity ρ) (b : Quantity σ) :
    Except Fault (Quantity ρ) := do
  let reference ← a.reference.div b.reference
  new (← operation a.value b.value) reference

end Conversion

section Arithmetic

variable {ρ : Type} [Scalar ρ]

def add (a b : Quantity ρ) : Except Fault (Quantity ρ) := combine Scalar.add a b

def sub (a b : Quantity ρ) : Except Fault (Quantity ρ) := combine Scalar.sub a b

def mul (a b : Quantity ρ) : Except Fault (Quantity ρ) := mulWith Scalar.mul a b

def div (a b : Quantity ρ) : Except Fault (Quantity ρ) := divWith Scalar.div a b

def neg (q : Quantity ρ) : Except Fault (Quantity ρ) := q.mapValue Scalar.neg

def abs (q : Quantity ρ) : Quantity ρ := { q with value := Scalar.abs q.value }

/-- A number times a quantity. -/
def scaleBy (k : ρ) (q : Quantity ρ) : Except Fault (Quantity ρ) := q.mapValue (Scalar.mul k)

/-- A quantity times a number. -/
def mulBy (q : Quantity ρ) (k : ρ) : Except Fault (Quantity ρ) := q.mapValue (Scalar.mul · k)

/-- A quantity divided by a number. -/
def divBy (q : Quantity ρ) (k : ρ) : Except Fault (Quantity ρ) := q.mapValue (Scalar.div · k)

/-- A number of reciprocal units. -/
def perUnit (k : ρ) (reference : Reference) : Except Fault (Quantity ρ) := do
  new k (← reference.pow .minusOne)

/-- A number divided by a quantity. -/
def divInto (k : ρ) (q : Quantity ρ) : Except Fault (Quantity ρ) := do
  perUnit (← Scalar.div k q.value) q.reference

def pow (q : Quantity ρ) (power : Ratio) : Except Fault (Quantity ρ) := do
  let reference ← q.reference.pow power
  new (← Scalar.power q.value power) reference

def sqrt (q : Quantity ρ) : Except Fault (Quantity ρ) := do
  new (Scalar.sqrt q.value) (← q.reference.pow (← Ratio.new 1 2))

/-- The order of the numbers in the common unit. -/
def order (a b : Quantity ρ) : Except Fault (Option Ordering) := do
  let reference ← a.reference.common b.reference
  reference.checkNumber ρ
  let (x, y) ← commonValues a b reference.unit
  return Scalar.order x y

/-- The same quantity in another representation of its number. -/
def castNumber (σ : Type) [Scalar σ] (q : Quantity ρ) : Quantity σ :=
  ⟨Scalar.cast q.value, q.reference⟩

end Arithmetic

end Quantity

end Metrology
