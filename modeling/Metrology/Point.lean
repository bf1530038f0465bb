import Metrology.PointOrigin
import Metrology.Quantity.Text

/-!
# Points on a scale

A point is a quantity measured from an origin: a position rather than a distance. Points are moved
by quantities and subtracted from each other, but not added. Points of one scale share the root of
their origins, and measuring from another origin of that root adds the exact distance of the two.
-/

namespace Metrology

structure Point (ρ : Type) where
  quantity : Quantity ρ
  origin : PointOrigin

namespace Point

/-- Two origins belong to one scale if they have the same root. -/
def checkScale (a b : PointOrigin) : Except Fault Unit :=
  if a.root.same b.root then .ok () else .error (.mismatch .originsUnrelated)

variable {ρ : Type}

section Scale

variable [Representation ρ]

/-- A number of units that measure from an origin of their own. -/
def own? (value : ρ) (unit : MeasureUnit) : Except Fault (Option (Point ρ)) := do
  let quantity ← Quantity.new value (← Reference.ofUnit unit)
  return unit.origin?.map fun origin => ⟨quantity, origin⟩

def convertTo (p : Point ρ) (target : Reference) : Except Fault (Point ρ) := do
  return ⟨← p.quantity.convertTo target, p.origin⟩

def inUnit (p : Point ρ) (unit : MeasureUnit) : Except Fault (Point ρ) := do
  return ⟨← p.quantity.inUnit unit, p.origin⟩

def text (f : FieldFormat) (p : Point ρ) : Except Fault String := p.quantity.text f

/-- The quantity and the origin under their names. -/
def detailed (p : Point ρ) : Except Fault String := do
  return "QuantityPoint \x7b quantity: " ++ (← p.quantity.detailed) ++ ", origin: "
    ++ Json.quote (← p.origin.text) ++ " \x7d"

/-- The interchange form: the number, the symbol of the unit and the origin. -/
def jsonText (p : Point ρ) : Except Fault String := do
  return Json.writeObject
    [("value", Representation.interchange p.quantity.value),
      ("unit", ← p.quantity.unit.jsonText), ("origin", Json.quote (← p.origin.text))]

end Scale

variable [Scalar ρ]

/-- The distance from another origin of the same scale. -/
def quantityFrom (p : Point ρ) (origin : PointOrigin) : Except Fault (Quantity ρ) := do
  checkScale p.origin origin
  let unit := p.quantity.unit
  let distance ← (← p.origin.offsetIn unit).sub (← origin.offsetIn unit)
  p.quantity.mapValue (Scalar.addRatio · distance)

/-- The distance from the root of the scale. -/
def quantityFromZero (p : Point ρ) : Except Fault (Quantity ρ) := do
  let offset ← p.origin.offsetIn p.quantity.unit
  p.quantity.mapValue (Scalar.addRatio · offset)

/-- The same point measured from another origin. -/
def anchoredAt (p : Point ρ) (origin : PointOrigin) : Except Fault (Point ρ) := do
  return ⟨← p.quantityFrom origin, origin⟩

/-- Move a point up the scale. -/
def add (p : Point ρ) (q : Quantity ρ) : Except Fault (Point ρ) := do
  return ⟨← p.quantity.add q, p.origin⟩

/-- Move a point down the scale. -/
def sub (p : Point ρ) (q : Quantity ρ) : Except Fault (Point ρ) := do
  return ⟨← p.quantity.sub q, p.origin⟩

/-- The distance of two points of one scale. -/
def distance (p q : Point ρ) : Except Fault (Quantity ρ) := do
  checkScale p.origin q.origin
  (← p.quantityFromZero).sub (← q.quantityFromZero)

def equal (p q : Point ρ) : Except Fault Bool := do
  checkScale p.origin q.origin
  (← p.quantityFromZero).equal (← q.quantityFromZero)

def order (p q : Point ρ) : Except Fault (Option Ordering) := do
  checkScale p.origin q.origin
  (← p.quantityFromZero).order (← q.quantityFromZero)

end Point

end Metrology
