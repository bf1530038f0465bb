import Metrology.Representation.Vector3
import Metrology.Worked.Motion

/-!
# Displacements

A worked calculation with quantities that have a direction: one displacement in metres, another one
in millimetres, and the time in seconds that the first one takes.
-/

namespace Metrology.Worked

open Catalog Catalog.Shorthand

structure Displacement (ρ : Type) where
  metres : Vector3 ρ
  millimetres : Vector3 ρ
  seconds : ρ

namespace Displacement

variable {ρ : Type} [Scalar ρ] (d : Displacement ρ)

def first : Quantity (Vector3 ρ) := ⟨d.metres, .ofNamed Isq.displacement Si.metre⟩

def second : Except Fault (Quantity (Vector3 ρ)) := do
  return ⟨d.millimetres, .ofNamed Isq.displacement (← scaled .milli Si.metre)⟩

def time : Quantity ρ := ⟨d.seconds, .ofNamed Isq.duration Si.second⟩

def sum : Except Fault (Quantity (Vector3 ρ)) := do d.first.combine Vector3.add (← d.second)

def difference : Except Fault (Quantity (Vector3 ρ)) := do
  d.first.combine Vector3.sub (← d.second)

def opposite : Except Fault (Quantity (Vector3 ρ)) := d.first.mapValue Vector3.neg

/-- Whether both are the same displacement. -/
def coincide : Except Fault Bool := do d.first.equal (← d.second)

def timesTime : Except Fault (Quantity (Vector3 ρ)) := d.first.mulWith Vector3.mulBy d.time

def perTime : Except Fault (Quantity (Vector3 ρ)) := d.first.divWith Vector3.divBy d.time

/-- The velocity in a unit of speed. -/
def velocityIn (unit : Except Fault MeasureUnit) : Except Fault (Quantity (Vector3 ρ)) := do
  (← d.perTime).forceTo (← refer Isq.velocity unit)

def velocity : Except Fault (Quantity (Vector3 ρ)) := d.velocityIn metrePerSecond

def velocityPerHour : Except Fault (Quantity (Vector3 ρ)) :=
  d.velocityIn do (← kilometre).div (← Si.hour)

end Displacement

end Metrology.Worked
