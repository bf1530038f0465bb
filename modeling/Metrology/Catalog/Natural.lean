import Metrology.Catalog.Isq
import Metrology.MeasureUnit

/-!
# Natural units

With the speed of light and the reduced Planck constant equal to one, every quantity is measured in
powers of energy.
-/

namespace Metrology.Catalog.Natural

open NamedQuantity
open Isq (quotient product)

def nameOf (name : String) : String := qualified "natural" name

def energy : NamedQuantity := ofDimension (nameOf "Energy") (Dimension.base "E")
def mass : NamedQuantity := childOf (nameOf "Mass") energy
def momentum : NamedQuantity := childOf (nameOf "Momentum") energy
def temperature : NamedQuantity := childOf (nameOf "Temperature") energy
def inverseEnergy : Except Fault NamedQuantity := do
  ofEquation (nameOf "InverseEnergy") (← quotient dimensionless energy)
def time : Except Fault NamedQuantity := do return childOf (nameOf "Time") (← inverseEnergy)
def length : Except Fault NamedQuantity := do return childOf (nameOf "Length") (← inverseEnergy)
def speed : Except Fault NamedQuantity := do
  ofEquation (nameOf "Speed") (← quotient (← length) (← time))
def velocity : Except Fault NamedQuantity := do
  return (childOf (nameOf "Velocity") (← speed)).withCharacter .vector
def acceleration : Except Fault NamedQuantity := do
  ofEquation (nameOf "Acceleration") (← quotient (← speed) (← time))
def force : Except Fault NamedQuantity := do
  ofEquation (nameOf "Force") (← product mass (← acceleration))

def quantities : Except Fault (List NamedQuantity) :=
  [.ok energy, .ok mass, .ok momentum, .ok temperature, inverseEnergy, time, length, speed,
    velocity, acceleration, force].mapM id

def electronvolt : MeasureUnit :=
  (MeasureUnit.named (nameOf "Electronvolt") (.plain "eV")).associated energy

def gigaelectronvolt : Except Fault MeasureUnit :=
  MeasureUnit.withScale (.decimal .giga) electronvolt

def units : Except Fault (List MeasureUnit) := [.ok electronvolt, gigaelectronvolt].mapM id

end Metrology.Catalog.Natural
