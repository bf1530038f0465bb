import Metrology.Catalog.Name
import Metrology.NamedQuantity.Declaration

/-!
# A part of the International System of Quantities

The seven base quantities, some of their descendants, and quantities defined by equations. The
angular measure is a dimensionless quantity of a kind of its own.
-/

namespace Metrology.Catalog.Isq

open NamedQuantity

def nameOf (name : String) : String := qualified "isq" name

def baseQuantity (name symbol : String) : NamedQuantity :=
  ofDimension (nameOf name) (Dimension.base symbol)

def child (name : String) (parent : NamedQuantity) : NamedQuantity := childOf (nameOf name) parent

def equation (name : String) (e : Except Fault QuantitySpec) : Except Fault NamedQuantity := do
  ofEquation (nameOf name) (← e)

def length : NamedQuantity := baseQuantity "Length" "L"
def mass : NamedQuantity := baseQuantity "Mass" "M"
def time : NamedQuantity := baseQuantity "Time" "T"
def electricCurrent : NamedQuantity := baseQuantity "ElectricCurrent" "I"
def thermodynamicTemperature : NamedQuantity := baseQuantity "ThermodynamicTemperature" "\u0398"
def amountOfSubstance : NamedQuantity := baseQuantity "AmountOfSubstance" "N"
def luminousIntensity : NamedQuantity := baseQuantity "LuminousIntensity" "J"

def width : NamedQuantity := child "Width" length
def radius : NamedQuantity := child "Radius" width
def height : NamedQuantity := child "Height" length
def pathLength : NamedQuantity := child "PathLength" length
def distance : NamedQuantity := child "Distance" pathLength
def displacement : NamedQuantity := (child "Displacement" length).withCharacter .vector
def duration : NamedQuantity := child "Duration" time

/-- A whole power of a quantity. -/
def power (q : NamedQuantity) (n : Int) : Except Fault QuantitySpec := do
  (QuantitySpec.named q).pow (← Ratio.integer n)

def product (a b : NamedQuantity) : Except Fault QuantitySpec :=
  (QuantitySpec.named a).mul (.named b)

def quotient (a b : NamedQuantity) : Except Fault QuantitySpec :=
  (QuantitySpec.named a).div (.named b)

def area : Except Fault NamedQuantity := equation "Area" (power length 2)
def volume : Except Fault NamedQuantity := equation "Volume" (power length 3)
def frequency : Except Fault NamedQuantity :=
  equation "Frequency" (quotient dimensionless duration)
def speed : Except Fault NamedQuantity := equation "Speed" (quotient length time)
def velocity : Except Fault NamedQuantity := do
  (child "Velocity" (← speed)).withEquation (← quotient displacement duration)
def acceleration : Except Fault NamedQuantity := do
  equation "Acceleration" (quotient (← speed) duration)
def density : Except Fault NamedQuantity := do equation "Density" (quotient mass (← volume))
def force : Except Fault NamedQuantity := do equation "Force" (product mass (← acceleration))
def weight : Except Fault NamedQuantity := do return child "Weight" (← force)
def energy : Except Fault NamedQuantity := do equation "Energy" (product (← force) length)
def mechanicalPower : Except Fault NamedQuantity := do
  equation "Power" (quotient (← energy) duration)
def angularMeasure : Except Fault NamedQuantity := do
  return (← (child "AngularMeasure" dimensionless).withEquation (← quotient length radius)).markKind

def quantities : Except Fault (List NamedQuantity) := do
  let plain := [length, mass, time, electricCurrent, thermodynamicTemperature, amountOfSubstance,
    luminousIntensity, width, radius, height, pathLength, distance, displacement, duration]
  let composed ← [area, volume, frequency, speed, velocity, acceleration, density, force, weight,
    energy, mechanicalPower, angularMeasure].mapM id
  return plain ++ composed

end Metrology.Catalog.Isq
