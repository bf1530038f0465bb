import Metrology.Catalog.Shorthand
import Metrology.Quantity
import Metrology.Representation.Floating

/-!
# A storage tank

A worked calculation: how much a filled rectangular tank weighs, how high a measured mass of its
contents stands in it, and how much room is left. Every step keeps track of the quantity as well as
of the unit.
-/

namespace Metrology.Worked

open Catalog Catalog.Shorthand

/-- The base and height of a tank and the density of its contents. -/
structure Tank where
  base : Quantity Float
  height : Quantity Float
  density : Quantity Float

def areaReference : Except Fault Reference := refer Isq.area (Si.power Si.metre 2)

def volumeReference : Except Fault Reference := refer Isq.volume (Si.power Si.metre 3)

def heightReference : Reference := Reference.ofNamed Isq.height Si.metre

def massReference : Except Fault Reference := refer (.ok Isq.mass) Si.kilogram

def densityReference : Except Fault Reference :=
  refer Isq.density do (← Si.kilogram).div (← Si.power Si.metre 3)

/-- Metres per second squared, without a quantity of its own. -/
def metrePerSecondSquared : Except Fault MeasureUnit := do
  Si.metre.div (← Si.power Si.second 2)

/-- The standard acceleration of free fall. -/
def standardGravity : Except Fault (Quantity Float) := do
  Quantity.new 9.80665 (← refer Isq.acceleration metrePerSecondSquared)

namespace Tank

/-- A tank with edges in millimetres and contents in kilograms per cubic metre. -/
def rectangular (length width height density : Float) : Except Fault Tank := do
  let millimetre ← scaled .milli Si.metre
  let length ← Quantity.new length (.ofNamed Isq.length millimetre)
  let width ← Quantity.new width (.ofNamed Isq.width millimetre)
  let height ← Quantity.new height (.ofNamed Isq.height millimetre)
  let base ← (← length.mul width).convertTo (← areaReference)
  return ⟨base, ← height.convertTo heightReference, ← Quantity.new density (← densityReference)⟩

def volume (t : Tank) : Except Fault (Quantity Float) := do
  (← t.base.mul t.height).convertTo (← volumeReference)

/-- The mass of the contents of a filled tank. -/
def filledMass (t : Tank) : Except Fault (Quantity Float) := do
  (← t.density.mul (← t.volume)).convertTo (← massReference)

/-- The force on a filled tank. -/
def filledForce (t : Tank) : Except Fault (Quantity Float) := do
  (← t.filledMass).mul (← standardGravity)

def filledWeight (t : Tank) : Except Fault (Quantity Float) := do
  (← (← t.filledForce).asSpec (.named (← Isq.weight))).inUnit (← Si.newton)

/-- How high a mass of the contents stands. -/
def fillLevel (t : Tank) (mass : Quantity Float) : Except Fault (Quantity Float) := do
  let force ← (← t.filledWeight).convertTo (← refer Isq.force Si.newton)
  let weighed ← (← t.height.mul mass).mul (← standardGravity)
  (← weighed.div force).convertTo heightReference

/-- The part of the height that a mass of the contents fills. -/
def fillPercentage (t : Tank) (mass : Quantity Float) : Except Fault (Quantity Float) := do
  (← (← t.fillLevel mass).div t.height).inUnit (← Si.percent)

/-- The room above a mass of the contents. -/
def spareVolume (t : Tank) (mass : Quantity Float) : Except Fault (Quantity Float) := do
  let free ← t.height.sub (← t.fillLevel mass)
  (← free.mul t.base).convertTo (← volumeReference)

/-- All results for a measured mass in kilograms. -/
def report (t : Tank) (measured : Float) : Except Fault (List (Quantity Float)) := do
  let mass ← Quantity.new measured (← massReference)
  let spare ← t.spareVolume mass
  return [t.base, ← t.volume, ← t.filledMass, ← t.filledForce, ← t.filledWeight,
    ← t.fillLevel mass, ← t.fillPercentage mass, spare, ← spare.inUnit (← Si.litre)]

end Tank

end Metrology.Worked
