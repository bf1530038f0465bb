import Metrology.Representation.FixedInt
import Metrology.Worked.Tank

/-!
# Speed and acceleration

A worked calculation with units that stand for kinds of quantities: a distance in kilometres covered
in some hours, and the acceleration that reaches its speed in some seconds.
-/

namespace Metrology.Worked

open Catalog Catalog.Shorthand

def kilometre : Except Fault MeasureUnit := scaled .kilo Si.metre

def metrePerSecond : Except Fault MeasureUnit := Si.metre.div Si.second

/-- A number of units that are references of their own. -/
def amount {ρ : Type} [Scalar ρ] (value : ρ) (unit : Except Fault MeasureUnit) :
    Except Fault (Quantity ρ) := do
  Quantity.new value (← alone unit)

structure Motion where
  distance : Quantity Float
  time : Quantity Float
  acceleratedFor : Quantity Float

namespace Motion

def ofNumbers (kilometres hours seconds : Float) : Except Fault Motion := do
  return ⟨← amount kilometres kilometre, ← amount hours Si.hour, ← amount seconds (.ok Si.second)⟩

def speed (m : Motion) : Except Fault (Quantity Float) := do
  (← m.distance.div m.time).convertTo (← refer Isq.speed metrePerSecond)

def acceleration (m : Motion) : Except Fault (Quantity Float) := do
  (← m.speed).div m.acceleratedFor

/-- The distance covered at the speed reached. -/
def covered (m : Motion) : Except Fault (Quantity Float) := do (← m.speed).mul m.time

def report (m : Motion) : Except Fault (List (Quantity Float)) := do
  let acceleration ← m.acceleration
  let covered ← m.covered
  return [← m.distance.div m.time, ← m.speed, acceleration,
    ← acceleration.inUnit (← metrePerSecondSquared), covered,
    ← covered.inUnit (← International.mile), ← m.time.divInto 1]

end Motion

/-- One number in four units, and per second. -/
def amounts (x : Float) : Except Fault (List (Quantity Float)) := do
  let perSecond ← Quantity.perUnit x (← Reference.ofUnit Si.second)
  return [← amount x kilometre, perSecond, ← amount x (.ok .one), ← amount x metrePerSecond]

/-- Three metres and seven to the kilometre, as whole numbers. -/
def counts : Except Fault (List (Quantity (FixedInt .int32))) := do
  let perKilometre ← Quantity.perUnit (.wrap 7) (← alone kilometre)
  return [← amount (.wrap 3) (.ok Si.metre), perKilometre]

end Metrology.Worked
