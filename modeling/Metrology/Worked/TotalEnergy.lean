import Metrology.Catalog
import Metrology.Quantity
import Metrology.Representation.Floating

/-!
# The energy of a moving particle

A worked calculation in natural units, where the square of the energy is the sum of the squares of
momentum and mass.
-/

namespace Metrology.Worked

open Catalog

/-- Momentum in megaelectronvolts and mass in gigaelectronvolts. -/
structure Particle where
  momentum : Quantity Float
  mass : Quantity Float

namespace Particle

def ofNumbers (momentum mass : Float) : Except Fault Particle := do
  let mega ← MeasureUnit.withScale (.decimal .mega) Natural.electronvolt
  let momentum ← Quantity.new momentum (.ofNamed Natural.momentum mega)
  return ⟨momentum, ← Quantity.new mass (.ofNamed Natural.mass (← Natural.gigaelectronvolt))⟩

def square (q : Quantity Float) : Except Fault (Quantity Float) := do
  q.pow (← Ratio.integer 2)

def squaredEnergy (p : Particle) : Except Fault (Quantity Float) := do
  (← square p.momentum).add (← square p.mass)

/-- The squared energy, its root, and the energy in gigaelectronvolts and electronvolts. -/
def report (p : Particle) : Except Fault (List (Quantity Float)) := do
  let squared ← p.squaredEnergy
  let root ← squared.sqrt
  let energy ← root.convertTo (.ofNamed Natural.energy (← Natural.gigaelectronvolt))
  return [squared, root, energy, ← energy.inUnit Natural.electronvolt]

end Particle

end Metrology.Worked
