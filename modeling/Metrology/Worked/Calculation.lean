import Metrology.Worked.Motion
import Metrology.Worked.TotalEnergy

/-!
# The worked calculations by name

Each calculation takes as many numbers as it has inputs and gives its results in order, those with
whole numbers last.
-/

namespace Metrology.Worked

structure Results where
  reals : List (Quantity Float)
  wholes : List (Quantity (FixedInt .int32))

/-- The results of the calculation of a name, if there is one with so many inputs. -/
def calculation? (name : String) (inputs : List Float) : Option (Except Fault Results) :=
  match name, inputs with
  | "tank", [length, width, height, density, measured] => some do
    return ⟨← (← Tank.rectangular length width height density).report measured, []⟩
  | "energy", [momentum, mass] => some do
    return ⟨← (← Particle.ofNumbers momentum mass).report, []⟩
  | "motion", [kilometres, hours, seconds] => some do
    let motion ← (← Motion.ofNumbers kilometres hours seconds).report
    return ⟨motion ++ (← amounts kilometres), ← counts⟩
  | _, _ => none

end Metrology.Worked
