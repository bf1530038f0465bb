import Metrology.Catalog.International
import Metrology.Catalog.Natural

/-!
# The built-in catalogues

The systems with their units in the order in which they are listed, and the origin of clock
readings.
-/

namespace Metrology.Catalog

/-- The zero of the clock. -/
def unixEpoch : PointOrigin := .absolute "unit_algebra::quantity_like::UnixEpoch"

/-- Every unit of the catalogues by system. -/
def systems : Except Fault (List (String × List MeasureUnit)) := do
  return [("si", ← Si.units), ("international", ← International.units),
    ("natural", ← Natural.units)]

end Metrology.Catalog
