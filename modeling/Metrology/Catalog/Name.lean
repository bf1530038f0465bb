/-!
# Names in the catalogues

Everything declared in a catalogue has a name qualified by the path of its system.
-/

namespace Metrology.Catalog

/-- The qualified name of a declaration of a system. -/
def qualified (system name : String) : String := "unit_algebra::systems::" ++ system ++ "::" ++ name

end Metrology.Catalog
