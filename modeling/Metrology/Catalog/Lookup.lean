import Metrology.Catalog

/-!
# Looking things up in the catalogues

Declarations of a catalogue are found under the name of their system and their own short name. The
dimensionless quantity, the unit one and the zero of the clock belong to no system.
-/

namespace Metrology.Catalog

/-- The declarations of a system under their names; units without a name are left out. -/
def entries {α : Type} (system : String) (name? : α → Option String)
    (declared : Except Fault (List α)) : List (String × α) :=
  (declared.toOption.getD []).filterMap fun a =>
    (name? a).map fun name => (system ++ "." ++ shortName name, a)

/-- A declaration under a name given to it. -/
def entry {α : Type} (name : String) (declared : Except Fault α) : List (String × α) :=
  declared.toOption.toList.map fun a => (name, a)

def quantitiesByName : List (String × NamedQuantity) :=
  ("Dimensionless", .dimensionless) :: entries "isq" (some ·.name) Isq.quantities
    ++ entries "natural" (some ·.name) Natural.quantities

def unitsByName : List (String × MeasureUnit) :=
  ("One", .one) :: entries "si" (·.name?) Si.units
    ++ entries "international" (·.name?) International.units
    ++ entries "natural" (·.name?) Natural.units
    ++ entry "si.Kilogram" Si.kilogram
    ++ entry "natural.Gigaelectronvolt" Natural.gigaelectronvolt

def originsByName : List (String × PointOrigin) :=
  [("si.AbsoluteZero", Si.absoluteZero), ("UnixEpoch", unixEpoch)]
    ++ entry "si.IcePoint" Si.icePoint

end Metrology.Catalog
