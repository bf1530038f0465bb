import Metrology.Catalog.Shorthand

/-!
# Extending the catalogues

A worked set of declarations beside the built-in ones: information and money, which have dimensions
of their own, an angle counted in turns, the Fahrenheit scale, and origins on two scales. All of
them are qualified by the path of whoever declares them.
-/

namespace Metrology.Worked.Extension

open Catalog

/-- The qualified name of a declaration. -/
def nameUnder (path name : String) : String := path ++ "::" ++ name

variable (path : String)

/-- A unit without definition that is restricted to a quantity of a new dimension. -/
def base (name : String) (symbol : Symbol) (quantity dimension : String) : MeasureUnit :=
  let q := NamedQuantity.ofDimension (nameUnder path quantity) (.base dimension)
  (MeasureUnit.named (nameUnder path name) symbol).associated q

def multiple (name : String) (symbol : Symbol) (magnitude : Except Fault Magnitude)
    (unit : Except Fault MeasureUnit) : Except Fault MeasureUnit := do
  (MeasureUnit.named (nameUnder path name) symbol).definedAs (← magnitude) (← unit)

/-- An origin at an exact distance from another one. -/
def offset (name : String) (start : Except Fault PointOrigin) (n d : Int)
    (unit : Except Fault MeasureUnit) : Except Fault PointOrigin := do
  return .relative (nameUnder path name) (← start) (← Ratio.new n d) (← unit)

def bit : MeasureUnit := base path "Bit" (.plain "bit") "Information" "I"

def byte : Except Fault MeasureUnit :=
  multiple path "Byte" (.plain "B") (Magnitude.integer 8) (.ok (bit path))

def euro : MeasureUnit := base path "Euro" ⟨"\u20ac", "EUR"⟩ "Currency" "$"

def cent : Except Fault MeasureUnit :=
  multiple path "Cent" (.plain "ct") (Magnitude.fraction 1 100) (.ok (euro path))

/-- A full turn as an angle. -/
def turn : Except Fault MeasureUnit :=
  multiple path "Turn" (.plain "tr")
    (do PowerProduct.mul (← Magnitude.pi) (← Magnitude.integer 2)) Si.radian

/-- The zero of the Fahrenheit scale. -/
def fahrenheitZero : Except Fault PointOrigin :=
  offset path "FahrenheitZero" (.ok Si.absoluteZero) 45967 180 (.ok Si.kelvin)

def fahrenheit : Except Fault MeasureUnit := do
  let unit ← multiple path "Fahrenheit" ⟨"\u2109", "deg_F"⟩ (Magnitude.fraction 5 9) (.ok Si.kelvin)
  return unit.withOrigin (← fahrenheitZero path)

/-- The temperature at which the three states of water meet. -/
def triplePoint : Except Fault PointOrigin :=
  offset path "TriplePoint" (.ok Si.absoluteZero) 27316 100 (.ok Si.kelvin)

def sea : PointOrigin := .absolute (nameUnder path "Sea")

def harbour : Except Fault PointOrigin := offset path "Harbour" (.ok (sea path)) 12 1 (.ok Si.metre)

def quay : Except Fault PointOrigin :=
  offset path "Quay" (harbour path) (-10) 3 International.foot

/-- The new units as references under short names. -/
def references : List (String × Except Fault Reference) :=
  [("bit", .ok (bit path)), ("B", byte path),
    ("KiB", do MeasureUnit.withScale (.binary .kibi) (← byte path)), ("EUR", .ok (euro path)),
    ("ct", cent path), ("tr", turn path), ("degF", fahrenheit path)].map
    fun (name, unit) => (name, Shorthand.alone unit)

/-- The origins of each scale under their names. -/
def scales : List (List (String × Except Fault PointOrigin)) :=
  [[("AbsoluteZero", .ok Si.absoluteZero), ("IcePoint", Si.icePoint),
      ("TriplePoint", triplePoint path), ("FahrenheitZero", fahrenheitZero path)],
    [("Sea", .ok (sea path)), ("Harbour", harbour path), ("Quay", quay path)],
    [("zeroth", .ok (.ofSpec (.named Isq.length)))]]

end Metrology.Worked.Extension
