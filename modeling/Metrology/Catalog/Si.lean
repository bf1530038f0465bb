import Metrology.Catalog.Isq
import Metrology.MeasureUnit.Spec
import Metrology.PointOrigin

/-!
# Units of the International System

The base units, some derived units, and some units accepted for use with them, with the zeros of the
temperature scales.
-/

namespace Metrology.Catalog.Si

open MeasureUnit

def nameOf (name : String) : String := qualified "si" name

def base (name : String) (symbol : Symbol) : MeasureUnit := .named (nameOf name) symbol

/-- A named unit that is a multiple of another one. -/
def multiple (name : String) (symbol : Symbol) (magnitude : Except Fault Magnitude)
    (unit : Except Fault MeasureUnit) : Except Fault MeasureUnit := do
  (base name symbol).definedAs (← magnitude) (← unit)

/-- A named unit that equals another one. -/
def equal (name : String) (symbol : Symbol) (unit : Except Fault MeasureUnit) :
    Except Fault MeasureUnit :=
  multiple name symbol (.ok .one) unit

def metre : MeasureUnit := (base "Metre" (.plain "m")).associated Isq.length
def second : MeasureUnit := (base "Second" (.plain "s")).associated Isq.time
def gram : MeasureUnit := (base "Gram" (.plain "g")).associated Isq.mass
def ampere : MeasureUnit := (base "Ampere" (.plain "A")).associated Isq.electricCurrent
def absoluteZero : PointOrigin := .absolute (nameOf "AbsoluteZero")
def kelvin : MeasureUnit :=
  ((base "Kelvin" (.plain "K")).associated Isq.thermodynamicTemperature).withOrigin absoluteZero
def mole : MeasureUnit := (base "Mole" (.plain "mol")).associated Isq.amountOfSubstance
def candela : MeasureUnit := (base "Candela" (.plain "cd")).associated Isq.luminousIntensity

def kilogram : Except Fault MeasureUnit := withScale (.decimal .kilo) gram

def icePoint : Except Fault PointOrigin := do
  return .relative (nameOf "IcePoint") absoluteZero (← Ratio.new 27315 100) kelvin

/-- The whole power of a unit. -/
def power (u : MeasureUnit) (n : Int) : Except Fault MeasureUnit := do u.pow (← Ratio.integer n)

def degreeCelsius : Except Fault MeasureUnit := do
  return (← equal "DegreeCelsius" ⟨"\u2103", "deg_C"⟩ (.ok kelvin)).withOrigin (← icePoint)
def radian : Except Fault MeasureUnit := do
  return (← equal "Radian" (.plain "rad") (metre.div metre)).associated (← Isq.angularMeasure)
def hertz : Except Fault MeasureUnit := do
  return (← equal "Hertz" (.plain "Hz") (one.div second)).associated (← Isq.frequency)
def newton : Except Fault MeasureUnit :=
  equal "Newton" (.plain "N") do ((← (← kilogram).mul metre).div (← power second 2))
def joule : Except Fault MeasureUnit := equal "Joule" (.plain "J") do (← newton).mul metre
def watt : Except Fault MeasureUnit := equal "Watt" (.plain "W") do (← joule).div second
def pascal : Except Fault MeasureUnit :=
  equal "Pascal" (.plain "Pa") do (← newton).div (← power metre 2)

def minute : Except Fault MeasureUnit :=
  multiple "Minute" (.plain "min") (Magnitude.integer 60) (.ok second)
def hour : Except Fault MeasureUnit := multiple "Hour" (.plain "h") (Magnitude.integer 60) minute
def day : Except Fault MeasureUnit := multiple "Day" (.plain "d") (Magnitude.integer 24) hour
def litre : Except Fault MeasureUnit :=
  equal "Litre" (.plain "L") do power (← withScale (.decimal .deci) metre) 3
def tonne : Except Fault MeasureUnit :=
  multiple "Tonne" (.plain "t") (Magnitude.integer 1000) kilogram
def degree : Except Fault MeasureUnit :=
  multiple "Degree" ⟨"\u00b0", "deg"⟩
    (do PowerProduct.div (← Magnitude.pi) (← Magnitude.integer 180)) radian
def percent : Except Fault MeasureUnit :=
  multiple "Percent" (.plain "%") (Magnitude.fraction 1 100) (.ok one)
def perMille : Except Fault MeasureUnit :=
  multiple "PerMille" ⟨"\u2030", "permille"⟩ (Magnitude.fraction 1 1000) (.ok one)

def units : Except Fault (List MeasureUnit) :=
  [.ok metre, .ok second, .ok gram, kilogram, .ok ampere, .ok kelvin, .ok mole, .ok candela,
    degreeCelsius, radian, hertz, newton, joule, watt, pascal, minute, hour, day, litre, tonne,
    degree, percent, perMille].mapM id

end Metrology.Catalog.Si
