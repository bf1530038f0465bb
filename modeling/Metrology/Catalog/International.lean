import Metrology.Catalog.Si

/-!
# The international yard and pound

Units of length and mass with exact definitions in metres and kilograms.
-/

namespace Metrology.Catalog.International

open MeasureUnit

def multiple (name symbol : String) (n d : Int) (unit : Except Fault MeasureUnit) :
    Except Fault MeasureUnit := do
  (named (qualified "international" name) (.plain symbol)).definedAs
    (← Magnitude.fraction n d) (← unit)

def yard : Except Fault MeasureUnit := multiple "Yard" "yd" 9144 10000 (.ok Si.metre)
def foot : Except Fault MeasureUnit := multiple "Foot" "ft" 1 3 yard
def inch : Except Fault MeasureUnit := multiple "Inch" "in" 1 36 yard
def mile : Except Fault MeasureUnit := multiple "Mile" "mi" 1760 1 yard
def nauticalMile : Except Fault MeasureUnit := multiple "NauticalMile" "nmi" 1852 1 (.ok Si.metre)
def pound : Except Fault MeasureUnit := multiple "Pound" "lb" 45359237 100000000 Si.kilogram
def ounce : Except Fault MeasureUnit := multiple "Ounce" "oz" 1 16 pound

def units : Except Fault (List MeasureUnit) :=
  [yard, foot, inch, mile, nauticalMile, pound, ounce].mapM id

end Metrology.Catalog.International
