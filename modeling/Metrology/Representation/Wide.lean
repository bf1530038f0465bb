import Metrology.Ratio.Fraction
import Metrology.Representation.FixedInt

/-!
# Scaling in wide words

A number of an integer type is scaled or shifted by a fraction in signed 128-bit integers and narrowed at
the end. Every operation on 128-bit integers is checked here, and a result out of their range is a fault
of its own.
-/

namespace Metrology.FixedInt

variable {t : IntegerType}

/-- The quotient of two wide words as a number of the type. -/
def narrowQuotient (n d : Int) : Except Fault (FixedInt t) := do narrow (← divide128 n d)

/-- A number times a fraction. -/
def scaleWide (v : FixedInt t) (f : Fraction) : Except Fault (FixedInt t) := do
  narrowQuotient (← word128 .multiply (v.value * f.num)) f.den

/-- A number plus a fraction, over the denominator of the fraction. -/
def addWide (v : FixedInt t) (f : Fraction) : Except Fault (FixedInt t) := do
  let parts ← word128 .multiply (v.value * f.den)
  narrowQuotient (← word128 .add (parts + f.num)) f.den

end Metrology.FixedInt
