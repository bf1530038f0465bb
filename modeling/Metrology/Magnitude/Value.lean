import Metrology.Magnitude

/-!
# The floating value of a magnitude

The value is the product of the values of the terms in their order, starting from one. Whole powers
are taken by repeated squaring, with the exponent reduced to 32 bits; other powers by the power
function.
-/

namespace Metrology

/-- Repeated squaring: `result` times `base` to the power `n`. The squares are taken as long as the
exponent lasts. -/
def squareUp : Nat → Float → Float → Nat → Float
  | 0, result, _, _ => result
  | fuel + 1, result, base, n =>
    let result := if n % 2 = 1 then result * base else result
    if n / 2 = 0 then result else squareUp fuel result (base * base) (n / 2)

/-- A whole power of a number; a negative one is the reciprocal of the positive one. The exponent is
reduced to a signed 32-bit integer. -/
def wholePower (base : Float) (exponent : Int) : Float :=
  let n := IntegerType.int32.reduce exponent
  let power := squareUp (n.natAbs.log2 + 1) 1 base n.natAbs
  if n < 0 then 1 / power else power

/-- A rational power of a number. -/
def rationalPower (base : Float) (exponent : Ratio) : Float :=
  if exponent.isInteger then wholePower base exponent.num else base.pow exponent.toFloat

namespace Magnitude

def baseValue : MagnitudeBase → Float
  | .prime p => Float.ofNat p
  | .constant c => c.value

/-- The only inexact reading of a magnitude. -/
def toFloat (m : Magnitude) : Float :=
  m.foldl (fun product t => product * rationalPower (baseValue t.factor) t.power) 1

/-- Equal magnitudes are equal; others compare by their floating values. -/
def partialCmp (a b : Magnitude) : Option Ordering :=
  if a.same b then some .eq else
    let x := a.toFloat
    let y := b.toFloat
    if x < y then some .lt else if y < x then some .gt
    else if x == y then some .eq else none

end Magnitude

end Metrology
