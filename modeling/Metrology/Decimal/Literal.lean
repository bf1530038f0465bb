import Metrology.IntegerType

/-!
# The value of a decimal literal

A literal without point and exponent is a whole number if it fits a 64-bit word or, with a minus
sign, is one of the negative 64-bit integers. Any other literal is a binary64 number. Its digits are
gathered as long as they fit a 64-bit word; whole digits beyond that only raise the exponent, and
decimals beyond it are dropped. The gathered number is then multiplied or divided once by a power of
ten, twice where the power is smaller than any binary64 number. A product that is infinite is out of
range.
-/

namespace Metrology

/-- A number as it is written, digit by digit. -/
structure DecimalLiteral where
  negative : Bool
  whole : List Nat
  /-- The digits after the point, if there is one. -/
  decimals : Option (List Nat)
  /-- The sign and the digits of the exponent, if there is one. -/
  exponent : Option (Bool × List Nat)
  deriving DecidableEq, Repr

/-- What a literal stands for. -/
inductive LiteralValue where
  | whole (n : Int)
  | real (x : Float)

/-- The largest exponent of ten with a finite binary64 value. -/
def maxPowerOfTen : Nat := 308

def powerOfTen (n : Nat) : Float := Float.ofScientific 1 false n

/-- Append digits as long as the number stays below `bound`, and return what is left of them. -/
def gatherDigits (bound : Nat) : Nat → List Nat → Nat × List Nat
  | n, [] => (n, [])
  | n, d :: rest =>
    if n * 10 + d < bound then gatherDigits bound (n * 10 + d) rest else (n, d :: rest)

/-- Divide by a power of ten, in steps of the largest one. Zero stays what it is. -/
def divideByPowerOfTen (x : Float) (n : Nat) : Float :=
  if n ≤ maxPowerOfTen then x / powerOfTen n
  else if x == 0 then x
  else divideByPowerOfTen (x / powerOfTen maxPowerOfTen) (n - maxPowerOfTen)
termination_by n
decreasing_by simp only [maxPowerOfTen] at *; omega

/-- Multiply by a power of ten; nothing if the product is not finite. -/
def multiplyByPowerOfTen? (x : Float) (n : Nat) : Option Float :=
  if n ≤ maxPowerOfTen then
    let product := x * powerOfTen n
    if product.isInf then none else some product
  else if x == 0 then some x else none

def scaleByPowerOfTen? (x : Float) : Int → Option Float
  | .ofNat n => multiplyByPowerOfTen? x n
  | .negSucc n => some (divideByPowerOfTen x (n + 1))

namespace DecimalLiteral

def digitsValue (digits : List Nat) : Nat := digits.foldl (fun n d => n * 10 + d) 0

/-- Whether there is neither a point nor an exponent. -/
def isWhole (l : DecimalLiteral) : Bool := l.decimals.isNone && l.exponent.isNone

/-- The number gathered from the digits and the exponent of ten it has without the written one. -/
def gathered (l : DecimalLiteral) : Nat × Int :=
  let (significand, skipped) := gatherDigits IntegerType.word64.count 0 l.whole
  let decimals := l.decimals.getD []
  let (significand, dropped) := gatherDigits IntegerType.word64.count significand decimals
  (significand, skipped.length + dropped.length - decimals.length)

/-- The size of a literal as a binary64 number. An exponent that does not fit 31 bits gives zero,
unless it is positive and the number is not zero. -/
def size? (l : DecimalLiteral) : Option Float :=
  let (significand, shift) := l.gathered
  match l.exponent with
  | none => scaleByPowerOfTen? (Float.ofNat significand) shift
  | some (below, digits) =>
    let exponent : Int := digitsValue digits
    if exponent ≤ IntegerType.int32.high then
      scaleByPowerOfTen? (Float.ofNat significand)
        (if below then shift - exponent else shift + exponent)
    else if significand ≠ 0 ∧ !below then none
    else some 0

/-- The whole number a literal stands for, if it is one. -/
def whole? (l : DecimalLiteral) : Option Int :=
  let n := digitsValue l.whole
  if !l.isWhole then none
  else if l.negative then if 0 < n ∧ IntegerType.int64.Holds (-n) then some (-n) else none
  else if IntegerType.word64.Holds n then some n else none

def value? (l : DecimalLiteral) : Option LiteralValue :=
  match l.whole? with
  | some n => some (.whole n)
  | none => l.size?.map fun x => .real (if l.negative then -x else x)

end DecimalLiteral

end Metrology
