/-!
# Binary floating-point values

The bits of a binary interchange format are read as an exact value: not a number, an infinity, or a
sign with a whole significand times a power of two. Whatever is printed or truncated is computed
from that value in whole numbers.
-/

namespace Metrology

/-- The widths of the fraction and exponent fields. -/
structure BinaryFormat where
  fractionBits : Nat
  exponentBits : Nat
  deriving DecidableEq, Repr

def binary64 : BinaryFormat := ⟨52, 11⟩
def binary32 : BinaryFormat := ⟨23, 8⟩

/-- A finite value is `significand * 2 ^ exponent` with a sign. -/
inductive BinaryValue where
  | nan
  | infinite (negative : Bool)
  | finite (negative : Bool) (significand : Nat) (exponent : Int)
  deriving DecidableEq, Repr

namespace BinaryFormat

/-- The exponent of the smallest positive value. -/
def minExponent (f : BinaryFormat) : Int :=
  2 - (Nat.pow 2 (f.exponentBits - 1) : Nat) - f.fractionBits

def decode (f : BinaryFormat) (bits : Nat) : BinaryValue :=
  let fractions := Nat.pow 2 f.fractionBits
  let exponents := Nat.pow 2 f.exponentBits
  let fraction := bits % fractions
  let exponent := bits / fractions % exponents
  let negative := bits / fractions / exponents % 2 = 1
  if exponent = exponents - 1 then
    if fraction = 0 then .infinite negative else .nan
  else if exponent = 0 then .finite negative fraction f.minExponent
  else .finite negative (fractions + fraction) (f.minExponent + (exponent - 1))

end BinaryFormat

namespace BinaryValue

def isNegative : BinaryValue → Bool
  | .nan => false
  | .infinite negative => negative
  | .finite negative _ _ => negative

/-- A finite size as a fraction of whole numbers. -/
def fraction (significand : Nat) (exponent : Int) : Nat × Nat :=
  (significand * Nat.pow 2 exponent.toNat, Nat.pow 2 (-exponent).toNat)

/-- The whole number next to a value towards zero, clamped to a range. Not a number gives zero. -/
def truncateInto (low high : Int) : BinaryValue → Int
  | .nan => 0
  | .infinite negative => if negative then low else high
  | .finite negative significand exponent =>
    let (n, d) := fraction significand exponent
    let size : Int := (n / d : Nat)
    max low (min high (if negative then -size else size))

end BinaryValue

end Metrology
