import Metrology.Representation.NumberType

/-!
# Exact texts of numbers

A text that loses nothing: an integer in decimal, and a floating-point number as the hexadecimal
digits of its bits. All values that are not a number share one text, which is not read back.
-/

namespace Metrology

/-- A number in hexadecimal with leading zeros. -/
def hexText (digits n : Nat) : String :=
  let written := Nat.toDigits 16 n
  String.ofList (List.replicate (digits - written.length) '0' ++ written)

def hexDigitValue? (c : Char) : Option Nat :=
  if c.isDigit then some (c.toNat - 48)
  else if 'a' ≤ c ∧ c ≤ 'f' then some (c.toNat - 87)
  else none

/-- A number written with exactly so many hexadecimal digits. -/
def ofHexText? (digits : Nat) (text : String) : Option Nat :=
  if text.length = digits then
    text.toList.foldlM (fun n c => (hexDigitValue? c).map (n * 16 + ·)) 0
  else none

/-- Decimal digits with an optional minus sign. -/
def ofDecimalText? (text : String) : Option Int :=
  let digits := match text.toList with
    | '-' :: rest => rest
    | cs => cs
  if digits.isEmpty || !digits.all Char.isDigit then none else text.toInt?

namespace NumberType

def bitText : (t : NumberType) → t.Number → String
  | .float64, x => if Float.isNaN x then "nan" else hexText 16 (Float.toBits x).toNat
  | .float32, x => if Float32.isNaN x then "nan" else hexText 8 (Float32.toBits x).toNat
  | .integer _, n => toString (FixedInt.value n)

def ofBitText? : (t : NumberType) → String → Option t.Number
  | .float64, text => (ofHexText? 16 text).map fun n => Float.ofBits (.ofNat n)
  | .float32, text => (ofHexText? 8 text).map fun n => Float32.ofBits (.ofNat n)
  | .integer _, text => (ofDecimalText? text).bind FixedInt.ofInt?

end NumberType

end Metrology
