import Metrology.Decimal.Shortest

/-!
# Layouts of floating-point numbers

Three layouts print the shortest digits: the plain one never uses an exponent, the detailed one
marks whole numbers with a decimal and uses an exponent for very small and very large values, and
the interchange one has limits of its own and writes the sign of the exponent. Of two equally near
decimals the interchange layout takes the one with an even last digit, the others the larger one. A
fixed number of decimals is rounded from the exact binary value, a half to the even neighbour.
-/

namespace Metrology

/-- Decisions of a layout: how ties are broken, the exponents of the leading digit that are written
positionally, whether a whole number gets a decimal, whether a positive exponent gets a sign, and
the texts of the values that are not finite. -/
structure FloatLayout where
  ties : TieRule
  lowest : Option Int
  highest : Option Int
  markWhole : Bool
  markPositive : Bool
  nan : String
  infinity : String
  negativeInfinity : String
  deriving Repr

namespace FloatLayout

def plain : FloatLayout := ⟨.larger, none, none, false, false, "NaN", "inf", "-inf"⟩

def detailed : FloatLayout := ⟨.larger, some (-4), some 15, true, false, "NaN", "inf", "-inf"⟩

def interchange64 : FloatLayout :=
  ⟨.evenDigit, some (-5), some 15, true, true, "null", "null", "null"⟩

def interchange32 : FloatLayout :=
  ⟨.evenDigit, some (-6), some 12, true, true, "null", "null", "null"⟩

def zeros (n : Nat) : String := String.ofList (List.replicate n '0')

/-- Digits with a point after the first `whole` of them; leading zeros as needed. -/
def withPoint (digits : List Char) (whole : Int) : String :=
  if whole ≤ 0 then "0." ++ zeros (-whole).toNat ++ String.ofList digits
  else String.ofList (digits.take whole.toNat) ++ "." ++ String.ofList (digits.drop whole.toNat)

def positional (l : FloatLayout) (digits : List Char) (exponent : Int) : String :=
  if 0 ≤ exponent then
    String.ofList digits ++ zeros exponent.toNat ++ (if l.markWhole then ".0" else "")
  else withPoint digits (digits.length + exponent)

def scientific (l : FloatLayout) (digits : List Char) (leading : Int) : String :=
  let mantissa := if digits.length = 1 then String.ofList digits else withPoint digits 1
  mantissa ++ "e" ++ (if l.markPositive ∧ 0 ≤ leading then "+" else "") ++ toString leading

/-- The text of a positive decimal. -/
def decimalText (l : FloatLayout) (d : Decimal) : String :=
  let digits := Nat.toDigits 10 d.digits
  let leading := digits.length + d.exponent - 1
  let tooSmall := match l.lowest with
    | some e => decide (leading < e)
    | none => false
  let tooLarge := match l.highest with
    | some e => decide (e < leading)
    | none => false
  if tooSmall || tooLarge then l.scientific digits leading else l.positional digits d.exponent

/-- The text of the size of a finite value. -/
def sizeText (l : FloatLayout) (f : BinaryFormat) (significand : Nat) (exponent : Int) : String :=
  if significand = 0 then l.positional ['0'] 0
  else l.decimalText (shortestDecimal f l.ties significand exponent)

def text (l : FloatLayout) (f : BinaryFormat) : BinaryValue → String
  | .nan => l.nan
  | .infinite negative => if negative then l.negativeInfinity else l.infinity
  | .finite negative significand exponent =>
    (if negative then "-" else "") ++ l.sizeText f significand exponent

end FloatLayout

/-- The quotient `n / d` rounded to the nearest whole number, a half to the even one. -/
def roundHalfEven (n d : Nat) : Nat :=
  let q := n / d
  let r := n % d
  if 2 * r < d then q else if d < 2 * r then q + 1 else if q % 2 = 0 then q else q + 1

/-- The size of a finite value with a fixed number of decimals. -/
def fixedText (places significand : Nat) (exponent : Int) : String :=
  let (n, d) := BinaryValue.fraction significand exponent
  let digits := Nat.toDigits 10 (roundHalfEven (n * Nat.pow 10 places) d)
  let padded := List.replicate (places + 1 - digits.length) '0' ++ digits
  if places = 0 then String.ofList padded
  else FloatLayout.withPoint padded (padded.length - places)

end Metrology
