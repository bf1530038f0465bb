import Metrology.Decimal.Binary

/-!
# Shortest decimal digits

Every real number close enough to a binary value is rounded to it. Among the decimals in that
interval the shortest is wanted, and among equally short ones the nearest to the value. On a grid of
multiples of a power of ten only the two neighbours of the value have to be looked at: if any grid
point lies in the interval, so does one of them. Where the value is halfway between the two, a rule
for ties decides.
-/

namespace Metrology

/-- A decimal `digits * 10 ^ exponent`. -/
structure Decimal where
  digits : Nat
  exponent : Int
  deriving DecidableEq, Repr

namespace Decimal

/-- The same decimal without trailing zeros, at most `fuel` of them. -/
def normalize : Nat → Decimal → Decimal
  | 0, d => d
  | fuel + 1, d =>
    if d.digits ≠ 0 ∧ d.digits % 10 = 0 then normalize fuel ⟨d.digits / 10, d.exponent + 1⟩ else d

/-- How many decimal digits a number has. -/
def digitCount (n : Nat) : Nat := (Nat.toDigits 10 n).length

end Decimal

/-- Which of two decimals at the same distance from a value is taken. -/
inductive TieRule where
  | larger
  | evenDigit
  deriving DecidableEq, Repr

/-- Whether the lower one of two neighbours at the same distance is taken. -/
def TieRule.takesLower (rule : TieRule) (lower : Nat) : Bool :=
  match rule with
  | .larger => false
  | .evenDigit => lower % 2 == 0

/-- A value with the interval of the reals that are rounded to it, all over one denominator. The
ends belong to the interval if `closed`. -/
structure RoundingInterval where
  low : Nat
  value : Nat
  high : Nat
  denominator : Nat
  closed : Bool
  deriving Repr

namespace RoundingInterval

/-- The interval of a positive value. The gap below a power of two is half as wide as the one above
it, except where the exponent is the least. -/
def ofBinary (f : BinaryFormat) (significand : Nat) (exponent : Int) : RoundingInterval :=
  let unit := Nat.pow 2 exponent.toNat
  let narrow := significand = Nat.pow 2 f.fractionBits ∧ exponent ≠ f.minExponent
  { low := (4 * significand - if narrow then 1 else 2) * unit
    value := 4 * significand * unit
    high := (4 * significand + 2) * unit
    denominator := 4 * Nat.pow 2 (-exponent).toNat
    closed := significand % 2 = 0 }

/-- The same interval measured in units of `10 ^ exponent`. -/
def inUnits (i : RoundingInterval) (exponent : Int) : RoundingInterval :=
  let up := Nat.pow 10 (-exponent).toNat
  { i with
    low := i.low * up
    value := i.value * up
    high := i.high * up
    denominator := i.denominator * Nat.pow 10 exponent.toNat }

/-- Whether a whole number of units lies in the interval. -/
def contains (i : RoundingInterval) (n : Nat) : Bool :=
  let scaled := n * i.denominator
  if i.closed then decide (i.low ≤ scaled ∧ scaled ≤ i.high)
  else decide (i.low < scaled ∧ scaled < i.high)

/-- The whole number of units in the interval that is next to the value. -/
def nearest? (i : RoundingInterval) (rule : TieRule) : Option Nat :=
  let below := i.value / i.denominator
  let above := below + 1
  let middle := (below + above) * i.denominator
  match i.contains below, i.contains above with
  | true, true =>
    let lower := 2 * i.value < middle ∨ 2 * i.value = middle ∧ rule.takesLower below
    some (if lower then below else above)
  | true, false => some below
  | false, true => some above
  | false, false => none

/-- The exponent of the leading decimal digit of the value. -/
def leadingExponent (i : RoundingInterval) : Int :=
  if i.denominator ≤ i.value then Decimal.digitCount (i.value / i.denominator) - 1
  else -Decimal.digitCount (i.denominator / i.value)

/-- The first hit on the grids of finer and finer powers of ten. -/
def search (i : RoundingInterval) (rule : TieRule) : Nat → Int → Decimal
  | 0, exponent => ⟨(i.inUnits exponent).value / (i.inUnits exponent).denominator, exponent⟩
  | fuel + 1, exponent =>
    match (i.inUnits exponent).nearest? rule with
    | some digits => ⟨digits, exponent⟩
    | none => search i rule fuel (exponent - 1)

end RoundingInterval

/-- Twenty digits identify every value of the formats in use. -/
def maxSearchedDigits : Nat := 20

/-- The shortest decimal that is rounded to a positive value, the nearest of the shortest. -/
def shortestDecimal (f : BinaryFormat) (rule : TieRule) (significand : Nat) (exponent : Int) :
    Decimal :=
  let i := RoundingInterval.ofBinary f significand exponent
  (i.search rule maxSearchedDigits i.leadingExponent).normalize maxSearchedDigits

end Metrology
