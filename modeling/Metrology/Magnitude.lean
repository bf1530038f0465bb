import Metrology.PowerProduct.Text
import Metrology.Symbol
import Metrology.Magnitude.Factorization

/-!
# Magnitudes

A magnitude is an exact positive scale factor: a product of rational powers of primes and named
constants. A positive ratio becomes a magnitude through the factorization of its numerator and
denominator, and a magnitude with whole powers of primes only is a ratio again, as long as the
products of its prime powers fit 64 bits.
-/

namespace Metrology

/-- A named irrational number. The symbol identifies it. -/
structure Constant where
  symbol : Symbol
  value : Float

/-- What a magnitude is made of. -/
inductive MagnitudeBase where
  | prime (p : Nat)
  | constant (c : Constant)

namespace MagnitudeBase

/-- Primes in their order come before constants in the order of their symbols. -/
def cmp : MagnitudeBase → MagnitudeBase → Ordering
  | .prime p, .prime q => compare p q
  | .prime _, .constant _ => .lt
  | .constant _, .prime _ => .gt
  | .constant c, .constant d => c.symbol.cmp d.symbol

def isOne : MagnitudeBase → Bool
  | .prime p => p == 1
  | .constant _ => false

def text (ascii : Bool) : MagnitudeBase → String
  | .prime p => toString p
  | .constant c => c.symbol.text ascii

def isPrime : MagnitudeBase → Bool
  | .prime _ => true
  | .constant _ => false

instance : Atom MagnitudeBase := ⟨cmp, isOne⟩

end MagnitudeBase

abbrev Magnitude := PowerProduct MagnitudeBase

namespace Magnitude

def one : Magnitude := []

/-- The product of the prime factors of `n`. -/
def ofNat (n : Nat) : Except Fault Magnitude :=
  PowerProduct.ofTerms ((primeFactors n).map fun p => ⟨.prime p, .one⟩)

def ofRatio (r : Ratio) : Except Fault Magnitude := do
  if r.isPositive then (← ofNat r.num.toNat).div (← ofNat r.den)
  else .error .magnitudeNotPositive

/-- The magnitude of a ratio supplied at run time. -/
def checkedOfRatio (r : Ratio) : Except Failure Magnitude :=
  if r.isPositive then liftM (ofRatio r)
  else .error (.reported (.nonPositive r.text))

def integer (n : Int) : Except Fault Magnitude := do ofRatio (← Ratio.integer n)

def fraction (n d : Int) : Except Fault Magnitude := do ofRatio (← Ratio.new n d)

def constant (c : Constant) : Except Fault Magnitude :=
  PowerProduct.single (.constant c) .one

/-- The number π. -/
def piConstant : Constant := ⟨⟨"\u03c0", "pi"⟩, Float.ofBits 0x400921fb54442d18⟩

def pi : Except Fault Magnitude := constant piConstant

def powerOfInteger (base exponent : Int) : Except Fault Magnitude := do
  (← integer base).pow (← Ratio.integer exponent)

/-- The exact root; fractional powers stay as they are. -/
def root (m : Magnitude) (n : Int) : Except Fault Magnitude := do m.pow (← Ratio.new 1 n)

/-- Whole powers of primes only. -/
def isRational (m : Magnitude) : Bool := m.all fun t => t.factor.isPrime && t.power.isInteger

/-- Rational without a denominator. -/
def isIntegral (m : Magnitude) : Bool := m.all (fun t => !t.power.isNegative) && m.isRational

/-- `start` multiplied `k` times by `p`, as long as it fits 64 bits. -/
def multiplyUp (p : Nat) : Nat → Int → Option Int
  | 0, start => some start
  | k + 1, start => if Fits64 (start * p) then multiplyUp p k (start * p) else none

/-- The product of the prime powers of one sign, each raised to the size of its power. -/
def primeProduct (m : Magnitude) (positive : Bool) : Except Fault (Option Int) :=
  m.foldlM (fun product t =>
    match product, t.factor with
    | some product, .prime p =>
      if t.power.isPositive == positive then do
        return multiplyUp p (← t.power.abs).num.toNat product
      else return some product
    | product, _ => return product) (some 1)

/-- The ratio a magnitude stands for, if there is one. -/
def toRatio? (m : Magnitude) : Except Fault (Option Ratio) := do
  if m.isRational then
    match ← m.primeProduct true, ← m.primeProduct false with
    | some n, some d => return some (← Ratio.new n d)
    | _, _ => return none
  else return none

/-- `start` multiplied `k` times by `p`; a product that does not fit 64 bits is a fault. -/
def multiplyExactly (p : Nat) : Nat → Int → Except Fault Int
  | 0, start => .ok start
  | k + 1, start => if Fits64 (start * p) then multiplyExactly p k (start * p) else .error .overflow

/-- A power of a prime goes into the numerator or the denominator, by its sign. -/
def multiplyFraction (fraction : Int × Int) (t : Term MagnitudeBase) : Except Fault (Int × Int) :=
  match t.factor with
  | .prime p => do
    let size := (← t.power.abs).num.toNat
    if t.power.isPositive then return (← multiplyExactly p size fraction.1, fraction.2)
    else return (fraction.1, ← multiplyExactly p size fraction.2)
  | .constant _ => return fraction

/-- The ratio a magnitude stands for; other magnitudes are faults. -/
def toRatio (m : Magnitude) : Except Fault Ratio := do
  if m.isRational then
    let (n, d) ← m.foldlM multiplyFraction (1, 1)
    Ratio.new n d
  else .error .magnitudeNotRational

/-- The text of a magnitude as a product. -/
def productText (m : Magnitude) : Except Fault String :=
  PowerProduct.textWith false (MagnitudeBase.text false) m

/-- The ratio if there is one, else the product. -/
def text (m : Magnitude) : Except Fault String := do
  match ← m.toRatio? with
  | some r => return r.text
  | none => m.productText

/-- The ratio of a magnitude known at run time only. -/
def checkedToRatio (m : Magnitude) : Except Failure Ratio := do
  if m.isRational then
    match ← liftM m.toRatio? with
    | some r => return r
    | none => throw (.reported (.overflow (← liftM m.text)))
  else throw (.reported (.notRational (← liftM m.text)))

/-- The largest magnitude that divides both: the smaller of the two powers of each base, a missing
base counting as power zero. -/
def common (a b : Magnitude) : Except Fault Magnitude := do
  let shared ← a.foldlM (fun e t =>
    PowerProduct.mulTerm e ⟨t.factor, t.power.min (b.powerOf t.factor)⟩) one
  b.foldlM (fun e t =>
    if (a.powerOf t.factor).isZero then
      PowerProduct.mulTerm e ⟨t.factor, t.power.min .zero⟩
    else return e) shared

end Magnitude

end Metrology
