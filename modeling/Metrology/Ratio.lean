import Metrology.Fault

/-!
# Exact ratios

A `Ratio` is a rational number whose lowest terms fit a signed 64-bit numerator and a positive
signed 64-bit denominator. Every operation computes the exact rational first and then asks whether
it fits, so there is one limit and it is part of the type. Subtraction adds the negation, and the
negation has to fit as well: the smallest numerator has none.
-/

namespace Metrology

/-- The range of a signed 64-bit integer. -/
def Fits64 (n : Int) : Prop := -9223372036854775808 ≤ n ∧ n ≤ 9223372036854775807

instance (n : Int) : Decidable (Fits64 n) := inferInstanceAs (Decidable (_ ∧ _))

/-- The numerator and the denominator of `q` in lowest terms are 64-bit integers. -/
def RatFits (q : Rat) : Prop := Fits64 q.num ∧ Fits64 q.den

instance (q : Rat) : Decidable (RatFits q) := inferInstanceAs (Decidable (_ ∧ _))

structure Ratio where
  value : Rat
  fits : RatFits value
  deriving DecidableEq

namespace Ratio

/-- The ratio of value `q`, if there is one. -/
def ofRat? (q : Rat) : Option Ratio :=
  if h : RatFits q then some ⟨q, h⟩ else none

/-- The ratio of value `q`; a value out of range is an overflow. -/
def ofRat (q : Rat) : Except Fault Ratio :=
  match ofRat? q with
  | some r => .ok r
  | none => .error .overflow

def zero : Ratio := ⟨0, by decide⟩
def one : Ratio := ⟨1, by decide⟩
def minusOne : Ratio := ⟨-1, by decide⟩

instance : Inhabited Ratio := ⟨zero⟩

def num (r : Ratio) : Int := r.value.num
def den (r : Ratio) : Nat := r.value.den

def integer (n : Int) : Except Fault Ratio := ofRat n

def new (n d : Int) : Except Fault Ratio :=
  if d = 0 then .error .zeroDenominator else ofRat (Rat.divInt n d)

def isZero (r : Ratio) : Bool := r.num == 0
def isInteger (r : Ratio) : Bool := r.den == 1
def isPositive (r : Ratio) : Bool := decide (0 < r.num)
def isNegative (r : Ratio) : Bool := decide (r.num < 0)

/-- The order of the rationals. -/
def cmp (a b : Ratio) : Ordering :=
  if a.value < b.value then .lt else if b.value < a.value then .gt else .eq

/-- The smaller of two ratios. -/
def min (a b : Ratio) : Ratio :=
  match a.cmp b with
  | .gt => b
  | _ => a

def neg (a : Ratio) : Except Fault Ratio := ofRat (-a.value)

def abs (a : Ratio) : Except Fault Ratio :=
  if a.isNegative then a.neg else .ok a

def add (a b : Ratio) : Except Fault Ratio := ofRat (a.value + b.value)

def sub (a b : Ratio) : Except Fault Ratio := do a.add (← b.neg)

def mul (a b : Ratio) : Except Fault Ratio := ofRat (a.value * b.value)

def div (a b : Ratio) : Except Fault Ratio :=
  if b.isZero then .error .ratioDividedByZero else ofRat (a.value / b.value)

def recip (a : Ratio) : Except Fault Ratio := one.div a

/-- The nearest binary64 numbers to numerator and denominator, divided. -/
def toFloat (r : Ratio) : Float := Float.ofInt r.num / Float.ofNat r.den

def text (r : Ratio) : String :=
  if r.isInteger then toString r.num else s!"{r.num}/{r.den}"

/-- The fraction `n/d`, with every failure reported. -/
def checkedNew (n d : Int) : Except UnitError Ratio :=
  if d = 0 then .error .zeroDenominator
  else match ofRat? (Rat.divInt n d) with
    | some r => .ok r
    | none => .error (.overflow s!"{n}/{d}")

/-- A result of the calculation `a symbol b`, reporting that calculation when it does not fit. -/
def report (a : Ratio) (symbol : String) (b : Ratio) (q : Rat) : Except UnitError Ratio :=
  match ofRat? q with
  | some r => .ok r
  | none => .error (.overflow s!"{a.text} {symbol} {b.text}")

def checkedAdd (a b : Ratio) : Except UnitError Ratio := report a "+" b (a.value + b.value)

def checkedMul (a b : Ratio) : Except UnitError Ratio := report a "*" b (a.value * b.value)

def checkedDiv (a b : Ratio) : Except UnitError Ratio :=
  if b.isZero then .error .zeroDenominator else report a "/" b (a.value / b.value)

end Ratio

/-- Multiply two 64-bit integers, refusing to wrap. -/
def multiply64 (a b : Int) : Except Fault Int :=
  if Fits64 (a * b) then .ok (a * b) else .error .overflow

end Metrology
