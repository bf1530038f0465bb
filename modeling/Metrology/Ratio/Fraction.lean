import Metrology.Ratio

/-!
# Ratios in machine words

A fraction is how a ratio is stored: its numerator and its denominator, each a signed 64-bit integer. Its
arithmetic multiplies crosswise in signed 128-bit integers and divides by the greatest common divisor
afterwards. Every operation on 128-bit integers is checked here, and a result out of their range is a
fault of its own.
-/

namespace Metrology

/-- The range of a signed 128-bit integer. -/
def Fits128 (n : Int) : Prop :=
  -170141183460469231731687303715884105728 ≤ n ∧ n ≤ 170141183460469231731687303715884105727

instance (n : Int) : Decidable (Fits128 n) := inferInstanceAs (Decidable (_ ∧ _))

/-- The result of an operation on signed 128-bit integers. -/
def word128 (operation : WordOperation) (n : Int) : Except Fault Int :=
  if Fits128 n then .ok n else .error (.word operation)

/-- The quotient of two signed 128-bit integers, rounded toward zero. -/
def divide128 (n d : Int) : Except Fault Int :=
  if d = 0 then .error .wordDividedByZero else word128 .divide (n.tdiv d)

/-- The signed 128-bit integer that has the bits of an unsigned one. -/
def signed128 (n : Nat) : Int := (n : Int).bmod 340282366920938463463374607431768211456

/-- Euclid's algorithm. -/
def commonDivisor (a b : Nat) : Nat :=
  if b = 0 then a else commonDivisor b (a % b)
termination_by b
decreasing_by exact Nat.mod_lt a (Nat.pos_of_ne_zero ‹_›)

structure Fraction where
  num : Int
  den : Int
  deriving DecidableEq, Repr

namespace Fraction

def zero : Fraction := ⟨0, 1⟩
def one : Fraction := ⟨1, 1⟩

def integer (n : Int) : Fraction := ⟨n, 1⟩

def text (f : Fraction) : String :=
  if f.den = 1 then toString f.num else s!"{f.num}/{f.den}"

/-! ### Reduction -/

/-- The sign of a fraction belongs to its numerator. -/
def signAbove (n d : Int) : Except Fault (Int × Int) :=
  if d < 0 then do return (← word128 .negate (-n), ← word128 .negate (-d))
  else .ok (n, d)

/-- Lowest terms as a fraction, if they fit 64 bits. -/
def fitted (terms : Int × Int) : Option Fraction :=
  if 9223372036854775807 < terms.1 ∨ terms.1 < -9223372036854775808 ∨ 9223372036854775807 < terms.2 then
    none
  else some ⟨terms.1, terms.2⟩

/-- The lowest terms of a wide fraction. There are none for the denominator zero, nor if they do not
fit 64 bits. -/
def tryReduce (num den : Int) : Except Fault (Option Fraction) :=
  if den = 0 then .ok none
  else if num = 0 then .ok (some zero)
  else do
    let g := signed128 (commonDivisor num.natAbs den.natAbs)
    return fitted (← signAbove (← divide128 num g) (← divide128 den g))

def reduce (num den : Int) : Except Fault Fraction := do
  match ← tryReduce num den with
  | some f => return f
  | none => .error .overflow

def new (num den : Int) : Except Fault Fraction := do
  match ← tryReduce num den with
  | some f => return f
  | none => .error (if den = 0 then .zeroDenominator else .overflow)

/-! ### Wide results -/

/-- Numerator and denominator of the sum before reduction. -/
def wideSum (a b : Fraction) : Except Fault (Int × Int) := do
  let left ← word128 .multiply (a.num * b.den)
  let right ← word128 .multiply (b.num * a.den)
  return (← word128 .add (left + right), ← word128 .multiply (a.den * b.den))

def wideProduct (a b : Fraction) : Except Fault (Int × Int) := do
  return (← word128 .multiply (a.num * b.num), ← word128 .multiply (a.den * b.den))

def wideQuotient (a b : Fraction) : Except Fault (Int × Int) := do
  return (← word128 .multiply (a.num * b.den), ← word128 .multiply (a.den * b.num))

/-! ### Arithmetic -/

/-- Fractions are equal field by field. -/
def same (a b : Fraction) : Bool := a.num == b.num && a.den == b.den

def cmp (a b : Fraction) : Except Fault Ordering := do
  let left ← word128 .multiply (a.num * b.den)
  let right ← word128 .multiply (b.num * a.den)
  return if left < right then .lt else if right < left then .gt else .eq

/-- The smaller of two fractions. -/
def min (a b : Fraction) : Except Fault Fraction := do
  match ← a.cmp b with
  | .gt => return b
  | _ => return a

def neg (a : Fraction) : Except Fault Fraction :=
  if Fits64 (-a.num) then .ok ⟨-a.num, a.den⟩ else .error .overflow

def abs (a : Fraction) : Except Fault Fraction :=
  if a.num < 0 then a.neg else .ok a

def add (a b : Fraction) : Except Fault Fraction := do
  let wide ← a.wideSum b
  reduce wide.1 wide.2

def sub (a b : Fraction) : Except Fault Fraction := do a.add (← b.neg)

def mul (a b : Fraction) : Except Fault Fraction := do
  let wide ← a.wideProduct b
  reduce wide.1 wide.2

def div (a b : Fraction) : Except Fault Fraction := do
  if b.num = 0 then .error .ratioDividedByZero
  else
    let wide ← a.wideQuotient b
    reduce wide.1 wide.2

def recip (a : Fraction) : Except Fault Fraction := one.div a

/-! ### Arithmetic with reported errors -/

/-- The lowest terms of a wide result, reporting the calculation when they do not fit. -/
def report (calculation : String) (wide : Except Fault (Int × Int)) : Except Failure Fraction := do
  let terms ← liftM wide
  match ← liftM (tryReduce terms.1 terms.2) with
  | some f => return f
  | none => .error (.reported (.overflow calculation))

def checkedNew (num den : Int) : Except Failure Fraction :=
  if den = 0 then .error (.reported .zeroDenominator)
  else report s!"{num}/{den}" (.ok (num, den))

def checkedAdd (a b : Fraction) : Except Failure Fraction :=
  report s!"{a.text} + {b.text}" (a.wideSum b)

def checkedMul (a b : Fraction) : Except Failure Fraction :=
  report s!"{a.text} * {b.text}" (a.wideProduct b)

def checkedDiv (a b : Fraction) : Except Failure Fraction :=
  if b.num = 0 then .error (.reported .zeroDenominator)
  else report s!"{a.text} / {b.text}" (a.wideQuotient b)

end Fraction

end Metrology
