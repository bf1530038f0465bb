import Metrology.IntegerType
import Metrology.Representation
import Metrology.Magnitude.Value

/-!
# Integer representations

Integers of eight widths. Scaling by a rational magnitude and adding a ratio compute the exact
result, truncate it towards zero and fault if it does not fit the width. A scale whose ratio does
not fit 64 bits goes through floating point and saturates. Whole powers are exact in 128 bits and
then keep the low bits.
-/

namespace Metrology

/-- A number of an integer type. -/
structure FixedInt (t : IntegerType) where
  value : Int
  holds : t.Holds value
  deriving DecidableEq

namespace FixedInt

variable {t : IntegerType}

def ofInt? (n : Int) : Option (FixedInt t) := if h : t.Holds n then some ⟨n, h⟩ else none

/-- A number that has to fit the width. -/
def narrow (n : Int) : Except Fault (FixedInt t) :=
  if h : t.Holds n then .ok ⟨n, h⟩ else .error (.doesNotFit n t.name)

/-- The result of a machine operation, which must not overflow. -/
def checked (operation : WordOperation) (n : Int) : Except Fault (FixedInt t) :=
  if h : t.Holds n then .ok ⟨n, h⟩ else .error (.word operation)

def wrap (n : Int) : FixedInt t := ⟨t.reduce n, t.holds_reduce n⟩

def saturate (n : Int) : FixedInt t := ⟨t.clamp n, t.holds_clamp n⟩

def zero : FixedInt t := wrap 0

def toFloat (v : FixedInt t) : Float := Float.ofInt v.value

/-- A floating-point number truncated towards zero and clamped. -/
def ofFloat (x : Float) : FixedInt t :=
  saturate ((binary64.decode x.toBits.toNat).truncateInto t.low t.high)

def scale (v : FixedInt t) (factor : Magnitude) : Except Fault (FixedInt t) := do
  match ← factor.toRatio? with
  | some r => narrow ((v.value * r.num).tdiv r.den)
  | none => return ofFloat (v.toFloat * factor.toFloat)

def addRatio (v : FixedInt t) (r : Ratio) : Except Fault (FixedInt t) :=
  narrow ((v.value * r.den + r.num).tdiv r.den)

/-- The power of a number if it fits a signed 128-bit integer. -/
def power128? (base : Int) (n : Nat) : Option Int :=
  if base.natAbs ≤ 1 then some (if n = 0 then 1 else if n % 2 = 0 then base * base else base)
  else if n < 128 then
    let power := Int.pow base n
    let bound : Int := Nat.pow 2 127
    if -bound ≤ power ∧ power < bound then some power else none
  else none

/-- Whole exponents from zero on are reduced to 32 bits and the power to the width of the type. -/
def power (v : FixedInt t) (p : Ratio) : Except Fault (FixedInt t) :=
  if p.isInteger && !p.isNegative then
    match power128? v.value (IntegerType.word32.reduce p.num).toNat with
    | some n => .ok (wrap n)
    | none => .error (.word .exponentiate)
  else .ok (ofFloat (v.toFloat.pow p.toFloat))

def div (a b : FixedInt t) : Except Fault (FixedInt t) :=
  if b.value = 0 then .error .wordDividedByZero else checked .divide (a.value.tdiv b.value)

def abs (v : FixedInt t) : FixedInt t := if v.value < 0 then wrap (-v.value) else v

instance : Scalar (FixedInt t) where
  isFloating := false
  supports := isScalarCharacter
  zero := zero
  scale := scale
  equal a b := a.value == b.value
  text f v := f.integer v.value
  detailed v := toString v.value
  interchange v := toString v.value
  toFloat := toFloat
  ofFloat := ofFloat
  toInt? v := some v.value
  wrap := wrap
  order a b := some (compare a.value b.value)
  add a b := checked .add (a.value + b.value)
  sub a b := checked .subtract (a.value - b.value)
  mul a b := checked .multiply (a.value * b.value)
  div := div
  neg a := checked .negate (-a.value)
  addRatio := addRatio
  power := power
  abs := abs

end FixedInt

end Metrology
