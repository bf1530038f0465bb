import Metrology.Magnitude
import Metrology.Dimension
import Metrology.Decimal.Field

/-!
# Number representations

What a type has to provide to hold the numerical value of a quantity: scaling by an exact magnitude,
comparison and text. Single numbers also add, multiply and take powers, and can be cast into each
other. Operations that can leave the range of a type may fault.
-/

namespace Metrology

/-- Types that can hold the numerical value of a quantity. -/
class Representation (ρ : Type) where
  isFloating : Bool
  supports : Character → Bool
  zero : ρ
  /-- Multiplication by an exact factor. -/
  scale : ρ → Magnitude → Except Fault ρ
  equal : ρ → ρ → Bool
  text : FieldFormat → ρ → String
  detailed : ρ → String
  interchange : ρ → String

/-- Representations that hold a single number. -/
class Scalar (ρ : Type) extends Representation ρ where
  toFloat : ρ → Float
  ofFloat : Float → ρ
  /-- The value as a whole number, for integer types only. -/
  toInt? : ρ → Option Int
  /-- A whole number reduced to the width of an integer type. -/
  wrap : Int → ρ
  order : ρ → ρ → Option Ordering
  add : ρ → ρ → Except Fault ρ
  sub : ρ → ρ → Except Fault ρ
  mul : ρ → ρ → Except Fault ρ
  div : ρ → ρ → Except Fault ρ
  neg : ρ → Except Fault ρ
  /-- Addition of an exact number. -/
  addRatio : ρ → Ratio → Except Fault ρ
  power : ρ → Ratio → Except Fault ρ
  abs : ρ → ρ

namespace Scalar

variable {ρ σ : Type} [Scalar ρ] [Scalar σ]

def sqrt (v : ρ) : ρ := ofFloat (toFloat v).sqrt

/-- The same number in another representation: whole numbers keep their low bits in an integer type,
everything else goes through floating point. -/
def cast (v : σ) : ρ :=
  match Representation.isFloating ρ, toInt? v with
  | false, some n => wrap n
  | _, _ => ofFloat (toFloat v)

end Scalar

/-- Only single numbers are scalars. -/
def isScalarCharacter (c : Character) : Bool := decide (c = .scalar)

end Metrology
