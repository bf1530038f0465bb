import Metrology.Representation.Floating
import Metrology.Representation.FixedInt

/-!
# The number types and their common types

Some pairs of number types may be mixed in one operation, which then takes place in their common
type.
-/

namespace Metrology

inductive NumberType where
  | float64
  | float32
  | integer (t : IntegerType)
  deriving DecidableEq, Repr

namespace NumberType

def all : List NumberType := [.float64, .float32] ++ IntegerType.all.map .integer

def name : NumberType → String
  | .float64 => "f64"
  | .float32 => "f32"
  | .integer t => t.name

def named? (name : String) : Option NumberType := all.find? (·.name == name)

/-- The numbers of a type. -/
abbrev Number : NumberType → Type
  | .float64 => Float
  | .float32 => Float32
  | .integer t => FixedInt t

instance : (t : NumberType) → Scalar t.Number
  | .float64 => inferInstanceAs (Scalar Float)
  | .float32 => inferInstanceAs (Scalar Float32)
  | .integer t => inferInstanceAs (Scalar (FixedInt t))

/-- Whether a number type has negative numbers. -/
def isSigned : NumberType → Bool
  | .integer t => t.isSigned
  | _ => true

/-- The common type of two different types, in one order. -/
def mixed? : NumberType → NumberType → Option NumberType
  | .float32, .float64 => some .float64
  | .integer .int32, .float64 => some .float64
  | .integer .int64, .float64 => some .float64
  | .integer .word32, .float64 => some .float64
  | .integer .int32, .float32 => some .float32
  | .integer .int32, .integer .int64 => some (.integer .int64)
  | .integer .word32, .integer .word64 => some (.integer .word64)
  | .integer .word32, .integer .int64 => some (.integer .int64)
  | _, _ => none

/-- The type in which two numbers are combined. -/
def common? (s t : NumberType) : Option NumberType :=
  if s = t then some s else (mixed? s t).or (mixed? t s)

end NumberType

end Metrology
