/-!
# Integer types

The fixed-width integers that numbers are stored in: four widths, each with a sign and without. A
type is known by how many numbers it has; half of the numbers of a signed type are negative. Any
whole number is brought into a type in one of two ways, by its low bits or by the nearest number.
-/

namespace Metrology

inductive IntegerType where
  | int8
  | int16
  | int32
  | int64
  | word8
  | word16
  | word32
  | word64
  deriving DecidableEq, Repr

namespace IntegerType

def all : List IntegerType := [.int8, .int16, .int32, .int64, .word8, .word16, .word32, .word64]

def name : IntegerType → String
  | .int8 => "i8"
  | .int16 => "i16"
  | .int32 => "i32"
  | .int64 => "i64"
  | .word8 => "u8"
  | .word16 => "u16"
  | .word32 => "u32"
  | .word64 => "u64"

/-- How many numbers the type has. -/
def count : IntegerType → Nat
  | .int8 | .word8 => 256
  | .int16 | .word16 => 65536
  | .int32 | .word32 => 4294967296
  | .int64 | .word64 => 18446744073709551616

def isSigned : IntegerType → Bool
  | .int8 | .int16 | .int32 | .int64 => true
  | _ => false

/-- The least number of the type. -/
def low (t : IntegerType) : Int := if t.isSigned then -(t.count / 2) else 0

/-- The greatest number of the type. -/
def high (t : IntegerType) : Int := t.low + t.count - 1

def Holds (t : IntegerType) (n : Int) : Prop := t.low ≤ n ∧ n ≤ t.high

instance (t : IntegerType) (n : Int) : Decidable (t.Holds n) :=
  inferInstanceAs (Decidable (_ ∧ _))

/-- The number of the type that agrees with `n` in the low bits. -/
def reduce (t : IntegerType) (n : Int) : Int :=
  if t.isSigned then n.bmod t.count else n % t.count

/-- The number of the type that is nearest to `n`. -/
def clamp (t : IntegerType) (n : Int) : Int := max t.low (min t.high n)

theorem low_le_high (t : IntegerType) : t.low ≤ t.high := by cases t <;> decide

theorem holds_reduce (t : IntegerType) (n : Int) : t.Holds (t.reduce n) := by
  cases t <;> simp only [Holds, reduce, low, high, isSigned, count, Int.bmod] <;> grind

theorem holds_clamp (t : IntegerType) (n : Int) : t.Holds (t.clamp n) := by
  have := t.low_le_high
  simp only [Holds, clamp]
  omega

end IntegerType

end Metrology
