import Metrology.Representation
import Metrology.Magnitude.Value

/-!
# Cartesian vectors

Three numbers of one representation, for quantities with a direction. Operations act on the
components in their order.
-/

namespace Metrology

structure Vector3 (ρ : Type) where
  x : ρ
  y : ρ
  z : ρ

namespace Vector3

variable {ρ : Type}

def map (f : ρ → Except Fault ρ) (v : Vector3 ρ) : Except Fault (Vector3 ρ) := do
  return ⟨← f v.x, ← f v.y, ← f v.z⟩

def zipWith (f : ρ → ρ → Except Fault ρ) (v w : Vector3 ρ) : Except Fault (Vector3 ρ) := do
  return ⟨← f v.x w.x, ← f v.y w.y, ← f v.z w.z⟩

def toList (v : Vector3 ρ) : List ρ := [v.x, v.y, v.z]

variable [Scalar ρ]

def add (v w : Vector3 ρ) : Except Fault (Vector3 ρ) := zipWith Scalar.add v w

def sub (v w : Vector3 ρ) : Except Fault (Vector3 ρ) := zipWith Scalar.sub v w

def neg (v : Vector3 ρ) : Except Fault (Vector3 ρ) := v.map Scalar.neg

/-- A vector times a number. -/
def mulBy (v : Vector3 ρ) (k : ρ) : Except Fault (Vector3 ρ) := v.map fun c => Scalar.mul c k

def divBy (v : Vector3 ρ) (k : ρ) : Except Fault (Vector3 ρ) := v.map fun c => Scalar.div c k

/-- The Euclidean length. -/
def norm (v : Vector3 ρ) : ρ :=
  let squares := v.toList.map fun c => wholePower (Scalar.toFloat c) 2
  Scalar.ofFloat (squares.foldl (· + ·) 0).sqrt

/-- The width of a field applies to single numbers only. -/
instance : Representation (Vector3 ρ) where
  isFloating := Representation.isFloating ρ
  supports c := decide (c = .vector)
  zero := ⟨Representation.zero, Representation.zero, Representation.zero⟩
  scale v factor := v.map fun c => Representation.scale c factor
  equal v w := Representation.equal v.x w.x && Representation.equal v.y w.y
    && Representation.equal v.z w.z
  text _ v := "[" ++ ", ".intercalate (v.toList.map (Representation.text .default)) ++ "]"
  detailed v :=
    "CartesianVector([" ++ ", ".intercalate (v.toList.map Representation.detailed) ++ "])"
  interchange v := "[" ++ ",".intercalate (v.toList.map Representation.interchange) ++ "]"

end Vector3

end Metrology
