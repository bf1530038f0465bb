import Metrology.Representation
import Metrology.Magnitude.Value

/-!
# Floating-point representations

Scaling by a rational magnitude multiplies by the numerator and divides by the denominator in the
width of the number. Other magnitudes go through their floating value, and so do powers.
-/

namespace Metrology

def binaryValue64 (x : Float) : BinaryValue := binary64.decode x.toBits.toNat

def binaryValue32 (x : Float32) : BinaryValue := binary32.decode x.toBits.toNat

instance : Scalar Float where
  isFloating := true
  supports := isScalarCharacter
  zero := 0
  scale v factor := do
    match ← factor.toRatio? with
    | some r =>
      let product := v * Float.ofInt r.num
      return if r.isInteger then product else product / Float.ofNat r.den
    | none => return v * factor.toFloat
  equal := (· == ·)
  text f v := f.float binary64 (binaryValue64 v)
  detailed v := FloatLayout.detailed.text binary64 (binaryValue64 v)
  interchange v := FloatLayout.interchange64.text binary64 (binaryValue64 v)
  toFloat := id
  ofFloat := id
  toInt? _ := none
  wrap := Float.ofInt
  order x y := if x < y then some .lt else if y < x then some .gt
    else if x == y then some .eq else none
  add x y := .ok (x + y)
  sub x y := .ok (x - y)
  mul x y := .ok (x * y)
  div x y := .ok (x / y)
  neg x := .ok (-x)
  addRatio v r := .ok <|
    if r.isInteger then v + Float.ofInt r.num else v + Float.ofInt r.num / Float.ofNat r.den
  power v p := .ok (rationalPower v p)
  abs := Float.abs

instance : Scalar Float32 where
  isFloating := true
  supports := isScalarCharacter
  zero := 0
  scale v factor := do
    match ← factor.toRatio? with
    | some r =>
      let product := v * Float32.ofInt r.num
      return if r.isInteger then product else product / Float32.ofNat r.den
    | none => return (v.toFloat * factor.toFloat).toFloat32
  equal := (· == ·)
  text f v := f.float binary32 (binaryValue32 v)
  detailed v := FloatLayout.detailed.text binary32 (binaryValue32 v)
  interchange v := FloatLayout.interchange32.text binary32 (binaryValue32 v)
  toFloat := Float32.toFloat
  ofFloat := Float.toFloat32
  toInt? _ := none
  wrap := Float32.ofInt
  order x y := if x < y then some .lt else if y < x then some .gt
    else if x == y then some .eq else none
  add x y := .ok (x + y)
  sub x y := .ok (x - y)
  mul x y := .ok (x * y)
  div x y := .ok (x / y)
  neg x := .ok (-x)
  addRatio v r := .ok <|
    if r.isInteger then v + Float32.ofInt r.num
    else v + Float32.ofInt r.num / Float32.ofNat r.den
  power v p := .ok (rationalPower v.toFloat p).toFloat32
  abs := Float32.abs

end Metrology
