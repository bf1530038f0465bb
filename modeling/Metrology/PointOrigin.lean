import Metrology.MeasureUnit.Canonical
import Metrology.QuantitySpec

/-!
# Point origins

An origin is absolute, or an exact offset from another origin, or the zero of a quantity. Following
the offsets leads to the root of the scale, and their sum, converted to one unit, is the distance
from it.
-/

namespace Metrology

namespace PointOrigin

/-- The zero of a quantity. -/
def ofSpec (s : QuantitySpec) : PointOrigin := .zeroth s.product s.isKindOf

def spec? : PointOrigin → Option QuantitySpec
  | .zeroth product isKindOf => some ⟨product, isKindOf⟩
  | _ => none

def name : PointOrigin → String
  | .absolute name => name
  | .relative name .. => name
  | .zeroth .. => "zeroth"

/-- Zeros of quantities are the same if the quantities are, other origins if their names are. -/
def same (a b : PointOrigin) : Bool :=
  match a.spec?, b.spec? with
  | some s, some t => s.same t
  | _, _ => a.name == b.name

def short (o : PointOrigin) : String := shortName o.name

/-- The origin at the end of the chain of offsets. -/
def root (o : PointOrigin) : PointOrigin :=
  match o with
  | .relative _ base _ _ => base.root
  | _ => o
termination_by structural o

/-- The distance from the root as an exact number of units. -/
def offsetIn (unit : MeasureUnit) (o : PointOrigin) : Except Fault Ratio :=
  match o with
  | .relative _ base offset offsetUnit => do
    let factor ← offsetUnit.conversionFactor unit
    let some ratio ← factor.toRatio? | throw .offsetNotRational
    let below ← base.offsetIn unit
    below.add (← offset.mul ratio)
  | _ => .ok .zero
termination_by structural o

def text (o : PointOrigin) : Except Fault String :=
  match o.spec? with
  | some s => do return "zeroth<" ++ (← s.text false) ++ ">"
  | none => .ok o.short

end PointOrigin

end Metrology
