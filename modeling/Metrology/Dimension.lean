import Metrology.PowerProduct.Text
import Metrology.Symbol

/-!
# Dimensions

A dimension is a product of powers of base dimensions, and a base dimension is its symbol. Two
systems that use the same symbol share the dimension.
-/

namespace Metrology

structure BaseDimension where
  symbol : String
  deriving DecidableEq, Repr

instance : Atom BaseDimension := ⟨fun a b => compareText a.symbol b.symbol, fun _ => false⟩

abbrev Dimension := PowerProduct BaseDimension

namespace Dimension

def one : Dimension := []

/-- A base dimension to the first power. -/
def base (symbol : String) : Dimension := [⟨⟨symbol⟩, .one⟩]

/-- The symbol of a dimension that is a base dimension. -/
def symbol? (d : Dimension) : Option String := d.single?.map (·.symbol)

def text (ascii : Bool) (d : Dimension) : Except Fault String :=
  PowerProduct.textWith ascii (·.symbol) d

end Dimension

/-- Whether a quantity has no direction, one direction or several. -/
inductive Character where
  | scalar
  | vector
  | tensor
  deriving DecidableEq, Repr

namespace Character

def rank : Character → Nat
  | .scalar => 0
  | .vector => 1
  | .tensor => 2

/-- The richer of two characters. -/
def max (a b : Character) : Character := if a.rank < b.rank then b else a

def name : Character → String
  | .scalar => "Scalar"
  | .vector => "Vector"
  | .tensor => "Tensor"

def all : List Character := [.scalar, .vector, .tensor]

def named? (name : String) : Option Character := all.find? (·.name == name)

end Character

end Metrology
