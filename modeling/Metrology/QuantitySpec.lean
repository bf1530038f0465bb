import Metrology.Factor

/-!
# Quantity specifications

A specification is a product of named quantities, optionally marked as the kind of that product. A
single named quantity to the first power is that quantity, and the empty product is the
dimensionless quantity. Factors that are not quantities carry no dimension and no character.
-/

namespace Metrology

structure QuantitySpec where
  product : FactorProduct
  isKindOf : Bool

namespace QuantitySpec

def dimensionless : QuantitySpec := ⟨[], false⟩

def ofProduct (product : FactorProduct) : QuantitySpec := ⟨product, false⟩

/-- A named quantity as a specification; the dimensionless one is the empty product. -/
def named (q : NamedQuantity) : QuantitySpec :=
  ofProduct (if q.isDimensionless then [] else [⟨.quantity q, .one⟩])

/-- The kind of this quantity. -/
def kindOf (s : QuantitySpec) : QuantitySpec := { s with isKindOf := true }

def removeKind (s : QuantitySpec) : QuantitySpec := { s with isKindOf := false }

/-- The named quantity a specification stands for. -/
def named? (s : QuantitySpec) : Option NamedQuantity :=
  if s.product.isOne then some .dimensionless
  else match s.product.single? with
    | some (.quantity q) => some q
    | _ => none

/-- A product is a kind only if both operands are. -/
def mul (a b : QuantitySpec) : Except Fault QuantitySpec := do
  return ⟨← PowerProduct.mul a.product b.product, a.isKindOf && b.isKindOf⟩

def div (a b : QuantitySpec) : Except Fault QuantitySpec := do
  return ⟨← PowerProduct.div a.product b.product, a.isKindOf && b.isKindOf⟩

def pow (s : QuantitySpec) (power : Ratio) : Except Fault QuantitySpec := do
  return { s with product := ← PowerProduct.pow s.product power }

def inverse (s : QuantitySpec) : Except Fault QuantitySpec := s.pow .minusOne

/-- The product of the dimensions of the quantities. -/
def dimension (s : QuantitySpec) : Except Fault Dimension :=
  s.product.foldlM (fun d t =>
    match t.factor with
    | .quantity q => do PowerProduct.mul d (← PowerProduct.pow q.dimension t.power)
    | _ => return d) Dimension.one

/-- The richest character among the quantities whose power has the given sign. -/
def groupCharacter (s : QuantitySpec) (positive : Bool) : Character :=
  s.product.foldl (fun c t =>
    match t.factor with
    | .quantity q => if t.power.isPositive == positive then c.max q.character else c
    | _ => c) .scalar

/-- A named quantity has its own character. A product is a scalar if numerator and denominator have
the same character, else it has the richer of the two. -/
def character (s : QuantitySpec) : Character :=
  match s.named? with
  | some q => q.character
  | none =>
    let above := s.groupCharacter true
    let below := s.groupCharacter false
    if above = below then .scalar else above.max below

def same (a b : QuantitySpec) : Bool :=
  a.isKindOf == b.isKindOf && PowerProduct.same a.product b.product

def text (ascii : Bool) (s : QuantitySpec) : Except Fault String := do
  let inner ← match s.named? with
    | some q => pure q.short
    | none => PowerProduct.textWith ascii (fun
      | .quantity q => q.short
      | _ => "") s.product
  return if s.isKindOf then "kind_of<" ++ inner ++ ">" else inner

end QuantitySpec

end Metrology
