import Metrology.Convertibility
import Metrology.Hierarchy

/-!
# The conversion search

Two named quantities of one tree are compared by their places in it. Products are compared by
pairing their ingredients: factors of the same tree and the same sign are paired and their common
power is taken out, and when no pair is left the most complex ingredient is replaced by its
equation. The search is bounded by the number of quantities such replacements can visit.
-/

namespace Metrology

namespace NamedQuantity

/-- Conversion within one tree: towards an ancestor, towards a descendant, or across. -/
def convertibleInTree (source target : NamedQuantity) : Convertibility :=
  let sameKind := source.kindRoot.same target.kindRoot
  if source.same target then .yes
  else if source.isChildOf target then
    if sameKind then .yes else .explicitBeyondKind
  else if target.isChildOf source then .explicit
  else if sameKind then .cast
  else .no

/-- The equation of a quantity. An equation that is only inherited gives an explicit conversion. -/
def explode? (q : NamedQuantity) : Option (FactorProduct × Convertibility) :=
  q.equation?.map fun equation => (equation, if q.definesEquation then .yes else .explicit)

end NamedQuantity

/-- A quantity at a position of a product. -/
structure Ingredient where
  position : Nat
  quantity : NamedQuantity
  power : Ratio

namespace Ingredient

def complexity (i : Ingredient) : Nat := i.quantity.complexity

end Ingredient

namespace FactorProduct

/-- The quantities of one sign in a product, with their positions. -/
def ingredients (e : FactorProduct) (positive : Bool) : List Ingredient :=
  e.zipIdx.filterMap fun (t, position) =>
    match t.factor with
    | .quantity q => if t.power.isPositive == positive then some ⟨position, q, t.power⟩ else none
    | _ => none

/-- How many factors of one sign a product has. -/
def count (e : FactorProduct) (positive : Bool) : Nat :=
  e.countP fun t => t.power.isPositive == positive

/-- A product with the factor at a position replaced by a power of its equation. -/
def replaceAt (e : FactorProduct) (i : Ingredient) (equation : FactorProduct) :
    Except Fault FactorProduct := do
  let power ← PowerProduct.pow equation i.power
  PowerProduct.mul (← PowerProduct.removeAt e i.position) power

end FactorProduct

/-- The first of the most complex elements of a list. -/
def firstMaximal {α : Type} (measure : α → Nat) (items : List α) : Option α :=
  items.foldl (fun best item =>
    match best with
    | some b => if measure item ≤ measure b then some b else some item
    | none => some item) none

/-- Replace the most complex ingredients by their equations until the product is no more complex
than `complexity`. The grade is that of the weakest replacement. -/
def explodeTo (complexity : Nat) :
    Nat → FactorProduct → Convertibility → Except Fault (FactorProduct × Convertibility)
  | 0, e, grade => .ok (e, grade)
  | fuel + 1, e, grade =>
    if productComplexity e ≤ complexity then .ok (e, grade)
    else
      let choices := e.ingredients true ++ e.ingredients false
      match firstMaximal Ingredient.complexity choices with
      | none => .ok (e, grade)
      | some i =>
        match i.quantity.explode? with
        | none => .ok (e, grade)
        | some (equation, step) => do
          let power ← PowerProduct.pow equation i.power
          let next ← PowerProduct.mul (← PowerProduct.removeAt e i.position) power
          explodeTo complexity fuel next (grade.min step)

/-- What pairing two ingredients leaves. -/
structure Pairing where
  grade : Convertibility
  source : FactorProduct
  target : FactorProduct

/-- The smaller of two powers of one sign, by their sizes. -/
def sharedPower (positive : Bool) (a b : Ratio) : Except Fault Ratio :=
  if positive then .ok (a.min b) else do ((← a.neg).min (← b.neg)).neg

/-- Pair the first ingredients of one sign that belong to one tree, and take out the smaller of
their powers. -/
def extractPair (source target : FactorProduct) (positive : Bool) :
    Except Fault (Option Pairing) := do
  let pairs := (source.ingredients positive).flatMap fun i =>
    (target.ingredients positive).map fun j => (i, j)
  match pairs.find? fun (i, j) => i.quantity.haveCommonBase j.quantity with
  | none => return none
  | some (i, j) =>
    let grade := i.quantity.convertibleInTree j.quantity
    if grade = .no then return some ⟨.no, source, target⟩
    let shared ← sharedPower positive i.power j.power
    let restSource ← PowerProduct.mulTerm source ⟨.quantity i.quantity, ← shared.neg⟩
    let restTarget ← PowerProduct.mulTerm target ⟨.quantity j.quantity, ← shared.neg⟩
    return some ⟨grade, restSource, restTarget⟩

/-- The four places an ingredient can stand in; earlier places win ties. -/
inductive Side where
  | sourceAbove
  | sourceBelow
  | targetAbove
  | targetBelow
  deriving DecidableEq

/-- The most complex ingredient of either product. -/
def mostComplex (source target : FactorProduct) : Option (Side × Ingredient) :=
  firstMaximal (fun choice => choice.2.complexity)
    ((source.ingredients true).map (Side.sourceAbove, ·) ++
      (source.ingredients false).map (Side.sourceBelow, ·) ++
      (target.ingredients true).map (Side.targetAbove, ·) ++
      (target.ingredients false).map (Side.targetBelow, ·))

/-- A question of the search: about two specifications, or about the ingredients of two products. -/
inductive Question where
  | specs (source target : QuantitySpec)
  | products (source target : FactorProduct)

namespace Question

/-- The search with a bound on the number of nested questions. -/
def answer : Nat → Question → Except Fault Convertibility
  | 0, _ => .error .searchUnfinished
  | fuel + 1, .specs source target => do
    if source.same target then return .yes
    let sourceDimension ← source.dimension
    let targetDimension ← target.dimension
    if !PowerProduct.same sourceDimension targetDimension then return .no
    if source.isKindOf || target.isKindOf then
      let targetRoot ← target.kindTreeRoot
      if source.isKindOf then
        let sourceRoot ← source.kindTreeRoot
        let grade ← answer fuel (.specs sourceRoot targetRoot)
        return if grade = .explicit then .yes else grade
      else answer fuel (.specs source targetRoot)
    else match source.named?, target.named? with
      | some p, some q =>
        if p.haveCommonBase q then return p.convertibleInTree q
        else if !p.kindRoot.same q.kindRoot then return .no
        else if p.complexity > q.complexity then
          let (e, _) ← explodeTo q.complexity p.expansion (QuantitySpec.named p).product .yes
          answer fuel (.specs (.ofProduct e) (.named q))
        else if p.complexity < q.complexity then
          let (e, grade) ← explodeTo p.complexity q.expansion (QuantitySpec.named q).product .yes
          return grade.min (← answer fuel (.specs (.named p) (.ofProduct e)))
        else return .no
      | _, _ => answer fuel (.products source.product target.product)
  | fuel + 1, .products source target => do
    if source.count true = source.count false ∧ target.isEmpty then return .yes
    if source.isEmpty ∧ target.count true = target.count false ∧ 1 ≤ target.count true then
      return .explicit
    if let some pairing ← extractPair source target true then
      if pairing.grade = .no then return .no
      return pairing.grade.min (← answer fuel (.products pairing.source pairing.target))
    if let some pairing ← extractPair source target false then
      if pairing.grade = .no then return .no
      return pairing.grade.min (← answer fuel (.products pairing.source pairing.target))
    let some (side, i) := mostComplex source target | return .no
    -- A lone ingredient may still be a dimensionless quantity.
    if side = .sourceAbove ∧ target.isEmpty then
      let grade ← answer fuel (.specs (.named i.quantity) .dimensionless)
      if grade ≠ .no then
        let rest ← PowerProduct.removeAt source i.position
        return grade.min (← answer fuel (.products rest target))
    if side = .targetAbove ∧ source.isEmpty then
      let grade ← answer fuel (.specs .dimensionless (.named i.quantity))
      if grade ≠ .no then
        let rest ← PowerProduct.removeAt target i.position
        return grade.min (← answer fuel (.products source rest))
    if i.complexity = 0 then return .no
    let some (equation, step) := i.quantity.explode? | return .no
    match side with
    | .sourceAbove => answer fuel (.products (← source.replaceAt i equation) target)
    | .sourceBelow =>
      return step.min (← answer fuel (.products (← source.replaceAt i equation) target))
    | .targetAbove | .targetBelow =>
      return step.min (← answer fuel (.products source (← target.replaceAt i equation)))

end Question

namespace QuantitySpec

/-- The number of quantities that replacements can visit from a specification or from the root of its
kind. -/
def reach (s : QuantitySpec) : Nat :=
  s.product.foldl (fun total t =>
    total + match t.factor with
      | .quantity q => q.expansion + q.kindRoot.expansion
      | _ => 1) 0

/-- How many nested questions the search for two specifications may ask. -/
def searchBound (source target : QuantitySpec) : Nat := 16 * (source.reach + target.reach) + 256

/-- How freely a quantity of specification `source` becomes one of specification `target`. -/
def convertible (source target : QuantitySpec) : Except Fault Convertibility :=
  Question.answer (searchBound source target) (.specs source target)

def implicitlyConvertible (source target : QuantitySpec) : Except Fault Bool := do
  return (← source.convertible target) = .yes

def explicitlyConvertible (source target : QuantitySpec) : Except Fault Bool := do
  return (← source.convertible target).atLeast .explicitBeyondKind

def castable (source target : QuantitySpec) : Except Fault Bool := do
  return (← source.convertible target).atLeast .cast

def interconvertible (a b : QuantitySpec) : Except Fault Bool := do
  if ← a.implicitlyConvertible b then b.implicitlyConvertible a else return false

end QuantitySpec

end Metrology
