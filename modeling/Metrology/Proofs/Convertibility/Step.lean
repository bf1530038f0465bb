import Metrology.Proofs.Convertibility.Fuel

/-!
# One step of the search

A step of the search answers a question by putting others to `ask`. With the search itself as `ask` this
is the search, one question deeper; with another `ask` it shows which answers a step depends on.
-/

namespace Metrology

namespace Question

section Steps

variable (ask : Question → Except Fault Convertibility)

/-- A kind is replaced by its root, and an explicit conversion of the root is enough. -/
def stepKinds (source target : QuantitySpec) : Except Fault Convertibility := do
  let targetRoot ← target.kindTreeRoot
  if source.isKindOf then
    let sourceRoot ← source.kindTreeRoot
    let grade ← ask (.specs sourceRoot targetRoot)
    return if grade = .explicit then .yes else grade
  else ask (.specs source targetRoot)

/-- Outside a common tree the more complex quantity is replaced by equations. -/
def stepNamed (p q : NamedQuantity) : Except Fault Convertibility := do
  if p.haveCommonBase q then return p.convertibleInTree q
  else if !p.kindRoot.same q.kindRoot then return .no
  else if p.complexity > q.complexity then
    let (e, _) ← explodeTo q.complexity p.expansion (QuantitySpec.named p).product .yes
    ask (.specs (.ofProduct e) (.named q))
  else if p.complexity < q.complexity then
    let (e, grade) ← explodeTo p.complexity q.expansion (QuantitySpec.named q).product .yes
    return grade.min (← ask (.specs (.named p) (.ofProduct e)))
  else return .no

def stepPairing (pairing : Pairing) : Except Fault Convertibility := do
  if pairing.grade = .no then return .no
  return pairing.grade.min (← ask (.products pairing.source pairing.target))

def stepReplacement (source target : FactorProduct) (side : Side) (i : Ingredient) :
    Except Fault Convertibility := do
  if i.complexity = 0 then return .no
  let some (equation, step) := i.quantity.explode? | return .no
  match side with
  | .sourceAbove => ask (.products (← source.replaceAt i equation) target)
  | .sourceBelow => return step.min (← ask (.products (← source.replaceAt i equation) target))
  | .targetAbove | .targetBelow =>
    return step.min (← ask (.products source (← target.replaceAt i equation)))

/-- An ingredient that converts to the dimensionless quantity, or that one to it, is removed. -/
def stepLone (lone : Question) (removed : Except Fault FactorProduct) (next : FactorProduct → Question)
    (otherwise : Except Fault Convertibility) : Except Fault Convertibility := do
  let grade ← ask lone
  if grade ≠ .no then
    let rest ← removed
    return grade.min (← ask (next rest))
  else otherwise

def stepTarget (source target : FactorProduct) (side : Side) (i : Ingredient) :
    Except Fault Convertibility :=
  if side = .targetAbove ∧ source.isEmpty then
    stepLone ask (.specs .dimensionless (.named i.quantity)) (PowerProduct.removeAt target i.position)
      (.products source ·) (stepReplacement ask source target side i)
  else stepReplacement ask source target side i

def stepIngredient (source target : FactorProduct) (side : Side) (i : Ingredient) :
    Except Fault Convertibility :=
  if side = .sourceAbove ∧ target.isEmpty then
    stepLone ask (.specs (.named i.quantity) .dimensionless) (PowerProduct.removeAt source i.position)
      (.products · target) (stepTarget ask source target side i)
  else stepTarget ask source target side i

/-- Specifications of one dimension are compared by their kinds, their names or their factors. -/
def stepSpecs (source target : QuantitySpec) : Except Fault Convertibility := do
  if source.same target then return .yes
  let sourceDimension ← source.dimension
  let targetDimension ← target.dimension
  if !PowerProduct.same sourceDimension targetDimension then return .no
  if source.isKindOf || target.isKindOf then stepKinds ask source target
  else match source.named?, target.named? with
    | some p, some q => stepNamed ask p q
    | _, _ => ask (.products source.product target.product)

/-- Factors of one tree are paired first, and what is left is removed or replaced. -/
def stepProducts (source target : FactorProduct) : Except Fault Convertibility := do
  if source.count true = source.count false ∧ target.isEmpty then return .yes
  if source.isEmpty ∧ target.count true = target.count false ∧ 1 ≤ target.count true then
    return .explicit
  if let some pairing ← extractPair source target true then return ← stepPairing ask pairing
  if let some pairing ← extractPair source target false then return ← stepPairing ask pairing
  let some (side, i) := mostComplex source target | return .no
  stepIngredient ask source target side i

def step : Question → Except Fault Convertibility
  | .specs source target => stepSpecs ask source target
  | .products source target => stepProducts ask source target

end Steps

theorem answer_succ (n : Nat) (q : Question) : answer (n + 1) q = step (answer n) q := by
  cases q with
  | specs source target => rfl
  | products source target => rfl

end Question

end Metrology
