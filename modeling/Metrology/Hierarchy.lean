import Metrology.QuantitySpec

/-!
# Quantity hierarchies

Queries on the trees of named quantities: depth, ancestors, the closest common ancestor, kind roots,
and how often a quantity can be replaced by its equation.
-/

namespace Metrology

namespace NamedQuantity

/-- The number of steps to the top of the tree. -/
def depth (q : NamedQuantity) : Nat :=
  match q with
  | .root .. => 0
  | .child _ parent .. => parent.depth + 1
termination_by structural q

/-- The ancestor `steps` levels up, or the top if there are not as many. -/
def advance (q : NamedQuantity) (steps : Nat) : NamedQuantity :=
  match q, steps with
  | .root .., _ => q
  | _, 0 => q
  | .child _ parent .., n + 1 => parent.advance n
termination_by structural q

def haveCommonBase (a b : NamedQuantity) : Bool := a.treeRoot.same b.treeRoot

/-- Climb both paths, which are level, until they meet. -/
def meet (a b : NamedQuantity) : Except Fault NamedQuantity :=
  match a, b with
  | .child _ p .., .child _ q .. => if a.same b then .ok a else meet p q
  | _, _ => if a.same b then .ok a else .error .noCommonBase
termination_by structural a

/-- The closest common ancestor: the deeper quantity is brought level with the other first. -/
def commonBase (a b : NamedQuantity) : Except Fault NamedQuantity :=
  if a.depth > b.depth then meet (a.advance (a.depth - b.depth)) b
  else meet a (b.advance (b.depth - a.depth))

/-- `a` lies strictly below `b`. -/
def isChildOf (a b : NamedQuantity) : Bool :=
  decide (a.depth > b.depth) && (a.advance (a.depth - b.depth)).same b

/-- False only for a child that has the equation of its parent. -/
def definesEquation (q : NamedQuantity) : Bool :=
  match q.parent?.bind (·.equation?), q.equation? with
  | some inherited, some own => !PowerProduct.same inherited own
  | _, _ => true

end NamedQuantity

mutual

/-- How many times in a row a quantity can be replaced by its equation. -/
def NamedQuantity.complexity (q : NamedQuantity) : Nat :=
  match q with
  | .root name equation .. =>
    if name == NamedQuantity.dimensionlessName then 0 else equationComplexity equation
  | .child name _ equation .. =>
    if name == NamedQuantity.dimensionlessName then 0 else equationComplexity equation
termination_by structural q

def equationComplexity (e : Option (List (Term Factor))) : Nat :=
  match e with
  | none => 0
  | some terms => 1 + productComplexity terms
termination_by structural e

/-- The complexity of the most complex quantity in a product. -/
def productComplexity (e : List (Term Factor)) : Nat :=
  match e with
  | [] => 0
  | t :: rest => max (termComplexity t) (productComplexity rest)
termination_by structural e

def termComplexity (t : Term Factor) : Nat :=
  match t with
  | ⟨factor, _⟩ => factor.complexity
termination_by structural t

def Factor.complexity (f : Factor) : Nat :=
  match f with
  | .quantity q => q.complexity
  | _ => 0
termination_by structural f

end

mutual

/-- The number of quantities that replacing a quantity and everything in it by equations visits. -/
def NamedQuantity.expansion (q : NamedQuantity) : Nat :=
  match q with
  | .root _ equation .. => equationExpansion equation + 1
  | .child _ _ equation .. => equationExpansion equation + 1
termination_by structural q

def equationExpansion (e : Option (List (Term Factor))) : Nat :=
  match e with
  | none => 0
  | some terms => productExpansion terms
termination_by structural e

def productExpansion (e : List (Term Factor)) : Nat :=
  match e with
  | [] => 0
  | t :: rest => termExpansion t + productExpansion rest
termination_by structural e

def termExpansion (t : Term Factor) : Nat :=
  match t with
  | ⟨factor, _⟩ => factor.expansion
termination_by structural t

def Factor.expansion (f : Factor) : Nat :=
  match f with
  | .quantity q => q.expansion
  | _ => 1
termination_by structural f

end

namespace QuantitySpec

/-- Every quantity replaced by the root of its kind. A specification that is a kind stands for its
product. -/
def kindTreeRoot (s : QuantitySpec) : Except Fault QuantitySpec := do
  if s.isKindOf then return s.removeKind
  let terms := s.product.map fun t =>
    match t.factor with
    | .quantity q => ⟨.quantity q.kindRoot, t.power⟩
    | _ => t
  return ofProduct (← PowerProduct.ofTerms terms)

/-- The kind a specification belongs to. -/
def kind (s : QuantitySpec) : Except Fault QuantitySpec := do return (← s.kindTreeRoot).kindOf

def complexity (s : QuantitySpec) : Nat := productComplexity s.product

end QuantitySpec

end Metrology
