import Metrology.Convertibility.Search

/-!
# The common specification of two operands

An addition or a comparison takes place in a specification that both operands convert to
implicitly: one of the two, their closest common ancestor, or the root of the kind of one of them.
-/

namespace Metrology

namespace QuantitySpec

/-- Which of two interconvertible specifications stands for both: one that is no kind, else one that
is named, else the first in the order of products. -/
def preferred (a b : QuantitySpec) : QuantitySpec :=
  if a.isKindOf && !b.isKindOf then b
  else if !a.isKindOf && b.isKindOf then a
  else
    let aNamed := a.named?.isSome
    let bNamed := b.named?.isSome
    if aNamed && !bNamed then a
    else if !aNamed && bNamed then b
    else if PowerProduct.cmp a.product b.product == .gt then b
    else a

/-- The closest common ancestor of two named quantities of one tree, if both convert to it. -/
def commonAncestor? (a b : QuantitySpec) (p q : NamedQuantity) :
    Except Fault (Option QuantitySpec) := do
  let base := named (← p.commonBase q)
  if ← a.implicitlyConvertible base then
    if ← b.implicitlyConvertible base then return some base
  return none

/-- The root of the kind of one operand, if that of the other converts to it. -/
def commonKindRoot? (a b : QuantitySpec) : Except Fault (Option QuantitySpec) := do
  let aRoot ← a.kindTreeRoot
  let bRoot ← b.kindTreeRoot
  if ← aRoot.implicitlyConvertible bRoot then return some bRoot
  if ← bRoot.implicitlyConvertible aRoot then return some aRoot
  return none

/-- The specification both operands convert to implicitly, if there is one. -/
def common? (a b : QuantitySpec) : Except Fault (Option QuantitySpec) := do
  if a.same b then return some a
  let forth ← a.implicitlyConvertible b
  let back ← b.implicitlyConvertible a
  if forth && back then return some (preferred a b)
  if forth then return some b
  if back then return some a
  match a.named?, b.named? with
  | some p, some q =>
    if p.haveCommonBase q then commonAncestor? a b p q else commonKindRoot? a b
  | _, _ => commonKindRoot? a b

end QuantitySpec

end Metrology
