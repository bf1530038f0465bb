import Metrology.IntegerType
import Metrology.Ratio

/-!
# Products of rational powers

A `PowerProduct` over a type of atoms is a list of terms, each an atom with a power. The operations
keep it canonical: the atoms strictly increase, no power is zero, no atom is neutral, and there are
at most `capacity` terms. A product is then determined by the power it gives to each atom, which is
what `powerOf` reads.
-/

namespace Metrology

/-- Things that can be multiplied: they are ordered, and some of them stand for one. -/
class Atom (α : Type) where
  cmp : α → α → Ordering
  isNeutral : α → Bool

structure Term (α : Type) where
  factor : α
  power : Ratio

abbrev PowerProduct (α : Type) := List (Term α)

namespace PowerProduct

/-- The most factors a product may have. -/
def capacity : Nat := 16

section Shape

variable {α : Type}

/-- The empty product. -/
def one : PowerProduct α := []

def isOne (e : PowerProduct α) : Bool := e.isEmpty

/-- The only factor of a product that is one factor to the first power. -/
def single? : PowerProduct α → Option α
  | [t] => if t.power = .one then some t.factor else none
  | _ => none

/-- Every power multiplied by `power`; the power zero gives the empty product. -/
def pow (e : PowerProduct α) (power : Ratio) : Except Fault (PowerProduct α) :=
  if power.isZero then .ok one
  else e.mapM fun t => do .ok ⟨t.factor, ← t.power.mul power⟩

def inverse (e : PowerProduct α) : Except Fault (PowerProduct α) := e.pow .minusOne

/-- Drop the term at a position, the last one if the position lies beyond it. Positions are 64-bit
words and the search for the position steps past it. -/
def removeAt (e : PowerProduct α) (position : Nat) : Except Fault (PowerProduct α) :=
  if position + 1 = IntegerType.word64.count then .error (.word .add)
  else if e.isEmpty then .error (.word .subtract)
  else if position < e.length then .ok (e.eraseIdx position)
  else .ok e.dropLast

def termAt (e : PowerProduct α) (position : Nat) : Except Fault (Term α) :=
  match e[position]? with
  | some t => .ok t
  | none => .error .termIndexOutOfRange

end Shape

section Algebra

variable {α : Type} [Atom α]

/-- Put a term in its place. A term of an equal atom adds its power to the one already there, which
disappears if the powers cancel. -/
def place (t : Term α) : PowerProduct α → Except Fault (PowerProduct α)
  | [] => .ok [t]
  | s :: rest =>
    match Atom.cmp s.factor t.factor with
    | .lt => do .ok (s :: (← place t rest))
    | .eq => do
      let power ← s.power.add t.power
      .ok (if power.isZero then rest else ⟨s.factor, power⟩ :: rest)
    | .gt => .ok (t :: s :: rest)

/-- Multiply by a single term. -/
def mulTerm (e : PowerProduct α) (t : Term α) : Except Fault (PowerProduct α) := do
  if t.power.isZero || Atom.isNeutral t.factor then
    return e
  let product ← place t e
  if product.length ≤ capacity then .ok product else .error .tooManyFactors

def mul (a b : PowerProduct α) : Except Fault (PowerProduct α) := b.foldlM mulTerm a

def div (a b : PowerProduct α) : Except Fault (PowerProduct α) := do a.mul (← b.inverse)

/-- The canonical product of any list of terms. -/
def ofTerms (terms : List (Term α)) : Except Fault (PowerProduct α) := mul one terms

def single (factor : α) (power : Ratio) : Except Fault (PowerProduct α) :=
  mulTerm one ⟨factor, power⟩

/-- The power of an atom in a product, zero if it does not occur. -/
def powerOf (e : PowerProduct α) (factor : α) : Ratio :=
  match e.find? fun t => Atom.cmp t.factor factor == .eq with
  | some t => t.power
  | none => .zero

/-- Lexicographic order of the terms: atom, then power; a proper beginning comes first. -/
def cmp : PowerProduct α → PowerProduct α → Ordering
  | [], [] => .eq
  | [], _ :: _ => .lt
  | _ :: _, [] => .gt
  | s :: e, t :: f =>
    (Atom.cmp s.factor t.factor).then ((s.power.cmp t.power).then (cmp e f))

/-- Equality of products, atoms being compared by their order. -/
def same (a b : PowerProduct α) : Bool := cmp a b == .eq

end Algebra

end PowerProduct

end Metrology
