import Metrology.Dimension
import Metrology.Magnitude

/-!
# Factors, quantities, units and origins

These types refer to each other. A product may mix base dimensions, primes, constants, units and
named quantities. A named quantity is the root of a tree or the child of another one and may carry
an equation, a product of other quantities. A unit is one of six forms, with an optional quantity
and an optional origin attached. An origin is absolute, or an exact offset from another origin, or
the zero of a quantity.

A named quantity, a named unit and an origin are identified by their qualified names.
-/

namespace Metrology

mutual

/-- What a product can be made of. -/
inductive Factor where
  | dimension (d : BaseDimension)
  | prime (p : Nat)
  | constant (c : Constant)
  | unit (u : MeasureUnit)
  | quantity (q : NamedQuantity)

/-- A node of a quantity hierarchy. A kind mark starts a kind of its own below that node. -/
inductive NamedQuantity where
  | root (name : String) (equation : Option (List (Term Factor))) (dimension : Dimension)
      (character : Character) (isKind : Bool)
  | child (name : String) (parent : NamedQuantity) (equation : Option (List (Term Factor)))
      (dimension : Dimension) (character : Character) (isKind : Bool)

/-- How a unit is built. -/
inductive UnitForm where
  | one
  | base (name : String) (symbol : Symbol)
  | defined (name : String) (symbol : Symbol) (magnitude : Magnitude) (unit : MeasureUnit)
  | prefixed (symbol : Symbol) (magnitude : Magnitude) (unit : MeasureUnit)
  | scaled (magnitude : Magnitude) (unit : MeasureUnit)
  | derived (recipe : List (Term Factor))

/-- A unit with the quantity it is restricted to and the origin it measures from. -/
inductive MeasureUnit where
  | mk (form : UnitForm) (spec : Option NamedQuantity) (origin : Option PointOrigin)

/-- A zero of a scale. -/
inductive PointOrigin where
  | absolute (name : String)
  | relative (name : String) (base : PointOrigin) (offset : Ratio) (unit : MeasureUnit)
  | zeroth (spec : List (Term Factor)) (kindOf : Bool)

end

/-- A product of any factors. -/
abbrev FactorProduct := PowerProduct Factor

namespace NamedQuantity

def name : NamedQuantity → String
  | .root name .. | .child name .. => name

def parent? : NamedQuantity → Option NamedQuantity
  | .root .. => none
  | .child _ parent .. => some parent

def equation? : NamedQuantity → Option FactorProduct
  | .root _ equation .. | .child _ _ equation .. => equation

def dimension : NamedQuantity → Dimension
  | .root _ _ dimension .. | .child _ _ _ dimension .. => dimension

def character : NamedQuantity → Character
  | .root _ _ _ character _ | .child _ _ _ _ character _ => character

def isKind : NamedQuantity → Bool
  | .root _ _ _ _ isKind | .child _ _ _ _ _ isKind => isKind

/-- Quantities are the same if they have the same name. -/
def same (a b : NamedQuantity) : Bool := a.name == b.name

/-- The node at the top of the tree. -/
def treeRoot (q : NamedQuantity) : NamedQuantity :=
  match q with
  | .root .. => q
  | .child _ parent .. => parent.treeRoot
termination_by structural q

/-- The nearest node from here to the top that is marked as a kind, else the top. -/
def kindRoot (q : NamedQuantity) : NamedQuantity :=
  match q with
  | .root .. => q
  | .child _ parent .. => if q.isKind then q else parent.kindRoot
termination_by structural q

/-- Quantities of one tree are adjacent, and within it those of one kind. -/
def cmp (a b : NamedQuantity) : Ordering :=
  if a.same b then .eq else
    (compareText a.treeRoot.name b.treeRoot.name).then
      ((compareText a.kindRoot.name b.kindRoot.name).then (compareText a.name b.name))

def dimensionlessName : String := "dimensionless"

/-- The quantity of dimension one. -/
def dimensionless : NamedQuantity :=
  .root dimensionlessName (some []) Dimension.one .scalar false

def isDimensionless (q : NamedQuantity) : Bool := q.name == dimensionlessName

def short (q : NamedQuantity) : String := shortName q.name

end NamedQuantity

namespace UnitForm

def rank : UnitForm → Nat
  | .one => 0
  | .base .. | .defined .. => 1
  | .prefixed .. => 2
  | .scaled .. => 3
  | .derived .. => 4

/-- The qualified name of a named unit. -/
def name? : UnitForm → Option String
  | .base name _ | .defined name _ _ _ => some name
  | _ => none

end UnitForm

namespace MeasureUnit

def form : MeasureUnit → UnitForm
  | .mk form _ _ => form

def spec? : MeasureUnit → Option NamedQuantity
  | .mk _ spec _ => spec

def origin? : MeasureUnit → Option PointOrigin
  | .mk _ _ origin => origin

def isOne (u : MeasureUnit) : Bool :=
  match u.form with
  | .one => true
  | _ => false

end MeasureUnit

namespace Factor

def rank : Factor → Nat
  | .dimension _ => 0
  | .prime _ => 1
  | .constant _ => 2
  | .unit _ => 3
  | .quantity _ => 4

/-- The prime one, the unit one and the dimensionless quantity multiply as one. -/
def isNeutral : Factor → Bool
  | .prime p => p == 1
  | .unit u => u.isOne
  | .quantity q => q.isDimensionless
  | _ => false

end Factor

mutual

/-- The order of factors: by sort, and within a sort by what identifies a factor. -/
def Factor.cmp (a b : Factor) : Ordering :=
  match a, b with
  | .dimension d, .dimension e => compareText d.symbol e.symbol
  | .prime p, .prime q => compare p q
  | .constant c, .constant d => c.symbol.cmp d.symbol
  | .unit u, .unit v => MeasureUnit.cmp u v
  | .quantity q, .quantity r => q.cmp r
  | a, b => compare a.rank b.rank
termination_by structural a

/-- The structural order of units: named units by their names, other units by their parts. -/
def MeasureUnit.cmp (a b : MeasureUnit) : Ordering :=
  match a, b with
  | .mk f _ _, .mk g _ _ => UnitForm.cmp f g
termination_by structural a

def UnitForm.cmp (a b : UnitForm) : Ordering :=
  match a, b with
  | .base m _, .base n _ => compareText m n
  | .base m _, .defined n _ _ _ => compareText m n
  | .defined m _ _ _, .base n _ => compareText m n
  | .defined m _ _ _, .defined n _ _ _ => compareText m n
  | .prefixed s _ u, .prefixed t _ v => (MeasureUnit.cmp u v).then (s.cmp t)
  | .scaled m u, .scaled n v => (MeasureUnit.cmp u v).then (PowerProduct.cmp m n)
  | .derived e, .derived f => cmpTerms e f
  | a, b => compare a.rank b.rank
termination_by structural a

/-- Lexicographic order of terms: factor, then power; a proper beginning comes first. -/
def cmpTerms (a b : List (Term Factor)) : Ordering :=
  match a, b with
  | [], [] => .eq
  | [], _ :: _ => .lt
  | _ :: _, [] => .gt
  | s :: e, t :: f => (cmpTerm s t).then (cmpTerms e f)
termination_by structural a

def cmpTerm (a b : Term Factor) : Ordering :=
  match a, b with
  | ⟨f, p⟩, ⟨g, q⟩ => (Factor.cmp f g).then (p.cmp q)
termination_by structural a

end

instance : Atom Factor := ⟨Factor.cmp, Factor.isNeutral⟩

/-- The order inside unit recipes is the order of products. -/
theorem cmpTerms_eq_cmp (a b : FactorProduct) : cmpTerms a b = PowerProduct.cmp a b := by
  induction a generalizing b with
  | nil => cases b <;> rfl
  | cons s e ih =>
    cases b with
    | nil => rfl
    | cons t f =>
      rw [cmpTerms, PowerProduct.cmp, ih f, cmpTerm, Ordering.then_assoc]
      rfl

def MeasureUnit.same (a b : MeasureUnit) : Bool := a.cmp b == .eq

namespace Factor

/-- A base of a magnitude as a factor. -/
def ofMagnitudeBase : MagnitudeBase → Factor
  | .prime p => .prime p
  | .constant c => .constant c

end Factor

namespace FactorProduct

def ofMagnitude (m : Magnitude) : FactorProduct :=
  m.map fun t => ⟨.ofMagnitudeBase t.factor, t.power⟩

def ofDimension (d : Dimension) : FactorProduct := d.map fun t => ⟨.dimension t.factor, t.power⟩

end FactorProduct

mutual

/-- The printed symbol of a unit. In a recipe, factors that are not units have no text. -/
def MeasureUnit.symbolText (ascii : Bool) (u : MeasureUnit) : Except Fault String :=
  match u with
  | .mk form _ _ => UnitForm.symbolText ascii form
termination_by structural u

def UnitForm.symbolText (ascii : Bool) (f : UnitForm) : Except Fault String :=
  match f with
  | .one => .ok ""
  | .base _ symbol => .ok (symbol.text ascii)
  | .defined _ symbol _ _ => .ok (symbol.text ascii)
  | .prefixed symbol _ unit => do return symbol.text ascii ++ (← MeasureUnit.symbolText ascii unit)
  | .scaled magnitude unit => do
    let m ← magnitude.text
    let u ← MeasureUnit.symbolText ascii unit
    return "[" ++ m ++ " " ++ u ++ "]"
  | .derived recipe => do PowerProduct.render ascii (← recipeParts ascii recipe)
termination_by structural f

def recipeParts (ascii : Bool) (recipe : List (Term Factor)) :
    Except Fault (List (String × Ratio)) :=
  match recipe with
  | [] => .ok []
  | t :: rest => do return (← recipePart ascii t) :: (← recipeParts ascii rest)
termination_by structural recipe

def recipePart (ascii : Bool) (t : Term Factor) : Except Fault (String × Ratio) :=
  match t with
  | ⟨factor, power⟩ => do return (← Factor.unitText ascii factor, power)
termination_by structural t

def Factor.unitText (ascii : Bool) (f : Factor) : Except Fault String :=
  match f with
  | .unit u => MeasureUnit.symbolText ascii u
  | _ => .ok ""
termination_by structural f

end

namespace Factor

def text (ascii : Bool) : Factor → Except Fault String
  | .dimension d => .ok d.symbol
  | .prime p => .ok (toString p)
  | .constant c => .ok (c.symbol.text ascii)
  | .unit u => u.symbolText ascii
  | .quantity q => .ok q.short

end Factor

/-- The text of a product of any factors. -/
def FactorProduct.text (ascii : Bool) (e : FactorProduct) : Except Fault String := do
  PowerProduct.render ascii (← e.mapM fun t => do return (← t.factor.text ascii, t.power))

end Metrology
