/-!
# Grades of convertibility

How freely a quantity of one specification may become a quantity of another, from not at all to
implicitly. The grades are linearly ordered.
-/

namespace Metrology

inductive Convertibility where
  /-- Not at all. -/
  | no
  /-- Only by a cast between quantities of one kind. -/
  | cast
  /-- Explicitly, leaving the kind of the source. -/
  | explicitBeyondKind
  /-- Explicitly. -/
  | explicit
  /-- Implicitly. -/
  | yes
  deriving DecidableEq, Repr

namespace Convertibility

def rank : Convertibility → Nat
  | .no => 0
  | .cast => 1
  | .explicitBeyondKind => 2
  | .explicit => 3
  | .yes => 4

def atLeast (a b : Convertibility) : Bool := decide (b.rank ≤ a.rank)

/-- The less permissive of two grades. -/
def min (a b : Convertibility) : Convertibility := if a.rank ≤ b.rank then a else b

def cmp (a b : Convertibility) : Ordering := compare a.rank b.rank

def name : Convertibility → String
  | .no => "No"
  | .cast => "Cast"
  | .explicitBeyondKind => "ExplicitBeyondKind"
  | .explicit => "Explicit"
  | .yes => "Yes"

def all : List Convertibility := [.no, .cast, .explicitBeyondKind, .explicit, .yes]

def named? (name : String) : Option Convertibility := all.find? (·.name == name)

end Convertibility

end Metrology
