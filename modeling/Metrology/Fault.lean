/-!
# Faults and reported errors

Two kinds of failure are kept apart. A `Fault` is an operation used outside its domain: exact
arithmetic that leaves the 64-bit range, a product with too many factors, units that cannot be
converted. A `UnitError` is a failure reported to a caller who supplied the value at run time. Both
record the cause; the wording lives in one function for each.
-/

namespace Metrology

/-- Operations on machine integers that refuse to wrap. A power is one operation: one that overflows is
refused as a power, not as the multiplication at which it left the range. -/
inductive WordOperation where
  | add
  | subtract
  | multiply
  | negate
  | divide
  | exponentiate
  deriving DecidableEq, Repr

def WordOperation.verb : WordOperation → String
  | .add => "add"
  | .subtract => "subtract"
  | .multiply => "multiply"
  | .negate => "negate"
  | .divide => "divide"
  | .exponentiate => "exponentiate"

/-- Why a quantity, a conversion or a comparison of points is refused before any number is looked
at. -/
inductive Mismatch where
  | unitOfOtherKind
  | characterNotSupported
  | notImplicit
  | wouldTruncate
  | notExplicit
  | notCastable
  | originsUnrelated
  deriving DecidableEq, Repr

def Mismatch.message : Mismatch → String
  | .unitOfOtherKind => "unit cannot express quantities of this kind"
  | .characterNotSupported => "representation does not match the character of the quantity"
  | .notImplicit => "quantity is not implicitly convertible"
  | .wouldTruncate => "conversion would truncate the value"
  | .notExplicit => "quantity is not explicitly convertible"
  | .notCastable => "quantities are not castable"
  | .originsUnrelated => "points do not share an absolute origin"

/-- Why an operation has no result. -/
inductive Fault where
  | overflow
  | zeroDenominator
  | ratioDividedByZero
  | tooManyFactors
  | termIndexOutOfRange
  | magnitudeNotPositive
  | magnitudeNotRational
  | equationWithoutParent
  | equationOfOtherDimension
  | equationNotConvertible
  | noCommonBase
  | definitionOfUnnamedUnit
  | prefixOfUnnamedUnit
  | unitsNotConvertible
  | noCommonUnit
  | noCommonSpec
  | noAssociatedSpec
  | offsetNotRational
  | mismatch (cause : Mismatch)
  | doesNotFit (value : Int) (width : String)
  | word (operation : WordOperation)
  | wordDividedByZero
  | searchUnfinished
  deriving DecidableEq, Repr

def Fault.message : Fault → String
  | .overflow => "integer overflow in magnitude arithmetic"
  | .zeroDenominator => "zero denominator in ratio"
  | .ratioDividedByZero => "division of ratio by zero"
  | .tooManyFactors => "expression exceeds the maximum number of factors"
  | .termIndexOutOfRange => "expression term index out of range"
  | .magnitudeNotPositive => "magnitude must be positive"
  | .magnitudeNotRational => "magnitude is not a rational number"
  | .equationWithoutParent => "only child quantities refine an equation"
  | .equationOfOtherDimension => "equation does not match the dimension of the parent"
  | .equationNotConvertible => "equation is not convertible to the parent quantity"
  | .noCommonBase => "quantities have no common base"
  | .definitionOfUnnamedUnit => "only named units carry a definition"
  | .prefixOfUnnamedUnit => "prefixes apply to named units only"
  | .unitsNotConvertible => "units are not convertible"
  | .noCommonUnit => "units have no common unit"
  | .noCommonSpec => "quantities have no common quantity spec"
  | .noAssociatedSpec => "unit is not associated with a quantity spec"
  | .offsetNotRational => "origin offset is not a rational number of units"
  | .mismatch cause => cause.message
  | .doesNotFit value width => s!"{value} does not fit in {width}"
  | .word operation => s!"attempt to {operation.verb} with overflow"
  | .wordDividedByZero => "attempt to divide by zero"
  | .searchUnfinished => "conversion search does not finish"

/-- Whether a fault arises from the numbers an operation is applied to, rather than from what they
count. -/
def Fault.isNumeric : Fault → Bool
  | .doesNotFit .. | .word _ | .wordDividedByZero => true
  | _ => false

/-- Failures reported for values supplied at run time. -/
inductive UnitError where
  | overflow (calculation : String)
  | zeroDenominator
  | nonPositive (ratio : String)
  | notRational (magnitude : String)
  | incompatible (source target : String)
  | unitMismatch (expected found : String)
  | outOfRange (value : String)
  | unknownSystem (name : String)
  | json (description : String)
  deriving DecidableEq, Repr

def UnitError.message : UnitError → String
  | .overflow calculation => s!"integer overflow in exact arithmetic: {calculation}"
  | .zeroDenominator => "zero denominator in ratio"
  | .nonPositive ratio => s!"magnitude must be positive, got {ratio}"
  | .notRational magnitude => s!"magnitude {magnitude} is not a rational number"
  | .incompatible source target => s!"Incompatible units: {source} <-> {target}"
  | .unitMismatch expected found => s!"unit mismatch: expected {expected}, found {found}"
  | .outOfRange value => s!"value {value} is out of range for the target representation"
  | .unknownSystem name => s!"Unknown unit system: {name}"
  | .json description => s!"JSON error: {description}"

/-- The kind of a reported error, as it is named in its JSON form. -/
def UnitError.kind : UnitError → String
  | .overflow _ => "Overflow"
  | .zeroDenominator => "ZeroDenominator"
  | .nonPositive _ => "NonPositive"
  | .notRational _ => "NotRational"
  | .incompatible _ _ => "Incompatible"
  | .unitMismatch _ _ => "UnitMismatch"
  | .outOfRange _ => "OutOfRange"
  | .unknownSystem _ => "UnknownSystem"
  | .json _ => "Json"

/-- Any failure of an operation that can both fault and report. -/
inductive Failure where
  | fault (cause : Fault)
  | reported (cause : UnitError)
  deriving DecidableEq, Repr

instance : MonadLift (Except Fault) (Except Failure) where
  monadLift := Except.mapError .fault

instance : MonadLift (Except UnitError) (Except Failure) where
  monadLift := Except.mapError .reported

end Metrology
