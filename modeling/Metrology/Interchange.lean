import Metrology.Json.Quoted
import Metrology.MeasureUnit.Canonical
import Metrology.PointOrigin
import Metrology.Convertibility
import Metrology.ScalePrefix
import Metrology.Decimal.Layout

/-!
# JSON forms

A ratio is a list of numerator and denominator, a product a list of its terms, and dimensions,
magnitudes, specifications and units are quoted texts.
-/

namespace Metrology

open Json

def Ratio.jsonText (r : Ratio) : String := writeList [toString r.num, toString r.den]

def Symbol.jsonText (s : Symbol) : String :=
  writeObject [("unicode", quote s.unicode), ("ascii", quote s.ascii)]

def Constant.jsonText (c : Constant) : String :=
  let value := binary64.decode c.value.toBits.toNat
  writeObject [("symbol", c.symbol.jsonText),
    ("value", FloatLayout.interchange64.text binary64 value)]

/-- A term with its factor in Unicode. -/
def termJson (t : Term Factor) : Except Fault String := do
  return writeObject [("factor", quote (← t.factor.text false)), ("power", t.power.jsonText)]

def FactorProduct.jsonText (e : FactorProduct) : Except Fault String := do
  return writeList (← e.mapM termJson)

def Magnitude.jsonText (m : Magnitude) : Except Fault String := do return quote (← m.text)

def Dimension.jsonText (d : Dimension) : Except Fault String := do
  return quote (← Dimension.text false d)

def QuantitySpec.jsonText (s : QuantitySpec) : Except Fault String := do
  return quote (← s.text false)

def MeasureUnit.jsonText (u : MeasureUnit) : Except Fault String := do
  return quote (← u.symbolText false)

def CanonicalUnit.jsonText (c : CanonicalUnit) : Except Fault String := do
  let magnitude ← Magnitude.jsonText c.magnitude
  return writeObject [("magnitude", magnitude), ("reference", ← FactorProduct.jsonText c.reference)]

def Character.jsonText (c : Character) : String := quote c.name

def Convertibility.jsonText (c : Convertibility) : String := quote c.name

def ScalePrefix.jsonText (p : ScalePrefix) : String := quote p.name

def UnitError.jsonText (e : UnitError) : String :=
  let content := match e with
    | .zeroDenominator => none
    | .overflow text | .nonPositive text | .notRational text | .outOfRange text
    | .unknownSystem text | .json text => some (quote text)
    | .incompatible source target => some (writeList [quote source, quote target])
    | .unitMismatch expected found =>
      some (writeObject [("expected", quote expected), ("found", quote found)])
  match content with
  | none => quote e.kind
  | some written => writeObject [(e.kind, written)]

end Metrology
