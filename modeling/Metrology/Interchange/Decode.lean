import Metrology.Interchange.Position
import Metrology.Json.Reader
import Metrology.Quantity.Text
import Metrology.Representation.NumberType
import Metrology.Representation.Vector3

/-!
# Decoding JSON forms

The inverse of the JSON forms. A ratio is built from its two numbers and a quantity has to name the
unit of its reference, and where that fails the reason is reported; everything else that cannot be
decoded is malformed. The value is decoded before the rest of the text is looked at.
-/

namespace Metrology

open Json

inductive DecodeError where
  | malformed
  | reported (cause : UnitError)
  deriving DecidableEq, Repr

/-- The report that decoding failed for some cause. A position at the end of its wording is kept
only if it is on a line. -/
def UnitError.whileDecoding (cause : UnitError) : UnitError :=
  .json (LocatedMessage.ofText cause.message).text

/-- A value or the verdict that there is none. -/
def wellFormed {α : Type} : Option α → Except DecodeError α
  | some a => .ok a
  | none => .error .malformed

/-- Decode a text that holds one value and nothing else. -/
def decodeText {α : Type} (decode : Value → Except DecodeError α) (text : String) :
    Except DecodeError α := do
  let (value, rest) ← wellFormed (read text)
  let decoded ← decode value
  if (skipBlanks rest).isEmpty then return decoded else throw .malformed

/-- One of several named choices. -/
def decodeChoice {α : Type} (name : α → String) (choices : List α) (v : Value) :
    Except DecodeError α :=
  wellFormed (v.unitVariant?.bind fun chosen => choices.find? fun a => name a == chosen)

def Character.decode : Value → Except DecodeError Character := decodeChoice name all

def Convertibility.decode : Value → Except DecodeError Convertibility := decodeChoice name all

def ScalePrefix.decode (choices : List ScalePrefix) : Value → Except DecodeError ScalePrefix :=
  decodeChoice name choices

def Ratio.decode (v : Value) : Except DecodeError Ratio := do
  let parts ← wellFormed (v.tuple? 2)
  let parts ← wellFormed (parts.mapM (Value.integer? IntegerType.int64.low IntegerType.int64.high))
  match parts with
  | [n, d] => Except.mapError .reported (Ratio.checkedNew n d)
  | _ => throw .malformed

/-- A reported error from the name of its kind and what it records. -/
def UnitError.ofContent? (kind : String) (content : Value) : Option UnitError :=
  let texts (fields : Option (List Value)) := fields.bind fun fields => fields.mapM Value.text?
  match kind with
  | "Overflow" => content.text?.map .overflow
  | "NonPositive" => content.text?.map .nonPositive
  | "NotRational" => content.text?.map .notRational
  | "OutOfRange" => content.text?.map .outOfRange
  | "UnknownSystem" => content.text?.map .unknownSystem
  | "Json" => content.text?.map .json
  | "ZeroDenominator" => if content.isNull then some .zeroDenominator else none
  | "Incompatible" =>
    match texts (content.tuple? 2) with
    | some [source, target] => some (.incompatible source target)
    | _ => none
  | "UnitMismatch" =>
    match texts (content.fields? ["expected", "found"]) with
    | some [expected, found] => some (.unitMismatch expected found)
    | _ => none
  | _ => none

def UnitError.decode (v : Value) : Except DecodeError UnitError := do
  let (kind, content) ← wellFormed v.variant?
  wellFormed (UnitError.ofContent? kind (content.getD .null))

/-- A number of a number type. Whole literals have to be in the range of an integer type. -/
def NumberType.decode : (t : NumberType) → Value → Except DecodeError t.Number
  | .integer t, v => wellFormed ((v.integer? t.low t.high).bind FixedInt.ofInt?)
  | .float64, .number literal =>
    wellFormed (literal.value?.map fun
      | .whole n => Float.ofInt n
      | .real x => x)
  | .float32, .number literal =>
    wellFormed (literal.value?.map fun
      | .whole n => Float32.ofInt n
      | .real x => x.toFloat32)
  | _, _ => throw .malformed

def Vector3.decode (t : NumberType) (v : Value) : Except DecodeError (Vector3 t.Number) := do
  match ← (← wellFormed (v.tuple? 3)).mapM t.decode with
  | [x, y, z] => return ⟨x, y, z⟩
  | _ => throw .malformed

/-- A quantity of a reference. Its unit is given by either of the two symbols. -/
def Quantity.decode (t : NumberType) (reference : Reference) (v : Value) :
    Except DecodeError (Quantity t.Number) := do
  let fields ← wellFormed (v.fields? ["value", "unit"])
  let [value, unit] := fields | throw .malformed
  let number ← t.decode value
  let found ← wellFormed unit.text?
  let expected ← wellFormed (reference.unit.symbolText false).toOption
  let fallback ← wellFormed (reference.unit.symbolText true).toOption
  if found == expected || found == fallback then return ⟨number, reference⟩
  else throw (.reported (.unitMismatch expected found))

end Metrology
