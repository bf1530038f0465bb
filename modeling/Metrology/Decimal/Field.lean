import Metrology.Decimal.Layout

/-!
# Fields of numbers

A number is written with an optional number of decimals and then padded to a width. Zeros go between
the sign and the digits, stars to both sides with the larger part on the right, and blanks to the
left or to the right.
-/

namespace Metrology

inductive Alignment where
  | blanksLeft
  | blanksRight
  | zerosAfterSign
  | starsAround
  deriving DecidableEq, Repr

structure FieldFormat where
  align : Alignment
  /-- Whether numbers that are not negative get a plus sign. -/
  plus : Bool
  /-- Whether symbols are written in ASCII. -/
  ascii : Bool
  width : Nat
  places : Option Nat
  deriving Repr

namespace FieldFormat

def default : FieldFormat := ⟨.blanksLeft, false, false, 0, none⟩

/-- The format that a single flag asks for; no flag asks for the default one. -/
def ofFlag? : String → Option FieldFormat
  | "" => some default
  | "#" => some { default with ascii := true }
  | "+" => some { default with plus := true }
  | "0" => some { default with align := .zerosAfterSign }
  | "<" => some { default with align := .blanksRight }
  | "^" => some { default with align := .starsAround }
  | _ => none

def fill (c : Char) (n : Nat) : String := String.ofList (List.replicate n c)

/-- A sign and a body, padded to the width. -/
def pad (f : FieldFormat) (sign body : String) : String :=
  let missing := f.width - (sign.length + body.length)
  match f.align with
  | .blanksLeft => fill ' ' missing ++ sign ++ body
  | .zerosAfterSign => sign ++ fill '0' missing ++ body
  | .blanksRight => sign ++ body ++ fill ' ' missing
  | .starsAround =>
    fill '*' (missing / 2) ++ sign ++ body ++ fill '*' (missing - missing / 2)

/-- The sign of a number. -/
def signText (f : FieldFormat) (negative : Bool) : String :=
  if negative then "-" else if f.plus then "+" else ""

/-- A whole number. Decimals do not apply to it. -/
def integer (f : FieldFormat) (n : Int) : String :=
  f.pad (f.signText (decide (n < 0))) (toString n.natAbs)

/-- A floating-point number. Not a number has no sign. -/
def float (f : FieldFormat) (format : BinaryFormat) (v : BinaryValue) : String :=
  match v with
  | .nan => f.pad "" FloatLayout.plain.nan
  | .infinite negative => f.pad (f.signText negative) FloatLayout.plain.infinity
  | .finite negative significand exponent =>
    f.pad (f.signText negative) <| match f.places with
      | some places => fixedText places significand exponent
      | none => FloatLayout.plain.sizeText format significand exponent

end FieldFormat

end Metrology
