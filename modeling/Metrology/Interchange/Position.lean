import Metrology.Decimal.Literal
import Metrology.Json.Reader

/-!
# Positions in messages

A message about a text may end with the place that it is about, as in `... at line 3 column 14`.
Such an ending is a position and not a part of what is said, whoever wrote it. Lines are counted
from one, so a position on line zero is no position, and it is left out when the message is written.
-/

namespace Metrology

/-- What precedes and what follows the last occurrence of a mark. -/
def splitAtLast? (mark : List Char) : List Char → Option (List Char × List Char)
  | [] => none
  | c :: s =>
    match splitAtLast? mark s with
    | some (before, after) => some (c :: before, after)
    | none =>
      if mark.isPrefixOf (c :: s) then some ([], (c :: s).drop mark.length) else none

/-- The text before the last occurrence of a mark, or all of it. -/
def beforeLast (mark text : String) : String :=
  match splitAtLast? mark.toList text.toList with
  | some (before, _) => String.ofList before
  | none => text

structure Position where
  line : Nat
  column : Nat
  deriving DecidableEq, Repr

namespace Position

def lineMark : String := " at line "

def columnMark : String := " column "

/-- A run of digits that fits a 64-bit word. -/
def count? (s : List Char) : Option Nat :=
  match Json.readSomeDigits s with
  | some (digits, []) =>
    let n := DecimalLiteral.digitsValue digits
    if IntegerType.word64.Holds n then some n else none
  | _ => none

/-- A position without the mark in front of its line. -/
def ofText? (s : List Char) : Option Position := do
  let (line, column) ← splitAtLast? columnMark.toList s
  return ⟨← count? line, ← count? column⟩

def text (p : Position) : String :=
  lineMark ++ toString p.line ++ columnMark ++ toString p.column

end Position

/-- A message and the position that it ends with, if any. -/
structure LocatedMessage where
  content : String
  position : Option Position
  deriving DecidableEq, Repr

namespace LocatedMessage

def ofText (s : String) : LocatedMessage :=
  match splitAtLast? Position.lineMark.toList s.toList with
  | none => ⟨s, none⟩
  | some (before, after) =>
    match Position.ofText? after with
    | none => ⟨s, none⟩
    | some p => ⟨String.ofList before, some p⟩

def text (m : LocatedMessage) : String :=
  match m.position with
  | none => m.content
  | some p => if p.line = 0 then m.content else m.content ++ p.text

end LocatedMessage

end Metrology
