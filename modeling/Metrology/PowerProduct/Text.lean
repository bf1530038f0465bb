import Metrology.PowerProduct

/-!
# The text of a product

Factors with a positive power come first, joined by a dot (an asterisk in ASCII). Factors with a
negative power follow after one slash with their powers negated. A power of one is not written,
whole powers are raised digits (`^n` in ASCII), and other powers are written `^(n/d)`. An empty
numerator is written `1`.
-/

namespace Metrology

/-- The raised form of a digit or a minus sign. -/
def raised : Char → Char
  | '0' => '\u2070'
  | '1' => '\u00b9'
  | '2' => '\u00b2'
  | '3' => '\u00b3'
  | '4' => '\u2074'
  | '5' => '\u2075'
  | '6' => '\u2076'
  | '7' => '\u2077'
  | '8' => '\u2078'
  | '9' => '\u2079'
  | _ => '\u207b'

namespace PowerProduct

/-- How a power is written after its factor. -/
def exponentText (power : Ratio) (ascii : Bool) : String :=
  if power.isInteger then
    if power.num = 1 then ""
    else if ascii then s!"^{power.num}"
    else String.ofList ((toString power.num).toList.map raised)
  else s!"^({power.text})"

def separator (ascii : Bool) : String := if ascii then "*" else "\u22c5"

/-- The factors of one sign, written with positive powers. -/
def groupText (ascii positive : Bool) (parts : List (String × Ratio)) : Except Fault String := do
  let chosen := parts.filter fun part => part.2.isPositive == positive
  let written ← chosen.mapM fun part => do
    let power ← if positive then pure part.2 else part.2.neg
    return part.1 ++ exponentText power ascii
  return (separator ascii).intercalate written

/-- The text of a product whose factors are already written. -/
def render (ascii : Bool) (parts : List (String × Ratio)) : Except Fault String := do
  let above ← groupText ascii true parts
  let below ← groupText ascii false parts
  return match above.isEmpty, below.isEmpty with
    | true, true => "1"
    | false, true => above
    | true, false => "1/" ++ below
    | false, false => above ++ "/" ++ below

/-- The text of a product, given the text of an atom. -/
def textWith {α : Type} (ascii : Bool) (text : α → String) (e : PowerProduct α) :
    Except Fault String :=
  render ascii (e.map fun t => (text t.factor, t.power))

end PowerProduct

end Metrology
