import Metrology.Interchange
import Metrology.Quantity

/-!
# The texts of a quantity

A quantity is printed as its number, formatted as asked for, and the symbol of its unit after a
blank. The unit one has no symbol and leaves no blank.
-/

namespace Metrology

namespace Quantity

variable {ρ : Type} [Representation ρ]

def text (f : FieldFormat) (q : Quantity ρ) : Except Fault String := do
  let number := Representation.text f q.value
  let symbol ← q.unit.symbolText f.ascii
  return if symbol.isEmpty then number else number ++ " " ++ symbol

/-- All parts of a quantity under their names. -/
def detailed (q : Quantity ρ) : Except Fault String := do
  let unit := Json.quote (← q.unit.symbolText false)
  let spec := Json.quote (← q.spec.text false)
  return "Quantity \x7b value: " ++ Representation.detailed q.value ++ ", unit: " ++ unit
    ++ ", spec: " ++ spec ++ " \x7d"

/-- The interchange form: the number and the symbol of the unit. -/
def jsonText (q : Quantity ρ) : Except Fault String := do
  return Json.writeObject
    [("value", Representation.interchange q.value), ("unit", ← q.unit.jsonText)]

end Quantity

end Metrology
