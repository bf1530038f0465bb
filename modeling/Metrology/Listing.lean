import Metrology.Catalog
import Metrology.Decimal.Field
import Metrology.Interchange

/-!
# The unit listing

One line for each unit of the built-in catalogues: its system, its symbol, its canonical form and
the quantity it measures, in columns or as an object.
-/

namespace Metrology

/-- A line of the listing. -/
structure ListingEntry where
  system : String
  symbol : String
  canonical : CanonicalUnit
  quantity : Option String

namespace ListingEntry

def ofUnit (ascii : Bool) (system : String) (unit : MeasureUnit) : Except Fault ListingEntry := do
  let quantity ← (← unit.quantitySpec?).mapM (·.text ascii)
  return ⟨system, ← unit.symbolText ascii, ← unit.canonical, quantity⟩

/-- A text with blanks after it up to a width. -/
def column (width : Nat) (text : String) : String :=
  text ++ FieldFormat.fill ' ' (width - text.length)

/-- The entry in columns. A unit without a quantity shows a dash. -/
def line (ascii : Bool) (e : ListingEntry) : Except Fault String := do
  let canonical ← e.canonical.text ascii
  return " ".intercalate
    [column 14 e.system, column 8 e.symbol, column 32 canonical, e.quantity.getD "-"]

def jsonText (e : ListingEntry) : Except Fault String := do
  return Json.writeObject
    [("system", Json.quote e.system), ("symbol", Json.quote e.symbol),
      ("canonical", ← e.canonical.jsonText), ("quantity", (e.quantity.map Json.quote).getD "null")]

end ListingEntry

/-- What to list and how. No system stands for all of them. -/
structure ListingOptions where
  ascii : Bool
  json : Bool
  verbosity : Nat
  systems : List String
  deriving DecidableEq, Repr

namespace ListingOptions

def default : ListingOptions := ⟨false, false, 0, []⟩

/-- Whether the units of a system are listed. -/
def includes (o : ListingOptions) (system : String) : Bool :=
  o.systems.isEmpty || o.systems.contains system

/-- The lines of the listing; the first system that there is not is an error. -/
def listing (o : ListingOptions) : Except Failure (List String) := do
  let systems ← liftM Catalog.systems
  let known := systems.map (·.1)
  if let some name := o.systems.find? fun s => !known.contains s then
    throw (.reported (.unknownSystem name))
  let chosen := systems.filter fun (system, _) => o.includes system
  let entries ← liftM <| chosen.mapM fun (system, units) =>
    units.mapM (ListingEntry.ofUnit o.ascii system)
  entries.flatten.mapM fun e =>
    liftM (if o.json then e.jsonText else e.line o.ascii)

end ListingOptions

end Metrology
