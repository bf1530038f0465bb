import Metrology.Decimal.Literal

/-!
# Structured values

What a text in the interchange format holds. Numbers are kept as they are written. A text whose
escapes do not form Unicode characters has no content: it may stand where nobody reads it. The
accessors say which values are read as a record, a tuple or one of several variants.
-/

namespace Metrology.Json

inductive Value where
  | null
  | bool (b : Bool)
  | number (literal : DecimalLiteral)
  | text (content : Option String)
  | list (items : List Value)
  | object (members : List (Option String × Value))

namespace Value

def text? : Value → Option String
  | .text content => content
  | _ => none

def isNull : Value → Bool
  | .null => true
  | _ => false

/-- The items of a list of a given length. -/
def tuple? (length : Nat) : Value → Option (List Value)
  | .list items => if items.length = length then some items else none
  | _ => none

/-- The only member of a name. -/
def member? (members : List (Option String × Value)) (name : String) : Option Value :=
  match members.filter fun m => m.1 == some name with
  | [m] => some m.2
  | _ => none

/-- The fields of a record: an object that has each name once, and any other members, or the list of
the fields in their order. -/
def fields? (names : List String) : Value → Option (List Value)
  | .object members =>
    if members.all fun m => m.1.isSome then names.mapM (member? members) else none
  | v => v.tuple? names.length

/-- The name of a variant and its content: a text is a variant without content. -/
def variant? : Value → Option (String × Option Value)
  | .text content => content.map fun name => (name, none)
  | .object [(some name, content)] => some (name, some content)
  | _ => none

/-- The name of a variant that has no content, or no other than null. -/
def unitVariant? (v : Value) : Option String :=
  match v.variant? with
  | some (name, content) => if content.all isNull then some name else none
  | none => none

/-- A whole number of a range. -/
def integer? (low high : Int) : Value → Option Int
  | .number literal =>
    match literal.whole? with
    | some n => if low ≤ n ∧ n ≤ high then some n else none
    | none => none
  | _ => none

end Value

end Metrology.Json
