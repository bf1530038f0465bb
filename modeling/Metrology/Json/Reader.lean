import Metrology.Json.Value

/-!
# Reading structured values

The grammar of the interchange format: values with blanks around them, numbers without leading
zeros, texts with escapes and without raw control characters. Each reader returns what it has read
together with the rest of the text. The nesting of values is bounded by the length of the text.
-/

namespace Metrology.Json

def isBlank (c : Char) : Bool := c = ' ' || c = '\n' || c = '\t' || c = '\r'

def skipBlanks (s : List Char) : List Char := s.dropWhile isBlank

def digitOf (c : Char) : Nat := c.toNat - 48

/-- A run of digits, which may be empty. -/
def readDigits (s : List Char) : List Nat × List Char :=
  ((s.takeWhile Char.isDigit).map digitOf, s.dropWhile Char.isDigit)

/-- A run of at least one digit. -/
def readSomeDigits (s : List Char) : Option (List Nat × List Char) :=
  match readDigits s with
  | ([], _) => none
  | run => some run

/-- A zero on its own, or digits that do not start with zero. -/
def readWhole : List Char → Option (List Nat × List Char)
  | '0' :: rest => some ([0], rest)
  | s => readSomeDigits s

def readDecimals : List Char → Option (Option (List Nat) × List Char)
  | '.' :: rest => (readSomeDigits rest).map fun (ds, rest) => (some ds, rest)
  | s => some (none, s)

/-- The digits of an exponent after its mark and an optional sign. -/
def readExponentDigits (s : List Char) : Option (Option (Bool × List Nat) × List Char) :=
  let (below, s) := match s with
    | '-' :: rest => (true, rest)
    | '+' :: rest => (false, rest)
    | _ => (false, s)
  (readSomeDigits s).map fun (ds, rest) => (some (below, ds), rest)

def readExponent : List Char → Option (Option (Bool × List Nat) × List Char)
  | 'e' :: rest | 'E' :: rest => readExponentDigits rest
  | s => some (none, s)

def readNumber (s : List Char) : Option (DecimalLiteral × List Char) := do
  let (negative, s) := match s with
    | '-' :: rest => (true, rest)
    | _ => (false, s)
  let (whole, s) ← readWhole s
  let (decimals, s) ← readDecimals s
  let (exponent, s) ← readExponent s
  return (⟨negative, whole, decimals, exponent⟩, s)

def hexValue? (c : Char) : Option Nat :=
  if c.isDigit then some (digitOf c)
  else if 'a' ≤ c ∧ c ≤ 'f' then some (c.toNat - 87)
  else if 'A' ≤ c ∧ c ≤ 'F' then some (c.toNat - 55)
  else none

/-- The code unit of four hexadecimal digits. -/
def hexUnit? (digits : List Char) : Option Nat :=
  digits.foldlM (fun n c => (hexValue? c).map (n * 16 + ·)) 0

/-- The character of an escape letter. -/
def escapedChar? : Char → Option Char
  | '"' => some '"'
  | '\\' => some '\\'
  | '/' => some '/'
  | 'b' => some '\x08'
  | 'f' => some '\x0c'
  | 'n' => some '\n'
  | 'r' => some '\r'
  | 't' => some '\t'
  | _ => none

/-- The code values of a text up to its closing quotation mark. -/
def readUnits : List Char → Option (List Nat × List Char)
  | [] => none
  | '"' :: rest => some ([], rest)
  | '\\' :: 'u' :: a :: b :: c :: d :: rest => do
    let unit ← hexUnit? [a, b, c, d]
    let (units, rest) ← readUnits rest
    return (unit :: units, rest)
  | '\\' :: c :: rest => do
    let c ← escapedChar? c
    let (units, rest) ← readUnits rest
    return (c.toNat :: units, rest)
  | c :: rest => do
    if c.toNat < 32 then none
    let (units, rest) ← readUnits rest
    return (c.toNat :: units, rest)

def isHighSurrogate (n : Nat) : Bool := decide (0xd800 ≤ n ∧ n < 0xdc00)

def isLowSurrogate (n : Nat) : Bool := decide (0xdc00 ≤ n ∧ n < 0xe000)

/-- The characters of code values, a high and a low surrogate together giving one. -/
def decodeUnits : List Nat → Option (List Char)
  | [] => some []
  | [n] => if isHighSurrogate n || isLowSurrogate n then none else some [Char.ofNat n]
  | n :: m :: rest =>
    if isHighSurrogate n then
      if isLowSurrogate m then
        (decodeUnits rest).map (Char.ofNat (0x10000 + (n - 0xd800) * 0x400 + (m - 0xdc00)) :: ·)
      else none
    else if isLowSurrogate n then none
    else (decodeUnits (m :: rest)).map (Char.ofNat n :: ·)

/-- A text after its opening quotation mark. -/
def readText (s : List Char) : Option (Option String × List Char) := do
  let (units, rest) ← readUnits s
  return ((decodeUnits units).map String.ofList, rest)

mutual

/-- A value after any blanks. -/
def readValue (fuel : Nat) (s : List Char) : Option (Value × List Char) :=
  match fuel with
  | 0 => none
  | fuel + 1 =>
    match skipBlanks s with
    | 'n' :: 'u' :: 'l' :: 'l' :: rest => some (.null, rest)
    | 't' :: 'r' :: 'u' :: 'e' :: rest => some (.bool true, rest)
    | 'f' :: 'a' :: 'l' :: 's' :: 'e' :: rest => some (.bool false, rest)
    | '"' :: rest => (readText rest).map fun (content, rest) => (.text content, rest)
    | '[' :: rest =>
      match skipBlanks rest with
      | ']' :: rest => some (.list [], rest)
      | rest => (readItems fuel rest).map fun (items, rest) => (.list items, rest)
    | '\x7b' :: rest =>
      match skipBlanks rest with
      | '\x7d' :: rest => some (.object [], rest)
      | rest => (readMembers fuel rest).map fun (members, rest) => (.object members, rest)
    | s => (readNumber s).map fun (literal, rest) => (.number literal, rest)

/-- The items of a list up to its closing bracket, at least one. -/
def readItems (fuel : Nat) (s : List Char) : Option (List Value × List Char) :=
  match fuel with
  | 0 => none
  | fuel + 1 => do
    let (item, rest) ← readValue fuel s
    match skipBlanks rest with
    | ']' :: rest => return ([item], rest)
    | ',' :: rest =>
      let (items, rest) ← readItems fuel rest
      return (item :: items, rest)
    | _ => none

/-- The members of an object up to its closing brace, at least one. -/
def readMembers (fuel : Nat) (s : List Char) :
    Option (List (Option String × Value) × List Char) :=
  match fuel with
  | 0 => none
  | fuel + 1 =>
    match skipBlanks s with
    | '"' :: rest => do
      let (name, rest) ← readText rest
      let ':' :: rest := skipBlanks rest | none
      let (value, rest) ← readValue fuel rest
      match skipBlanks rest with
      | '\x7d' :: rest => return ([(name, value)], rest)
      | ',' :: rest =>
        let (members, rest) ← readMembers fuel rest
        return ((name, value) :: members, rest)
      | _ => none
    | _ => none

end

/-- The value at the beginning of a text and what follows it. -/
def read (text : String) : Option (Value × List Char) :=
  readValue (2 * text.length + 2) text.toList

end Metrology.Json
