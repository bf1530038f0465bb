/-!
# Symbols and names

Printed names carry a Unicode text and an ASCII fallback; only the Unicode text identifies them.
Texts are compared by code point, which is the order of their UTF-8 bytes. Qualified names are
segments joined by a double colon, and the last segment is the short name.
-/

namespace Metrology

/-- Lexicographic order by code point. -/
def compareText (a b : String) : Ordering := compare a b

structure Symbol where
  unicode : String
  ascii : String
  deriving DecidableEq, Repr

namespace Symbol

/-- A symbol that is its own fallback. -/
def plain (text : String) : Symbol := ⟨text, text⟩

def text (s : Symbol) (ascii : Bool) : String := if ascii then s.ascii else s.unicode

def cmp (a b : Symbol) : Ordering := compareText a.unicode b.unicode

end Symbol

/-- What follows the last double colon, read from the right. -/
def lastSegment : List Char → List Char
  | [] => []
  | c :: rest =>
    match c, rest with
    | ':', ':' :: _ => []
    | _, _ => c :: lastSegment rest

def shortName (name : String) : String :=
  String.ofList (lastSegment name.toList.reverse).reverse

end Metrology
