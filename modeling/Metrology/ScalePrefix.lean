import Metrology.Magnitude

/-!
# Scale prefixes

The decimal prefixes stand for powers of ten and the binary ones for powers of 1024, kept as powers
of two.
-/

namespace Metrology

inductive DecimalPrefix where
  | quecto | ronto | yocto | zepto | atto | femto | pico | nano | micro | milli | centi | deci
  | deca | hecto | kilo | mega | giga | tera | peta | exa | zetta | yotta | ronna | quetta
  deriving DecidableEq, Repr

namespace DecimalPrefix

def all : List DecimalPrefix :=
  [.quecto, .ronto, .yocto, .zepto, .atto, .femto, .pico, .nano, .micro, .milli, .centi, .deci,
    .deca, .hecto, .kilo, .mega, .giga, .tera, .peta, .exa, .zetta, .yotta, .ronna, .quetta]

/-- Name, power of ten and symbol. -/
def entry : DecimalPrefix → String × Int × Symbol
  | .quecto => ("Quecto", -30, .plain "q")
  | .ronto => ("Ronto", -27, .plain "r")
  | .yocto => ("Yocto", -24, .plain "y")
  | .zepto => ("Zepto", -21, .plain "z")
  | .atto => ("Atto", -18, .plain "a")
  | .femto => ("Femto", -15, .plain "f")
  | .pico => ("Pico", -12, .plain "p")
  | .nano => ("Nano", -9, .plain "n")
  | .micro => ("Micro", -6, ⟨"\u00b5", "u"⟩)
  | .milli => ("Milli", -3, .plain "m")
  | .centi => ("Centi", -2, .plain "c")
  | .deci => ("Deci", -1, .plain "d")
  | .deca => ("Deca", 1, .plain "da")
  | .hecto => ("Hecto", 2, .plain "h")
  | .kilo => ("Kilo", 3, .plain "k")
  | .mega => ("Mega", 6, .plain "M")
  | .giga => ("Giga", 9, .plain "G")
  | .tera => ("Tera", 12, .plain "T")
  | .peta => ("Peta", 15, .plain "P")
  | .exa => ("Exa", 18, .plain "E")
  | .zetta => ("Zetta", 21, .plain "Z")
  | .yotta => ("Yotta", 24, .plain "Y")
  | .ronna => ("Ronna", 27, .plain "R")
  | .quetta => ("Quetta", 30, .plain "Q")

end DecimalPrefix

inductive BinaryPrefix where
  | kibi | mebi | gibi | tebi | pebi | exbi | zebi | yobi
  deriving DecidableEq, Repr

namespace BinaryPrefix

def all : List BinaryPrefix := [.kibi, .mebi, .gibi, .tebi, .pebi, .exbi, .zebi, .yobi]

/-- Name, power of 1024 and symbol. -/
def entry : BinaryPrefix → String × Int × Symbol
  | .kibi => ("Kibi", 1, .plain "Ki")
  | .mebi => ("Mebi", 2, .plain "Mi")
  | .gibi => ("Gibi", 3, .plain "Gi")
  | .tebi => ("Tebi", 4, .plain "Ti")
  | .pebi => ("Pebi", 5, .plain "Pi")
  | .exbi => ("Exbi", 6, .plain "Ei")
  | .zebi => ("Zebi", 7, .plain "Zi")
  | .yobi => ("Yobi", 8, .plain "Yi")

end BinaryPrefix

/-- A prefix of either family. -/
inductive ScalePrefix where
  | decimal (p : DecimalPrefix)
  | binary (p : BinaryPrefix)
  deriving DecidableEq, Repr

namespace ScalePrefix

def entry : ScalePrefix → String × Int × Symbol
  | .decimal p => p.entry
  | .binary p => p.entry

def name (p : ScalePrefix) : String := p.entry.1
def power (p : ScalePrefix) : Int := p.entry.2.1
def symbol (p : ScalePrefix) : Symbol := p.entry.2.2

def magnitude : ScalePrefix → Except Fault Magnitude
  | .decimal p => Magnitude.powerOfInteger 10 p.entry.2.1
  | .binary p => Magnitude.powerOfInteger 2 (10 * p.entry.2.1)

def decimals : List ScalePrefix := DecimalPrefix.all.map .decimal

def binaries : List ScalePrefix := BinaryPrefix.all.map .binary

def named? (choices : List ScalePrefix) (name : String) : Option ScalePrefix :=
  choices.find? (·.name == name)

end ScalePrefix

end Metrology
