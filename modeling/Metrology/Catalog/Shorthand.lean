import Metrology.Catalog
import Metrology.Reference

/-!
# References under short names

The references of everyday use under the names they are typed with: units that stand for their own
kind of quantity, quotients, products and powers of such units, and named quantities in a unit,
written with a colon.
-/

namespace Metrology.Catalog.Shorthand

open Si International

/-- A unit with a decimal prefix. -/
def scaled (p : DecimalPrefix) (unit : MeasureUnit) : Except Fault MeasureUnit :=
  MeasureUnit.withScale (.decimal p) unit

def units : List (String × Except Fault MeasureUnit) :=
  [("m", .ok metre), ("km", scaled .kilo metre), ("mm", scaled .milli metre),
    ("um", scaled .micro metre), ("ft", foot), ("yd", yard), ("in", inch), ("mi", mile),
    ("nmi", nauticalMile), ("s", .ok second), ("ms", scaled .milli second), ("min", minute),
    ("h", hour), ("d", day), ("g", .ok gram), ("kg", kilogram), ("t", tonne), ("lb", pound),
    ("oz", ounce), ("K", .ok kelvin), ("degC", degreeCelsius), ("mK", scaled .milli kelvin),
    ("rad", radian), ("deg", degree), ("1", .ok .one), ("%", percent), ("permille", perMille),
    ("J", joule), ("Hz", hertz), ("eV", .ok Natural.electronvolt),
    ("GeV", Natural.gigaelectronvolt)]

/-- A unit as a reference of its own. -/
def alone (unit : Except Fault MeasureUnit) : Except Fault Reference := do
  Reference.ofUnit (← unit)

/-- A named quantity in a unit. -/
def refer (q : Except Fault NamedQuantity) (unit : Except Fault MeasureUnit) :
    Except Fault Reference := do
  return Reference.ofNamed (← q) (← unit)

def quotient (a b : Except Fault MeasureUnit) : Except Fault Reference := do
  (← alone a).div (← alone b)

def product (a b : Except Fault MeasureUnit) : Except Fault Reference := do
  (← alone a).mul (← alone b)

def power (unit : Except Fault MeasureUnit) (n d : Int) : Except Fault Reference := do
  (← alone unit).pow (← Ratio.new n d)

/-- Products, quotients and powers of units that stand for kinds of quantities. -/
def composites : List (String × Except Fault Reference) :=
  [("m/s", quotient (.ok metre) (.ok second)), ("km/h", quotient (scaled .kilo metre) hour),
    ("mi/h", quotient mile hour), ("N.m", product newton (.ok metre)), ("W.h", product watt hour),
    ("m2", power (.ok metre) 2 1), ("ft2", power foot 2 1), ("sqrt:m", power (.ok metre) 1 2),
    ("/s", quotient (.ok .one) (.ok second)),
    ("accel", do (← alone (.ok metre)).div (← power (.ok second) 2 1))]

/-- Named quantities in a unit. -/
def named : List (String × Except Fault Reference) :=
  let width := Reference.ofNamed Isq.width metre
  let height := Reference.ofNamed Isq.height metre
  [("height:m", .ok height), ("width:m", .ok width), ("width*height", width.mul height),
    ("length:m", refer (.ok Isq.length) (.ok metre)),
    ("length:mm", refer (.ok Isq.length) (scaled .milli metre)),
    ("radius:km", refer (.ok Isq.radius) (scaled .kilo metre)),
    ("distance:ft", refer (.ok Isq.distance) foot),
    ("speed:m/s", refer Isq.speed (metre.div second)),
    ("area:m2", refer Isq.area (Si.power metre 2)),
    ("energy:kJ", refer Isq.energy do scaled .kilo (← joule)),
    ("mass:GeV", refer (.ok Natural.mass) Natural.gigaelectronvolt),
    ("momentum:MeV", refer (.ok Natural.momentum) (scaled .mega Natural.electronvolt))]

def references : List (String × Except Fault Reference) :=
  units.map (fun (name, unit) => (name, alone unit)) ++ composites ++ named

end Metrology.Catalog.Shorthand
