import Metrology.Catalog
import Metrology.Point
import Metrology.Representation.Floating

/-!
# Elapsed times and clock readings

An elapsed time is a whole number of nanoseconds whose seconds fit 64 bits; a clock reading is a
signed number of nanoseconds from the epoch whose seconds, rounded down, fit 64 bits with a sign.
Both exchange values with quantities of time in binary64 seconds. Reading a number of seconds rounds
its exact value to the nearest nanosecond, a half to the even one.
-/

namespace Metrology

/-- How many nanoseconds a second has. -/
def nanosPerSecond : Nat := 1000000000

structure Elapsed where
  nanoseconds : Nat
  fits : nanoseconds / nanosPerSecond < IntegerType.word64.count

structure ClockReading where
  nanoseconds : Int
  fits : IntegerType.int64.Holds (nanoseconds / nanosPerSecond)

/-- The report of a number of seconds that cannot be represented. -/
def secondsOutOfRange (seconds : Float) : UnitError :=
  .outOfRange (Representation.text .default seconds)

namespace Elapsed

def ofNanoseconds? (n : Nat) : Option Elapsed :=
  if h : n / nanosPerSecond < IntegerType.word64.count then some ⟨n, h⟩ else none

/-- Whole seconds and the nanoseconds of the last, incomplete one. -/
def seconds (t : Elapsed) : Nat := t.nanoseconds / nanosPerSecond

def subsecond (t : Elapsed) : Nat := t.nanoseconds % nanosPerSecond

/-- The nearest elapsed time to a number of seconds that is not negative. -/
def ofBinary? : BinaryValue → Option Elapsed
  | .finite negative significand exponent =>
    if negative ∧ significand ≠ 0 then none
    else
      let (n, d) := BinaryValue.fraction significand exponent
      ofNanoseconds? (roundHalfEven (n * nanosPerSecond) d)
  | _ => none

def ofSeconds (seconds : Float) : Except UnitError Elapsed :=
  match ofBinary? (binaryValue64 seconds) with
  | some t => .ok t
  | none => .error (secondsOutOfRange seconds)

/-- Whole seconds and the fraction are converted apart and then added. -/
def toSeconds (t : Elapsed) : Float :=
  Float.ofNat t.seconds + Float.ofNat t.subsecond / 1e9

end Elapsed

namespace ClockReading

def ofNanoseconds? (n : Int) : Option ClockReading :=
  if h : IntegerType.int64.Holds (n / nanosPerSecond) then some ⟨n, h⟩ else none

/-- The reading some time after the epoch, or before it. -/
def atDistance? (before : Bool) (t : Elapsed) : Option ClockReading :=
  ofNanoseconds? (if before then -(t.nanoseconds : Int) else t.nanoseconds)

def isBeforeEpoch (r : ClockReading) : Bool := decide (r.nanoseconds < 0)

/-- The time between the epoch and the reading. -/
def distance (r : ClockReading) : Elapsed :=
  ⟨r.nanoseconds.natAbs, by
    have := r.fits
    simp only [IntegerType.Holds, IntegerType.high, IntegerType.low, IntegerType.isSigned,
      IntegerType.count, nanosPerSecond, if_true] at this ⊢
    omega⟩

def ofSeconds (seconds : Float) : Except UnitError ClockReading := do
  let some t := (Elapsed.ofSeconds seconds.abs).toOption
    | throw (secondsOutOfRange seconds)
  let some r := atDistance? (seconds < 0) t | throw (secondsOutOfRange seconds)
  return r

def toSeconds (r : ClockReading) : Float :=
  if r.isBeforeEpoch then -r.distance.toSeconds else r.distance.toSeconds

end ClockReading

/-- The second as a reference of its own. -/
def secondReference : Except Fault Reference := Reference.ofUnit Catalog.Si.second

namespace Quantity

/-- The elapsed time a quantity of time stands for. -/
def toElapsed (q : Quantity Float) : Except Failure Elapsed := do
  let seconds ← liftM (do q.convertTo (← secondReference))
  liftM (Elapsed.ofSeconds seconds.value)

/-- An elapsed time in any unit of time. -/
def ofElapsed (t : Elapsed) (target : Reference) : Except Fault (Quantity Float) := do
  (← new t.toSeconds (← secondReference)).convertTo target

end Quantity

namespace Point

/-- The clock reading a point measured from the epoch stands for. -/
def toClock (p : Point Float) : Except Failure ClockReading := do
  if !p.origin.same Catalog.unixEpoch then throw (.fault (.mismatch .originsUnrelated))
  let seconds ← liftM (do p.quantity.convertTo (← secondReference))
  liftM (ClockReading.ofSeconds seconds.value)

/-- A clock reading in any unit of time. -/
def ofClock (r : ClockReading) (target : Reference) : Except Fault (Point Float) := do
  return ⟨← (← Quantity.new r.toSeconds (← secondReference)).convertTo target, Catalog.unixEpoch⟩

end Point

end Metrology
