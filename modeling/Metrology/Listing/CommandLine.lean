import Metrology.Listing

/-!
# The command line of the listing

Flags have a letter and a name, letters may share one dash, and two dashes on their own end the
flags. Everything else names a system. The flags for the form of the output may be given once.
-/

namespace Metrology

inductive ListingFlag where
  | ascii
  | json
  | verbose
  deriving DecidableEq, Repr

namespace ListingFlag

def all : List ListingFlag := [.ascii, .json, .verbose]

def letter : ListingFlag → Char
  | .ascii => 'a'
  | .json => 'j'
  | .verbose => 'v'

def name : ListingFlag → String
  | .ascii => "ascii"
  | .json => "json"
  | .verbose => "verbose"

/-- Set a flag, unless it may not be repeated. -/
def set (o : ListingOptions) : ListingFlag → Option ListingOptions
  | .ascii => if o.ascii then none else some { o with ascii := true }
  | .json => if o.json then none else some { o with json := true }
  | .verbose => some { o with verbosity := o.verbosity + 1 }

end ListingFlag

namespace ListingOptions

def setLetter (o : ListingOptions) (c : Char) : Option ListingOptions :=
  (ListingFlag.all.find? (·.letter == c)).bind (ListingFlag.set o)

def setName (o : ListingOptions) (name : String) : Option ListingOptions :=
  (ListingFlag.all.find? (·.name == name)).bind (ListingFlag.set o)

def addSystems (o : ListingOptions) (names : List String) : ListingOptions :=
  { o with systems := o.systems ++ names }

/-- The options that a single argument leads to. -/
def addArgument (o : ListingOptions) (argument : String) : Option ListingOptions :=
  match argument.toList with
  | '-' :: '-' :: name => o.setName (String.ofList name)
  | '-' :: c :: letters => (c :: letters).foldlM setLetter o
  | _ => some (o.addSystems [argument])

/-- The options of a command line, if it is a proper one. -/
def ofArguments? (o : ListingOptions) : List String → Option ListingOptions
  | [] => some o
  | argument :: rest =>
    if argument = "--" then some (o.addSystems rest)
    else (o.addArgument argument).bind fun o => ofArguments? o rest

end ListingOptions

/-- What the listing command does. -/
inductive ListingOutcome where
  | listed (lines : List String)
  | failed (cause : Failure)
  | misused
  deriving DecidableEq, Repr

namespace ListingOutcome

def ofArguments (arguments : List String) : ListingOutcome :=
  match ListingOptions.default.ofArguments? arguments with
  | none => .misused
  | some options =>
    match options.listing with
    | .ok lines => .listed lines
    | .error cause => .failed cause

def exitCode : ListingOutcome → Nat
  | .listed _ => 0
  | .failed _ => 1
  | .misused => 2

/-- The text for standard output. -/
def output : ListingOutcome → String
  | .listed lines => String.join (lines.map (· ++ "\n"))
  | _ => ""

/-- The text for standard error. -/
def complaint : ListingOutcome → String
  | .listed _ => ""
  | .failed (.reported cause) => cause.message ++ "\n"
  | .failed (.fault cause) => cause.message ++ "\n"
  | .misused => "usage: [-a|--ascii] [-j|--json] [-v|--verbose]... [--] [system]...\n"

end ListingOutcome

end Metrology
