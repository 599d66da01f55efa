import IntervalFlow.Numeral

/-!
# Settings

What the environment of the program sets, and the amount of logging it asks for.
-/

namespace IntervalFlow

/-- The texts of the settings that are present. -/
structure Environment where
  parallel : Option String
  limit : Option String
  log : Option String

namespace Environment

/-- The number of visits an evaluation may take when nothing else is set. -/
def defaultLimit : Nat := 100000

/-- Whether evaluations may run at the same time. -/
def isParallel (env : Environment) : Bool := env.parallel = some "1"

/-- The number of visits an evaluation may take, `none` if any number is permitted. A setting that
cannot be read is given back with the fault, and leaves the default. -/
def visitLimit (env : Environment) : Option Nat × Option (String × Numeral.Fault) :=
  match env.limit with
  | none => (some defaultLimit, none)
  | some text =>
    if text = "none" then (none, none)
    else match Numeral.parse text with
      | .ok limit => (some limit, none)
      | .error fault => (some defaultLimit, some (text, fault))

end Environment

/-- How much is logged. -/
inductive Verbosity where
  | quiet
  | normal
  | verbose
  | extensive
  deriving DecidableEq

namespace Verbosity

def ofLevel : Nat → Verbosity
  | 0 => quiet
  | 1 => normal
  | 2 => verbose
  | _ => extensive

/-- Nothing is logged unless the environment says so. -/
def ofEnvironment (env : Environment) : Except Numeral.Fault Verbosity :=
  match env.log with
  | none => .ok quiet
  | some text => (Numeral.parse text).map ofLevel

def rank : Verbosity → Nat
  | quiet => 0
  | normal => 1
  | verbose => 2
  | extensive => 3

def compare (a b : Verbosity) : Ordering := Ord.compare a.rank b.rank

def name : Verbosity → String
  | quiet => "Quiet"
  | normal => "Normal"
  | verbose => "Verbose"
  | extensive => "Extensive"

/-- The least important kind of message that is let through. -/
def filter : Verbosity → String
  | quiet => "Off"
  | normal => "Info"
  | verbose => "Debug"
  | extensive => "Trace"

end Verbosity

end IntervalFlow
