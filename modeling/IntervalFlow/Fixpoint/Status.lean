/-!
# Node statuses

How far the analysis of a node has come. A node moves from the first status to the last, and back
only when the values that reach it change after it was done.
-/

namespace IntervalFlow

inductive Status where
  | unvisited
  | widening
  | narrowing
  | done
  deriving DecidableEq

namespace Status

def rank : Status → Nat
  | unvisited => 0
  | widening => 1
  | narrowing => 2
  | done => 3

instance : LT Status := ⟨fun a b => a.rank < b.rank⟩

instance (a b : Status) : Decidable (a < b) := inferInstanceAs (Decidable (a.rank < b.rank))

def render : Status → String
  | unvisited => "Unvisited"
  | widening => "NeedsWidening"
  | narrowing => "NeedsNarrowing"
  | done => "Done"

end Status

end IntervalFlow
