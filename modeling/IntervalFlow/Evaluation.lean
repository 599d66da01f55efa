import IntervalFlow.Fixpoint.Solver
import IntervalFlow.Json.Interval

/-!
# Evaluations

The value a variable holds at a node that refers to it.
-/

namespace IntervalFlow

structure Evaluation where
  value : Interval
  /-- Covers every value the variable is given on the way. -/
  lifetime : Interval
  visits : Nat
  deriving DecidableEq

namespace Evaluation

def toJson (e : Evaluation) : Json :=
  .obj [("value", e.value.toJson), ("lifetime", e.lifetime.toJson), ("steps", .int e.visits)]

/-- Solves a problem whose ends lie in its graph. -/
def run (problem : Problem) (limit : Option Nat) : Except Error Evaluation := do
  unless problem.graph.contains problem.start do throw (.missingNode problem.start)
  unless problem.graph.contains problem.target do throw (.missingNode problem.target)
  let solution ← problem.solve limit
  return ⟨solution.state.intervalOf problem.target,
    solution.state.declaredIntervalOf problem.start, solution.visits⟩

/-- What there is to do for a reference. -/
inductive Request where
  /-- The reference is not resolved, so nothing is known of its variable. -/
  | undeclared (name : String)
  | solve (problem : Problem)

/-- Reads off a reference which problem it poses. -/
def request (g : Graph) (target : NodeId) : Except Error Request :=
  match g.kind? target with
  | none => .error (.missingTarget target)
  | some (.reference name type declaration) => do
    let measure ← Measure.ofType type
    match declaration with
    | none => return .undeclared name
    | some start => return .solve ⟨g, measure, name, start, target, .bottom⟩
  | some kind => .error (.unsupported (.targetKind kind.label))

/-- The value of the variable that a node refers to. -/
def inspect (g : Graph) (limit : Option Nat) (target : NodeId) : Except Error Evaluation := do
  match ← request g target with
  | .undeclared _ => return ⟨.bottom, .bottom, 0⟩
  | .solve problem => run problem limit

end Evaluation

end IntervalFlow
