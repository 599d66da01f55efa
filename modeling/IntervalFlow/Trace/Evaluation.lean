import IntervalFlow.Evaluation
import IntervalFlow.Trace.Solver
import IntervalFlow.Trace.Tracer

/-!
# Reports of evaluations

An evaluation puts what its solver reports into a tracer, and notes the result if there is one.
-/

namespace IntervalFlow.Evaluation

def title (problem : Problem) : String :=
  "evaluate `" ++ problem.name ++ "` from " ++ problem.start.render ++ " to " ++
    problem.target.render

def resultNote (problem : Problem) (e : Evaluation) : String :=
  "`" ++ problem.name ++ "` in " ++ e.value.render ++ " after " ++ toString e.visits ++ " visits"

def runEvents (nesting : Nesting) (problem : Problem) (limit : Option Nat) : List Event :=
  if problem.graph.contains problem.start && problem.graph.contains problem.target then
    let tracer := (nesting.enter (title problem)).2
    tracer.openEvents ++ problem.solveEvents limit ++
      match run problem limit with
      | .ok e => tracer.noteEvents (resultNote problem e) ++ tracer.note.closeEvents
      | .error _ => tracer.closeEvents
  else []

def inspectEvents (nesting : Nesting) (g : Graph) (limit : Option Nat) (target : NodeId) :
    List Event :=
  match request g target with
  | .error _ => []
  | .ok (.undeclared name) => [.undeclared name target]
  | .ok (.solve problem) => runEvents nesting problem limit

end IntervalFlow.Evaluation
