import IntervalFlow.Fixpoint.Solver
import IntervalFlow.Trace.Effect

/-!
# Reports of solvers

What a solver reports of its visits, in order.
-/

namespace IntervalFlow

namespace Solver

/-- The events of computing what flows along an edge. -/
def flowEvents (s : Solver) (general : Store NodeId) (source target : NodeId) : List Event :=
  if s.propagates source then
    match general.get? source, s.graph.branchOf source target with
    | some output, some taken => s.measure.branchEvents (s.context general) output source taken
    | _, _ => []
  else []

/-- The events of joining what flows into a node, edge by edge. -/
def inputEvents (s : Solver) (general : Store NodeId) (node : NodeId) :
    (input : Interval) → (sources : List NodeId) → List Event
  | _, [] => []
  | input, source :: rest =>
    match s.flow? general source node with
    | none => s.inputEvents general node input rest
    | some value =>
      s.flowEvents general source node ++ input.joinEvents value ++
        s.inputEvents general node (input.join value) rest

def transferEvents (s : Solver) (general : Store NodeId) (node : NodeId) (input : Interval) :
    List Event :=
  if node ≠ s.start ∧ input = .bottom then []
  else s.measure.effectEvents (s.context general) input node

def stepEvents (stored : Option Interval) (status : Status) (output : Interval) : List Event :=
  match status, stored with
  | .widening, some stored => stored.joinEvents output
  | .narrowing, some stored => if output.isWithin stored then [] else stored.joinEvents output
  | _, _ => []

def visitEvents (s : Solver) (p : Progress) (node : NodeId) : List Event :=
  let input := s.inputOf p.general node
  s.inputEvents p.general node (s.initialInput node) (s.graph.prev node) ++
    match s.resume? p node input with
    | none => []
    | some status =>
      (if p.statusOf node = .done then [.reopened node status] else []) ++
        s.transferEvents p.general node input ++
        match s.transfer p.general node input with
        | .error _ => []
        | .ok output =>
          .visited node status input output :: stepEvents (p.general.get? node) status output

/-- The events of merging the values of the writes. -/
def solutionEvents (s : Solver) (p : Progress) : List Event :=
  match s.lifetimes.get? s.start, s.writtenValues p with
  | some lifetime, values => lifetime.joinAllEvents values
  | none, value :: rest => value.joinAllEvents rest
  | none, [] => []

/-- The events of a run, after those in `earlier`. -/
def iterateEvents (s : Solver) (earlier : Array Event) : (visits : Nat) → Progress → Array Event
  | visits, p =>
    match p.queue.pop? with
    | none => (earlier.push (.settled s.name p.visits)) ++ s.solutionEvents p
    | some (node, queue) =>
      match visits with
      | 0 => earlier
      | visits + 1 =>
        let q := { p with queue, visits := p.visits + 1 }
        let events := earlier ++ s.visitEvents q node
        match s.visit q node with
        | .ok next => s.iterateEvents events visits next
        | .error _ => events

end Solver

def Problem.solveEvents (problem : Problem) (limit : Option Nat) : List Event :=
  let s := problem.solver
  let lifetimes := (problem.graph.lifetimesEvents problem.name).toArray
  (s.iterateEvents lifetimes (permittedVisits limit) s.initial).toList

end IntervalFlow
