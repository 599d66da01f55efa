import IntervalFlow.Effect.Lifetime
import IntervalFlow.Fixpoint.Progress

/-!
# Solving

The interval of one variable after every node between two nodes of a graph, computed by visiting
nodes until nothing is left to do. Values on cycles are widened until they cover what flows into
them, and narrowed again afterwards.
-/

namespace IntervalFlow

/-- The question: the variable `name` from the node `start` on, as far as it matters at `target`. -/
structure Problem where
  graph : Graph
  measure : Measure
  name : String
  start : NodeId
  target : NodeId
  /-- What is known of the variable before `start`. -/
  seed : Interval

/-- A problem with what stays fixed while it is solved. -/
structure Solver extends Problem where
  lifetimes : Store NodeId
  cyclic : List NodeId

def Problem.solver (problem : Problem) : Solver :=
  ⟨problem, problem.graph.lifetimes problem.name, problem.graph.cyclicNodes⟩

namespace Solver

/-- What effects may depend on when `general` is known. -/
def context (s : Solver) (general : Store NodeId) : Context :=
  ⟨s.graph, s.name, general, s.lifetimes⟩

/-! ## Inputs and outputs -/

/-- Whether values flow on from a node. They end at the target, unless it can be reached again. -/
def propagates (s : Solver) (node : NodeId) : Bool :=
  node ≠ s.target || s.target ∈ s.cyclic

/-- What flows along an edge, once its source has a value. -/
def flow? (s : Solver) (general : Store NodeId) (source target : NodeId) : Option Interval :=
  if s.propagates source then
    (general.get? source).map fun output =>
      match s.graph.branchOf source target with
      | some taken => s.measure.branch (s.context general) output source taken
      | none => output
  else none

/-- Before any edge is looked at, only the start knows something. -/
def initialInput (s : Solver) (node : NodeId) : Interval :=
  if node = s.start then s.seed else .bottom

/-- What reaches a node, joined over its predecessors. -/
def inputOf (s : Solver) (general : Store NodeId) (node : NodeId) : Interval :=
  (s.graph.prev node).foldl (fun input source =>
    match s.flow? general source node with
    | some value => input.join value
    | none => input) (s.initialInput node)

/-- The value after a node. Nothing comes out of a node that nothing reaches. -/
def transfer (s : Solver) (general : Store NodeId) (node : NodeId) (input : Interval) :
    Except Error Interval :=
  if node ≠ s.start ∧ input = .bottom then .ok .bottom
  else s.measure.effect (s.context general) input node

/-! ## Steps -/

/-- What a step does: the new progress, whether the stored value changed, and the successors that
moved on. -/
structure Step where
  progress : Progress
  changed : Bool
  promoted : List NodeId

/-- A node is done with, except that a loop head never is. -/
def finish (s : Solver) (p : Progress) (node : NodeId) : Progress :=
  if s.graph.isLoopHead node then p else p.setStatus node .done

/-- Whether the first values of a node show that it has to be widened. -/
def startsWidening (s : Solver) (p : Progress) (node : NodeId) (changed : Bool) : Bool :=
  s.graph.isLoopHead node ||
    (!s.graph.isLoopEnd node && (s.graph.prev node).any (p.statusOf · = .widening)) ||
    (node ∈ p.visited && changed && node ∈ s.cyclic)

/-- Stores the output as it is. -/
def plainStep (s : Solver) (p : Progress) (node : NodeId) (status : Status)
    (stored : Option Interval) (output : Interval) : Step :=
  let changed := decide (stored ≠ some output)
  let settled := node ∈ p.visited && !changed
  let q := p.setGeneral node output
  let r :=
    if status = .unvisited then
      if s.startsWidening p node changed then q.setStatus node .widening
      else if settled then q.setStatus node .done
      else q
    else if settled then s.finish q node
    else q
  ⟨r, changed, []⟩

/-- Widens the stored value by the output. The node is narrowed next, unless the output is what was
stored. -/
def widenStep (s : Solver) (p : Progress) (node : NodeId) (stored output : Interval) : Step :=
  let widened := stored.widen (stored.join output)
  if widened ≠ stored then
    let inside := (s.graph.next node).filter fun n => !s.graph.isLoopEnd n
    let (q, promoted) := (p.setGeneral node widened).promoteAll .widening inside
    ⟨(q.setStatus node .narrowing).enqueue node, true, promoted⟩
  else if output ≠ stored then ⟨(p.setStatus node .narrowing).enqueue node, false, []⟩
  else ⟨s.finish p node, false, []⟩

/-- Narrows the stored value by the output, or widens it again if the output is not within it. -/
def narrowStep (s : Solver) (p : Progress) (node : NodeId) (stored output : Interval) : Step :=
  if output.isWithin stored then
    let narrowed := stored.narrow output
    if narrowed ≠ stored then
      let (q, promoted) := (p.setGeneral node narrowed).promoteAll .narrowing (s.graph.next node)
      ⟨q, true, promoted⟩
    else ⟨s.finish p node, false, []⟩
  else ⟨(p.setGeneral node (stored.widen (stored.join output))).enqueue node, true, []⟩

def step (s : Solver) (p : Progress) (node : NodeId) (status : Status) (output : Interval) : Step :=
  match status, p.general.get? node with
  | .unvisited, stored => s.plainStep p node status stored output
  | _, none => s.plainStep p node status none output
  | _, some .bottom => s.plainStep p node status (some .bottom) output
  | .widening, some stored => s.widenStep p node stored output
  | _, some stored => s.narrowStep p node stored output

/-! ## Visits -/

/-- The status with which a node is visited. A node that is done is reopened if its input differs
from that of its last visit, and has nothing to do otherwise. -/
def resume? (s : Solver) (p : Progress) (node : NodeId) (input : Interval) : Option Status :=
  if p.statusOf node = .done then
    match p.incoming.get? node with
    | some last =>
      if last = input then none
      else if input.isWithin last then some .narrowing
      else if node ∈ s.cyclic then some .widening
      else some .unvisited
    | none => if node ∈ s.cyclic then some .widening else some .unvisited
  else some (p.statusOf node)

/-- Marks a visited successor as done when all its predecessors are, or when it has only one. -/
def settleSuccessor (s : Solver) (p : Progress) (node : NodeId) : Progress :=
  let sources := s.graph.prev node
  if !s.graph.isLoopHead node && node ∈ p.visited && node ∉ p.queue.queued &&
      (sources.length = 1 || sources.all (p.statusOf · = .done)) then
    p.setStatus node .done
  else p

def settleSuccessors (s : Solver) (p : Progress) (node : NodeId) : Progress :=
  (s.graph.next node).foldl s.settleSuccessor p

/-- Lines up the successors that a step concerns: all of them after a change, and otherwise those
that moved on or were never visited. -/
def propagate (s : Solver) (node : NodeId) (done : Step) : Progress :=
  let p :=
    if s.propagates node then
      (s.graph.next node).foldl (fun p n =>
        if done.changed || n ∈ done.promoted || n ∉ p.visited then p.enqueue n else p)
        done.progress
    else done.progress
  p.markVisited node

def visit (s : Solver) (p : Progress) (node : NodeId) : Except Error Progress :=
  let input := s.inputOf p.general node
  match s.resume? p node input with
  | none => .ok (s.settleSuccessors p node)
  | some status => do
    let output ← s.transfer p.general node input
    let opened := if p.statusOf node = .done then p.setStatus node status else p
    return s.propagate node (s.step (opened.setIncoming node input) node status output)

/-! ## Runs -/

/-- The start holds the seed and waits to be visited. -/
def initial (s : Solver) : Progress :=
  ((Progress.mk .empty .empty [] .empty .empty 0).setGeneral s.start s.seed).enqueue s.start

inductive Outcome where
  /-- Nothing is left to visit. -/
  | settled (p : Progress)
  /-- The last visit failed. -/
  | failed (cause : Error)
  /-- Nodes are left, but no more visits are permitted. -/
  | exhausted

/-- Visits one node after the other, `visits` at most. -/
def iterate (s : Solver) : (visits : Nat) → Progress → Outcome
  | visits, p =>
    match p.queue.pop? with
    | none => .settled p
    | some (node, queue) =>
      match visits with
      | 0 => .exhausted
      | visits + 1 =>
        match s.visit { p with queue, visits := p.visits + 1 } node with
        | .ok q => s.iterate visits q
        | .error cause => .failed cause

end Solver

/-! ## Solutions -/

structure Solution where
  state : FlowState
  statuses : Table NodeId Status
  visits : Nat

namespace Solver

/-- The stored values of the nodes that write the variable, in node order. -/
def writtenValues (s : Solver) (p : Progress) : List Interval :=
  (s.graph.nodes.filter (s.graph.writes s.name)).filterMap p.general.get?

/-- The lifetime of the variable is filed under the start. -/
def solution (s : Solver) (p : Progress) : Solution :=
  let state : FlowState := (s.writtenValues p).foldl
    (fun state value => (state.pushDeclaration s.start value).1) (s.lifetimes, p.general)
  ⟨state, p.statuses, p.visits⟩

end Solver

/-- Visits are counted by a 64-bit word, which bounds a run without a limit. -/
def permittedVisits (limit : Option Nat) : Nat := limit.getD (UInt64.size - 1)

def Problem.solve (problem : Problem) (limit : Option Nat) : Except Error Solution :=
  let s := problem.solver
  match s.iterate (permittedVisits limit) s.initial with
  | .settled p => .ok (s.solution p)
  | .failed cause => .error cause
  | .exhausted => .error (.visitLimit (permittedVisits limit))

end IntervalFlow
