import IntervalFlow.Fixpoint.Queue
import IntervalFlow.Fixpoint.Status
import IntervalFlow.Store

/-!
# Progress

The state of a running analysis.
-/

namespace IntervalFlow

structure Progress where
  /-- Statuses; a node without an entry is unvisited. -/
  statuses : Table NodeId Status
  /-- The values that reached each node at its last full visit. -/
  incoming : Table NodeId Interval
  visited : List NodeId
  queue : Queue
  /-- The value stored after each node. -/
  general : Store NodeId
  visits : Nat

namespace Progress

def statusOf (p : Progress) (node : NodeId) : Status := (p.statuses.get? node).getD .unvisited

def setStatus (p : Progress) (node : NodeId) (status : Status) : Progress :=
  { p with statuses := p.statuses.set node status }

def setIncoming (p : Progress) (node : NodeId) (input : Interval) : Progress :=
  { p with incoming := p.incoming.set node input }

def setGeneral (p : Progress) (node : NodeId) (value : Interval) : Progress :=
  { p with general := p.general.set node value }

def markVisited (p : Progress) (node : NodeId) : Progress :=
  if node ∈ p.visited then p else { p with visited := node :: p.visited }

def enqueue (p : Progress) (node : NodeId) : Progress :=
  { p with queue := p.queue.push node (p.statusOf node = .narrowing) }

/-- Moves a node up to `status` unless it is there already, and lists it if it moved. -/
def promote (status : Status) : Progress × List NodeId → NodeId → Progress × List NodeId
  | (p, promoted), node =>
    if p.statusOf node < status then (p.setStatus node status, node :: promoted) else (p, promoted)

/-- Moves nodes up to `status` and lists those that moved. -/
def promoteAll (p : Progress) (status : Status) (nodes : List NodeId) : Progress × List NodeId :=
  nodes.foldl (promote status) (p, [])

end Progress

end IntervalFlow
