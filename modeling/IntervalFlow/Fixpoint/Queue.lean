import IntervalFlow.NodeId

/-!
# Queues

The nodes to visit, in order of arrival. Nodes on their way down wait until no other is left, and a
node waits only once.
-/

namespace IntervalFlow

structure Queue where
  ascending : List NodeId
  descending : List NodeId
  /-- The nodes in either list. -/
  queued : List NodeId
  deriving DecidableEq

namespace Queue

def empty : Queue := ⟨[], [], []⟩

def push (q : Queue) (node : NodeId) (descends : Bool) : Queue :=
  if node ∈ q.queued then q
  else if descends then ⟨q.ascending, q.descending ++ [node], node :: q.queued⟩
  else ⟨q.ascending ++ [node], q.descending, node :: q.queued⟩

def pop? (q : Queue) : Option (NodeId × Queue) :=
  match q.ascending, q.descending with
  | node :: rest, descending => some (node, ⟨rest, descending, q.queued.erase node⟩)
  | [], node :: rest => some (node, ⟨[], rest, q.queued.erase node⟩)
  | [], [] => none

end Queue

end IntervalFlow
