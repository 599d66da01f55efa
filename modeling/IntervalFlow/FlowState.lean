import IntervalFlow.NodeId
import IntervalFlow.Store

/-!
# Analysis states

What an analysis knows: an interval for each declaration, over its whole lifetime, and an interval
of the tracked variable after each node.
-/

namespace IntervalFlow

/-- The declarations, then the general part. -/
abbrev FlowState := Store NodeId × Store NodeId

namespace FlowState

def declarations (s : FlowState) : Store NodeId := s.1

def general (s : FlowState) : Store NodeId := s.2

def intervalOf (s : FlowState) (node : NodeId) : Interval := s.general.valueOf node

def declaredIntervalOf (s : FlowState) (node : NodeId) : Interval := s.declarations.valueOf node

def setDeclaration (s : FlowState) (node : NodeId) (value : Interval) : FlowState :=
  (s.declarations.set node value, s.general)

def setGeneral (s : FlowState) (node : NodeId) (value : Interval) : FlowState :=
  (s.declarations, s.general.set node value)

def pushDeclaration (s : FlowState) (node : NodeId) (value : Interval) : FlowState × Bool :=
  let (declarations, changed) := s.declarations.push node value
  ((declarations, s.general), changed)

def pushGeneral (s : FlowState) (node : NodeId) (value : Interval) : FlowState × Bool :=
  let (general, changed) := s.general.push node value
  ((s.declarations, general), changed)

end FlowState

end IntervalFlow
