import IntervalFlow.FlowState
import IntervalFlow.Graph.Basic

/-!
# Effect contexts

What the effect of a node may depend on besides the node and the interval before it.
-/

namespace IntervalFlow

structure Context where
  graph : Graph
  /-- The name of the tracked variable. -/
  name : String
  /-- The tracked variable after each node, as far as known. -/
  general : Store NodeId
  /-- The other variables over their lifetimes, by declaration. -/
  declarations : Store NodeId

namespace Context

/-- Whether the node is a reference to the tracked variable. -/
def isTarget (ctx : Context) (node : NodeId) : Bool := ctx.graph.refersTo ctx.name node

end Context

end IntervalFlow
