import IntervalFlow.Graph.Basic

/-!
# Cycles

Nodes that can be reached again. Two nodes share a cycle when each can be reached from the other.
-/

namespace IntervalFlow.Graph

/-- Removes from `unseen` the nodes reached from `todo` through `unseen` nodes. Every round takes a
node out of `unseen`, so as many rounds as it has members are enough. -/
def explore (step : NodeId → List NodeId) : Nat → List NodeId → List NodeId → List NodeId
  | 0, _, unseen => unseen
  | rounds + 1, todo, unseen =>
    match todo.dropWhile (· ∉ unseen) with
    | [] => unseen
    | node :: rest => explore step rounds (step node ++ rest) (unseen.erase node)

/-- The nodes of the graph that `step` reaches from `node`, itself included, in ascending order. -/
def reach (g : Graph) (step : NodeId → List NodeId) (node : NodeId) : List NodeId :=
  let unseen := explore step g.size [node] g.nodes
  g.nodes.filter (· ∉ unseen)

/-- The nodes that lie on a common cycle with `node`, and `node` itself, in ascending order. -/
def cycleOf (g : Graph) (node : NodeId) : List NodeId :=
  let before := g.reach g.prev node
  (g.reach g.next node).filter (· ∈ before)

/-- Whether the node can be reached again after it was left. -/
def onCycle (g : Graph) (node : NodeId) : Bool :=
  (g.edge? node node).isSome || 1 < (g.cycleOf node).length

/-- Adds the component of a node, unless an earlier node has brought it. -/
def addComponent (g : Graph) (found : List (List NodeId)) (node : NodeId) : List (List NodeId) :=
  if found.any (node ∈ ·) then found else found ++ [g.cycleOf node]

/-- The strongly connected components of the graph. -/
def components (g : Graph) : List (List NodeId) := g.nodes.foldl g.addComponent []

/-- Whether the nodes of a component can be reached again. The only node of a component has to lead
to itself. -/
def loops (g : Graph) : List NodeId → Bool
  | [single] => (g.edge? single single).isSome
  | _ => true

/-- The nodes of all components that loop, in ascending order. -/
def cyclicNodes (g : Graph) : List NodeId :=
  let looping := g.components.filter g.loops
  g.nodes.filter fun node => looping.any (node ∈ ·)

end IntervalFlow.Graph
