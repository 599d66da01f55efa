import IntervalFlow.Graph.Basic
import IntervalFlow.Table

/-!
# Graph descriptions

Graphs as other tools write them: nodes carry ids of their own choice, and operators are text.
`resolve` replaces the ids by positions and reads the operators.
-/

namespace IntervalFlow

structure DescribedNode where
  id : UInt64
  shape : Shape String String String UInt64
  deriving DecidableEq

structure DescribedEdge where
  source : UInt64
  target : UInt64
  branch : Option Bool
  deriving DecidableEq

structure Description where
  nodes : List DescribedNode
  edges : List DescribedEdge
  deriving DecidableEq

/-- The positions of nodes, by their ids. -/
abbrev Positions := Table UInt64 NodeId

namespace Positions

/-- Adds the positions of nodes that follow each other from `next` on. No id may be known before. -/
def extend (known : Positions) (next : NodeId) : List DescribedNode → Except Error Positions
  | [] => .ok known
  | node :: rest =>
    match known.get? node.id with
    | some _ => .error (.violation (.duplicateId node.id))
    | none => extend (known.set node.id next) (next + 1) rest

def locate (positions : Positions) (id : UInt64) : Except Error NodeId :=
  match positions.get? id with
  | some node => .ok node
  | none => .error (.violation (.unknownId id))

end Positions

def DescribedNode.resolve (positions : Positions) (node : DescribedNode) : Except Error NodeKind :=
  node.shape.traverse UnaryOp.parse BinaryOp.parse AssignOp.parse positions.locate

def DescribedEdge.resolve (positions : Positions) (e : DescribedEdge) : Except Error Edge := do
  return ⟨← positions.locate e.source, ← positions.locate e.target, e.branch⟩

namespace Description

/-- The position of the node with the given id. -/
def locate? (d : Description) (id : UInt64) : Option NodeId := d.nodes.findIdx? (·.id = id)

def resolve (d : Description) : Except Error Graph := do
  let positions ← Positions.extend .empty 0 d.nodes
  let kinds ← d.nodes.mapM (·.resolve positions)
  let edges ← d.edges.mapM (·.resolve positions)
  match (⟨kinds.toArray, edges⟩ : Draft).build with
  | .ok g => return g
  | .error cause => throw (.violation cause)

end Description

end IntervalFlow
