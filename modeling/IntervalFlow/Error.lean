import IntervalFlow.Bound
import IntervalFlow.NodeId

/-!
# Errors

The causes for which building a graph or running an analysis fails, and their wording.
-/

namespace IntervalFlow

/-- What the analysis does not handle. -/
inductive Unsupported where
  | targetType (type : String)
  | targetKind (label : String)
  | operator (text : String)
  deriving DecidableEq

/-- How a graph fails to be a valid evaluation order graph. -/
inductive Violation where
  | duplicateId (id : UInt64)
  | unknownId (id : UInt64)
  | missingChild (node child : NodeId)
  | unexpectedDeclaration (reference : NodeId) (label : String)
  | missingEndpoint (source target : NodeId)
  | duplicateEdge
  | loopSuccessors (node : NodeId) (count : Nat)
  | nestedTooDeeply (expression : NodeId)
  | missingExpression (expression : NodeId)
  deriving DecidableEq

inductive Error where
  /-- The node to evaluate is not in the graph. -/
  | missingTarget (node : NodeId)
  /-- An end of the evaluated stretch is not in the graph. -/
  | missingNode (node : NodeId)
  | unsupported (cause : Unsupported)
  | violation (cause : Violation)
  | undefined (cause : Undefined)
  /-- The analysis did not settle within the permitted number of visits. -/
  | visitLimit (limit : Nat)
  deriving DecidableEq

def Unsupported.message : Unsupported → String
  | targetType type => "target type `" ++ type ++ "`"
  | targetKind label => "evaluation target of kind " ++ label
  | operator text => "operator `" ++ text ++ "`"

def Violation.message : Violation → String
  | duplicateId id => "duplicated node id " ++ toString id.toNat
  | unknownId id => "unknown node id " ++ toString id.toNat
  | missingChild node child => "node " ++ node.render ++ " refers to a missing node " ++ child.render
  | unexpectedDeclaration reference label =>
    "reference " ++ reference.render ++ " resolves to a " ++ label ++ " node"
  | missingEndpoint source target =>
    "edge " ++ source.render ++ " -> " ++ target.render ++ " has a missing endpoint"
  | duplicateEdge => "duplicated edge in EOG"
  | loopSuccessors node count =>
    "loop head " ++ node.render ++ " has " ++ toString count ++ " successor(s)"
  | nestedTooDeeply expression => "expression " ++ expression.render ++ " nests too deeply"
  | missingExpression expression => "expression " ++ expression.render ++ " is not in the graph"

def Error.message : Error → String
  | missingTarget node => "[absint::assumption] target " ++ node.render ++ " is not in the graph"
  | missingNode node => "[absint::assumption] node " ++ node.render ++ " is not in the graph"
  | unsupported cause => "[absint::unsupported] " ++ cause.message
  | violation cause => "[absint::invariant] " ++ cause.message
  | undefined cause => "[absint::arithmetic] " ++ cause.message
  | visitLimit limit => "[absint::fixpoint] no convergence within " ++ toString limit ++ " visits"

end IntervalFlow
