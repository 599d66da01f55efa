import IntervalFlow.Effect.Branch
import IntervalFlow.Effect.CountedLoop
import IntervalFlow.Effect.Expression

/-!
# Effects

The effect of a node on what is measured of the tracked variable: the value of an integer or the
length of an array.
-/

namespace IntervalFlow

inductive Measure where
  | integer
  | arrayLength
  deriving DecidableEq

/-- What is measured of a variable of the given type. -/
def Measure.ofType (type : String) : Except Error Measure :=
  if type = "int" then .ok integer
  else if "[]".toList.isSuffixOf type.toList then .ok arrayLength
  else .error (.unsupported (.targetType type))

namespace Context

/-- The value of the tracked integer after a node. -/
def integerEffect (ctx : Context) (current : Interval) (node : NodeId) : Except Error Interval :=
  match ctx.graph.kind? node with
  | some (.declaration name _ initializer) =>
    if name = ctx.name then
      match initializer with
      | some expression => ctx.evaluate current expression
      | none => .ok .top
    else .ok current
  | some (.assignment op lhs rhs) =>
    if ctx.isTarget lhs then do
      let value ← ctx.evaluate current rhs
      arithmetic (op.apply current value)
    else .ok current
  | some (.unary .increment input) =>
    if ctx.isTarget input then increment current else .ok current
  | some (.unary .decrement input) =>
    if ctx.isTarget input then decrement current else .ok current
  | some (.forLoop ..) =>
    match CountedLoop.find? ctx.graph ctx.name node with
    | none => .ok current
    | some loop => do
      match ← arithmetic (loop.summary? ctx.general) with
      | some summary => return current.restrict summary
      | none => return current
  | some (.forEachLoop item _) =>
    if ctx.graph.declares ctx.name item then .ok .top else .ok current
  | _ => .ok current

/-- The length of the array that an expression gives, where the tracked array has length
`current`. -/
def lengthOf (ctx : Context) (current : Interval) (expression : NodeId) : Except Error Interval :=
  match ctx.graph.kind? expression with
  | some (.arrayCreation (some dimension)) => do
    return (← ctx.evaluate .top dimension).restrict (.atLeast 0)
  | some (.initializerList elements) => .ok (.constant (Int64.ofNat elements.length))
  | some (.reference name _ _) => if name = ctx.name then .ok current else .ok (.atLeast 0)
  | _ => .ok (.atLeast 0)

/-- The length of the tracked array after a node. -/
def lengthEffect (ctx : Context) (current : Interval) (node : NodeId) : Except Error Interval :=
  match ctx.graph.kind? node with
  | some (.declaration name _ initializer) =>
    if name = ctx.name then
      match initializer with
      | some expression => ctx.lengthOf current expression
      | none => .ok (.atLeast 0)
    else .ok current
  | some (.assignment .assign lhs rhs) =>
    if ctx.isTarget lhs then ctx.lengthOf current rhs else .ok current
  | some (.forEachLoop item _) =>
    if ctx.graph.declares ctx.name item then .ok (.atLeast 0) else .ok current
  | _ => .ok current

end Context

namespace Measure

/-- The interval after a node, given the interval before it. -/
def effect (measure : Measure) (ctx : Context) (current : Interval) (node : NodeId) :
    Except Error Interval :=
  match measure with
  | integer => ctx.integerEffect current node
  | arrayLength => ctx.lengthEffect current node

/-- The part of an interval that flows along an outcome of a branching node. Conditions say nothing
about lengths. -/
def branch (measure : Measure) (ctx : Context) (current : Interval) (branching : NodeId)
    (taken : Bool) : Interval :=
  match measure with
  | integer => (ctx.branchConstraint branching taken).apply current
  | arrayLength => current

end Measure

end IntervalFlow
