import IntervalFlow.Effect.Context

/-!
# Branches

What the outcome of a branch says about the tracked variable.
-/

namespace IntervalFlow

inductive Constraint where
  | unconstrained
  | unsatisfiable
  | within (range : Interval)
  | different (k : Int64)
  deriving DecidableEq

namespace Interval

/-- Drops `k` where it is an end of the interval. -/
def exclude (a : Interval) (k : Int64) : Interval :=
  match a with
  | bottom => bottom
  | bounded lower upper =>
    if lower = .fin k then
      if upper = .fin k then bottom
      else ((Word.add? k 1).map fun next => bounded (.fin next) upper).getD a
    else if upper = .fin k then
      ((Word.sub? k 1).map fun next => bounded lower (.fin next)).getD a
    else a

end Interval

namespace Constraint

/-- The values `v` for which `v op k` holds. -/
def ofComparison (op : BinaryOp) (k : Int64) : Constraint :=
  match op with
  | .lt => ((Word.sub? k 1).map (within <| .atMost ·)).getD unsatisfiable
  | .le => within (.atMost k)
  | .gt => ((Word.add? k 1).map (within <| .atLeast ·)).getD unsatisfiable
  | .ge => within (.atLeast k)
  | .eq => within (.constant k)
  | .ne => different k
  | _ => unconstrained

def apply (c : Constraint) (current : Interval) : Interval :=
  match c with
  | unconstrained => current
  | unsatisfiable => .bottom
  | within range => current.restrict range
  | different k => current.exclude k

end Constraint

namespace Context

/-- What is known when the condition evaluates to `taken`: something for a comparison of the tracked
variable with a literal, and nothing for any other condition. -/
def constraint (ctx : Context) (condition : NodeId) (taken : Bool) : Constraint :=
  match ctx.graph.comparisonWith? ctx.name condition with
  | none => .unconstrained
  | some (op, k) =>
    if taken then .ofComparison op k
    else match op.negate? with
      | some negated => .ofComparison negated k
      | none => .unconstrained

/-- What the outcome of a branching node says about the tracked variable. -/
def branchConstraint (ctx : Context) (branching : NodeId) (taken : Bool) : Constraint :=
  match ctx.graph.condition? branching with
  | none => .unconstrained
  | some condition => ctx.constraint condition taken

end Context

end IntervalFlow
