import IntervalFlow.Effect.Lifetime
import IntervalFlow.Trace.Merge

/-!
# Reports of effects

What the effects of nodes, the outcomes of branches and the computation of lifetimes report.
-/

namespace IntervalFlow

def CountedLoop.summaryEvents (l : CountedLoop) (general : Store NodeId) : List Event :=
  Interval.bottom.joinAllEvents (l.entrances.map general.valueOf)

namespace Context

def integerEffectEvents (ctx : Context) (current : Interval) (node : NodeId) : List Event :=
  match ctx.graph.kind? node with
  | some (.forLoop ..) =>
    match CountedLoop.find? ctx.graph ctx.name node with
    | none => []
    | some loop =>
      loop.summaryEvents ctx.general ++
        match loop.summary? ctx.general with
        | .ok (some summary) => current.restrictEvents summary
        | _ => []
  | _ => []

def lengthOfEvents (ctx : Context) (expression : NodeId) : List Event :=
  match ctx.graph.kind? expression with
  | some (.arrayCreation (some dimension)) =>
    match ctx.evaluate .top dimension with
    | .ok value => value.restrictEvents (.atLeast 0)
    | .error _ => []
  | _ => []

def lengthEffectEvents (ctx : Context) (node : NodeId) : List Event :=
  match ctx.graph.kind? node with
  | some (.declaration name _ (some expression)) =>
    if name = ctx.name then ctx.lengthOfEvents expression else []
  | some (.assignment .assign lhs rhs) =>
    if ctx.isTarget lhs then ctx.lengthOfEvents rhs else []
  | _ => []

end Context

def Constraint.applyEvents (c : Constraint) (current : Interval) : List Event :=
  match c with
  | within range => current.restrictEvents range
  | _ => []

namespace Measure

def effectEvents (measure : Measure) (ctx : Context) (current : Interval) (node : NodeId) :
    List Event :=
  match measure with
  | integer => ctx.integerEffectEvents current node
  | arrayLength => ctx.lengthEffectEvents node

def branchEvents (measure : Measure) (ctx : Context) (current : Interval) (branching : NodeId)
    (taken : Bool) : List Event :=
  match measure with
  | integer => (ctx.branchConstraint branching taken).applyEvents current
  | arrayLength => []

end Measure

namespace Lifetime

def writeEvents (g : Graph) (lifetimes : Store NodeId) (w : Write) : List Event :=
  let current := lifetimes.valueOf w.declaration
  let failure :=
    match effect g lifetimes w with
    | .ok _ => []
    | .error cause => [.valueUnknown w.name w.node cause]
  failure ++ current.joinEvents (written g lifetimes w)

def roundEvents (g : Graph) (index : Nat) (lifetimes : Store NodeId) : List Write → List Event
  | [] => []
  | w :: rest =>
    writeEvents g lifetimes w ++ roundEvents g index (step g index (lifetimes, false) w).1 rest

def settleEvents (g : Graph) (ws : List Write) : (fuel index : Nat) → Store NodeId → List Event
  | 0, _, _ => []
  | fuel + 1, index, lifetimes =>
    roundEvents g index lifetimes ws ++
      match round g ws index lifetimes with
      | (next, true) => settleEvents g ws fuel (index + 1) next
      | (_, false) => []

end Lifetime

def Graph.lifetimesEvents (g : Graph) (tracked : String) : List Event :=
  let ws := Lifetime.writes g tracked
  Lifetime.settleEvents g ws (Lifetime.enoughRounds ws) 0 .empty

end IntervalFlow
