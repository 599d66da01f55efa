import IntervalFlow.Graph.Cycle
import IntervalFlow.Interval.Arithmetic
import IntervalFlow.FlowState

/-!
# Counted loops

Loops of the form `for (c = a; c < b; c += s)` whose body runs without branching and changes the
tracked variable by constant steps only. At the head of such a loop the variable lies between its
value on entry and that value plus the growth of all trips.
-/

namespace IntervalFlow

/-- The number of times the body of a loop runs whose counter goes from `start` by `step` as long as
`counter op bound` holds. -/
def tripCount? (op : BinaryOp) (start bound step : Int64) : Option Int64 :=
  let a := start.toInt
  let b := bound.toInt
  let s := step.toInt
  let otherwise := if op.holds a b then none else Word.ofInt? 0
  match op with
  | .lt => if 0 < s ∧ a < b then Word.ofInt? ((b - a + s - 1) / s) else otherwise
  | .le => if 0 < s ∧ a ≤ b then Word.ofInt? ((b - a) / s + 1) else otherwise
  | .gt => if s < 0 ∧ b < a then Word.ofInt? ((a - b - s - 1) / -s) else otherwise
  | .ge => if s < 0 ∧ b ≤ a then Word.ofInt? ((a - b) / -s + 1) else otherwise
  | .ne =>
    if s = 1 ∧ a ≤ b then Word.ofInt? (b - a)
    else if s = -1 ∧ b ≤ a then Word.ofInt? (a - b)
    else otherwise
  | _ => otherwise

namespace Graph

/-- The constant a node adds to the variable called `name`. -/
def constantStep? (g : Graph) (name : String) (node : NodeId) : Option Int64 :=
  match g.kind? node with
  | some (.unary op input) =>
    if g.refersTo name input then
      match op with
      | .increment => some 1
      | .decrement => some (-1)
      | _ => none
    else none
  | some (.assignment op lhs rhs) =>
    if g.refersTo name lhs then
      match op with
      | .add => g.literal? rhs
      | .sub => (g.literal? rhs).bind Word.neg?
      | .assign =>
        match g.kind? rhs with
        | some (.binary .add l r) =>
          if g.refersTo name l then g.literal? r
          else if g.refersTo name r then g.literal? l
          else none
        | some (.binary .sub l r) =>
          if g.refersTo name l then (g.literal? r).bind Word.neg? else none
        | _ => none
      | _ => none
    else none
  | _ => none

/-- The variable a node sets to a literal, and the literal. -/
def literalStart? (g : Graph) (node : NodeId) : Option (String × Int64) :=
  match g.kind? node with
  | some (.declaration name _ (some value)) => (g.literal? value).map (name, ·)
  | some (.assignment .assign lhs rhs) =>
    match g.kind? lhs with
    | some (.reference name _ _) => (g.literal? rhs).map (name, ·)
    | _ => none
  | _ => none

end Graph

structure CountedLoop where
  trips : Int64
  /-- What one trip adds to the tracked variable. -/
  growth : Int64
  /-- The nodes outside the loop that lead into it. -/
  entrances : List NodeId
  deriving DecidableEq

namespace CountedLoop

/-- What some nodes of a loop add to the variable `name`, with one more node. It is unknown if the
loop branches below its head, if the counter is written outside the iteration node, or if a write to
`name` is not a constant step. -/
def accumulate (g : Graph) (name counter : String) (head iteration : NodeId) (sum : Int64)
    (node : NodeId) : Option Int64 :=
  if node ≠ head ∧ (g.next node).length ≠ 1 then none
  else match g.writtenVariable? node with
    | none => some sum
    | some written =>
      if written = counter ∧ node ≠ iteration then none
      else if written = name then (g.constantStep? name node).bind (Word.add? sum)
      else some sum

/-- What the nodes of the loop add to the variable `name` in one trip. -/
def growth? (g : Graph) (name counter : String) (head iteration : NodeId) (region : List NodeId) :
    Option Int64 :=
  region.foldlM (accumulate g name counter head iteration) 0

/-- Reads the `for` loop at `head` as a counted loop that does not count by the variable `name`. -/
def find? (g : Graph) (name : String) (head : NodeId) : Option CountedLoop :=
  match g.kind? head with
  | some (.forLoop (some initializer) (some condition) (some iteration)) => do
    let (counter, start) ← g.literalStart? initializer
    guard (counter ≠ name)
    let step ← g.constantStep? counter iteration
    guard (step ≠ 0)
    let (op, bound) ← g.comparisonWith? counter condition
    let trips ← tripCount? op start bound step
    let region := g.cycleOf head
    guard (2 ≤ region.length)
    let growth ← growth? g name counter head iteration region
    return ⟨trips, growth, region.flatMap fun node => (g.prev node).filter (· ∉ region)⟩
  | _ => none

/-- The values with which the loop is entered. -/
def entry (l : CountedLoop) (general : Store NodeId) : Interval :=
  l.entrances.foldl (fun value node => value.join (general.valueOf node)) .bottom

/-- The values at the head of the loop. Nothing is known of a loop that is not entered or whose
growth overflows. -/
def summary? (l : CountedLoop) (general : Store NodeId) : Except Undefined (Option Interval) :=
  if l.entry general = .bottom then .ok none
  else match Word.mul? l.trips l.growth with
    | none => .ok none
    | some total => some <$> (l.entry general).add (.range 0 total)

end CountedLoop

end IntervalFlow
