import IntervalFlow.Effect.Context
import IntervalFlow.Interval.Arithmetic

/-!
# Expressions

The interval of an expression, computed from the interval of the tracked variable and the lifetimes
of the others. Truth values are the integers `0` and `1`.
-/

namespace IntervalFlow

namespace Interval

/-- The interval of a truth value that may be undecided. -/
def ofTruth : Option Bool → Interval
  | some true => constant 1
  | some false => constant 0
  | none => range 0 1

/-- The outcome of a comparison, where the bounds of the operands decide it. -/
def decideComparison (op : BinaryOp) (l₁ u₁ l₂ u₂ : Bound) : Option Bool :=
  let sameConstant := (bounded l₁ u₁).constant?.isSome ∧ bounded l₁ u₁ = bounded l₂ u₂
  let disjoint := (bounded l₁ u₁).overlap (bounded l₂ u₂) ≠ .eq
  match op with
  | .lt => if u₁ < l₂ then some true else if u₂ ≤ l₁ then some false else none
  | .le => if u₁ ≤ l₂ then some true else if u₂ < l₁ then some false else none
  | .gt => if u₂ < l₁ then some true else if u₁ ≤ l₂ then some false else none
  | .ge => if u₂ ≤ l₁ then some true else if u₁ < l₂ then some false else none
  | .eq => if sameConstant then some true else if disjoint then some false else none
  | .ne => if disjoint then some true else if sameConstant then some false else none
  | _ => none

def compare (op : BinaryOp) : Interval → Interval → Interval
  | bounded l₁ u₁, bounded l₂ u₂ => ofTruth (decideComparison op l₁ u₁ l₂ u₂)
  | _, _ => bottom

/-- No value is zero. -/
def isTruthy (a : Interval) : Bool := (0 : Int64) ∉ a

/-- The only value is zero. -/
def isFalsy (a : Interval) : Bool := a.constant? = some 0

def not (a : Interval) : Interval :=
  if a = bottom then bottom
  else if a.isFalsy then constant 1
  else if a.isTruthy then constant 0
  else range 0 1

def and (a b : Interval) : Interval :=
  if a = bottom ∨ b = bottom then bottom
  else if a.isTruthy && b.isTruthy then constant 1
  else if a.isFalsy || b.isFalsy then constant 0
  else range 0 1

def or (a b : Interval) : Interval :=
  if a = bottom ∨ b = bottom then bottom
  else if a.isTruthy || b.isTruthy then constant 1
  else if a.isFalsy && b.isFalsy then constant 0
  else range 0 1

end Interval

def BinaryOp.apply (op : BinaryOp) (a b : Interval) : Except Undefined Interval :=
  match op with
  | .add => a.add b
  | .sub => a.sub b
  | .mul => .ok (a.mul b)
  | .div => a.div b
  | .rem => .ok (a.rem b)
  | .and => .ok (a.and b)
  | .or => .ok (a.or b)
  | comparison => .ok (.compare comparison a b)

/-- The value a variable holding `current` gets from an assignment of `value`. -/
def AssignOp.apply (op : AssignOp) (current value : Interval) : Except Undefined Interval :=
  match op with
  | .assign => .ok value
  | .add => current.add value
  | .sub => current.sub value
  | .mul => .ok (current.mul value)
  | .div => current.div value
  | .rem => .ok (current.rem value)

namespace Context

/-- Undefined arithmetic as an error of the analysis. -/
def arithmetic {α : Type} (result : Except Undefined α) : Except Error α :=
  result.mapError .undefined

def increment (current : Interval) : Except Error Interval :=
  arithmetic (current.add (.constant 1))

def decrement (current : Interval) : Except Error Interval :=
  arithmetic (current.sub (.constant 1))

/-- Evaluates an expression of less than `depth` levels, where the tracked variable holds
`current`. -/
def evaluateWithin (ctx : Context) (current : Interval) : Nat → NodeId → Except Error Interval
  | 0, expression => .error (.violation (.nestedTooDeeply expression))
  | depth + 1, expression =>
    match ctx.graph.kind? expression with
    | none => .error (.violation (.missingExpression expression))
    | some (.literal (some v)) => .ok (.constant v)
    | some (.reference name _ declaration) =>
      if name = ctx.name then .ok current
      else .ok ((declaration.bind ctx.declarations.get?).getD .top)
    | some (.unary .increment input) =>
      if ctx.isTarget input then increment current else .ok .top
    | some (.unary .decrement input) =>
      if ctx.isTarget input then decrement current else .ok .top
    | some (.unary .negate input) => do return (← ctx.evaluateWithin current depth input).neg
    | some (.unary .plus input) => ctx.evaluateWithin current depth input
    | some (.unary .not input) => do return (← ctx.evaluateWithin current depth input).not
    | some (.binary op lhs rhs) => do
      let a ← ctx.evaluateWithin current depth lhs
      let b ← ctx.evaluateWithin current depth rhs
      arithmetic (op.apply a b)
    | some (.assignment .assign _ rhs) => ctx.evaluateWithin current depth rhs
    | some _ => .ok .top

/-- The number of levels an expression may have. -/
def maxDepth : Nat := 257

/-- Evaluates an expression where the tracked variable holds `current`. -/
def evaluate (ctx : Context) (current : Interval) (expression : NodeId) : Except Error Interval :=
  ctx.evaluateWithin current maxDepth expression

end Context

end IntervalFlow
