import IntervalFlow.Bound

/-!
# Intervals

The lattice of integer intervals ordered by containment. An interval may come with its lower bound
above its upper one; such an interval is not `WellFormed`, compares with nothing, and a merge that
meets one gives up and answers with everything.
-/

namespace IntervalFlow

inductive Interval where
  | bottom
  | bounded (lower upper : Bound)
  deriving DecidableEq

namespace Interval

/-! ## Constructors and views -/

def top : Interval := bounded .negInf .posInf

/-- The interval between two bounds, given in either order. -/
def between (a b : Bound) : Interval := bounded (min a b) (max a b)

/-- The interval between two words, given in either order. -/
def range (a b : Int64) : Interval := between (.fin a) (.fin b)

def constant (v : Int64) : Interval := bounded (.fin v) (.fin v)

def atLeast (v : Int64) : Interval := bounded (.fin v) .posInf

def atMost (v : Int64) : Interval := bounded .negInf (.fin v)

def bounds? : Interval → Option (Bound × Bound)
  | bottom => none
  | bounded lower upper => some (lower, upper)

/-- The only value of an interval with equal finite ends. -/
def constant? : Interval → Option Int64
  | bounded (.fin a) (.fin b) => if a = b then some a else none
  | _ => none

protected def Mem (a : Interval) (v : Int64) : Prop :=
  match a with
  | bottom => False
  | bounded lower upper => lower ≤ .fin v ∧ .fin v ≤ upper

instance : Membership Int64 Interval := ⟨Interval.Mem⟩

instance (v : Int64) (a : Interval) : Decidable (v ∈ a) :=
  match a with
  | bottom => .isFalse id
  | bounded lower upper => inferInstanceAs (Decidable (lower ≤ .fin v ∧ .fin v ≤ upper))

def WellFormed : Interval → Prop
  | bottom => True
  | bounded lower upper => lower ≤ upper

instance (a : Interval) : Decidable a.WellFormed :=
  match a with
  | bottom => .isTrue trivial
  | bounded lower upper => inferInstanceAs (Decidable (lower ≤ upper))

/-! ## Order -/

/-- Containment as a partial comparison: `lt` when the first interval is the smaller set. -/
def order? : Interval → Interval → Option Ordering
  | bottom, bottom => some .eq
  | bottom, bounded _ _ => some .lt
  | bounded _ _, bottom => some .gt
  | bounded l₁ u₁, bounded l₂ u₂ =>
    if ¬ (l₁ ≤ u₁ ∧ l₂ ≤ u₂) then none
    else if l₁ = l₂ ∧ u₁ = u₂ then some .eq
    else if l₂ ≤ l₁ ∧ u₁ ≤ u₂ then some .lt
    else if l₁ ≤ l₂ ∧ u₂ ≤ u₁ then some .gt
    else none

def isWithin (a b : Interval) : Bool :=
  match a.order? b with
  | some .lt | some .eq => true
  | _ => false

/-- Compares by position: an interval that overlaps another is `eq` to it, and `bottom` lies before
every other interval. -/
def overlap : Interval → Interval → Ordering
  | bottom, bottom => .eq
  | bottom, bounded _ _ => .lt
  | bounded _ _, bottom => .gt
  | bounded l₁ u₁, bounded l₂ u₂ => if u₂ < l₁ then .gt else if u₁ < l₂ then .lt else .eq

/-! ## Merging -/

def join : Interval → Interval → Interval
  | bottom, b => b
  | a, bottom => a
  | bounded l₁ u₁, bounded l₂ u₂ =>
    if l₁ ≤ u₁ ∧ l₂ ≤ u₂ then bounded (min l₁ l₂) (max u₁ u₂) else top

/-- The common part of two intervals, where `bottom` stands for a missing operand. -/
def meet : Interval → Interval → Interval
  | bottom, b => b
  | a, bottom => a
  | bounded l₁ u₁, bounded l₂ u₂ =>
    if l₁ ≤ u₁ ∧ l₂ ≤ u₂ then
      if (bounded l₁ u₁).overlap (bounded l₂ u₂) = .eq then bounded (max l₁ l₂) (min u₁ u₂)
      else bottom
    else top

/-- The common part of two intervals, where `bottom` is the empty set. -/
def restrict : Interval → Interval → Interval
  | bottom, _ => bottom
  | _, bottom => bottom
  | a, b => a.meet b

/-- Pushes every bound that `b` exceeds out to infinity. -/
def widen : Interval → Interval → Interval
  | bottom, b => b
  | a, bottom => a
  | bounded l₁ u₁, bounded l₂ u₂ =>
    bounded (if l₂ < l₁ then .negInf else l₁) (if u₁ < u₂ then .posInf else u₁)

/-- Replaces infinite bounds by those of `b`. -/
def narrow : Interval → Interval → Interval
  | bounded l₁ u₁, bounded l₂ u₂ =>
    let lower := if l₁ = .negInf then l₂ else l₁
    let upper := if u₁ = .posInf then u₂ else u₁
    if upper < lower then bottom else bounded lower upper
  | _, _ => bottom

def render : Interval → String
  | bottom => "BOTTOM"
  | bounded lower upper => "[" ++ lower.render ++ ", " ++ upper.render ++ "]"

end Interval

end IntervalFlow
