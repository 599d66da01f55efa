import IntervalFlow.Interval.Basic

/-!
# Abstract domains

The operations an abstract value offers to the analysis, for intervals and, componentwise, for pairs.
-/

namespace IntervalFlow

class Domain (α : Type) where
  bottom : α
  join : α → α → α
  meet : α → α → α
  widen : α → α → α
  narrow : α → α → α
  /-- The partial order, `none` where two values do not compare. -/
  order? : α → α → Option Ordering

/-- The product of two comparisons: they have to agree, and `eq` agrees with everything. -/
def Domain.combine : Option Ordering → Option Ordering → Option Ordering
  | some .eq, o => o
  | o, some .eq => o
  | some a, some b => if a = b then some a else none
  | _, _ => none

instance : Domain Interval where
  bottom := .bottom
  join := .join
  meet := .meet
  widen := .widen
  narrow := .narrow
  order? := Interval.order?

instance {α β : Type} [Domain α] [Domain β] : Domain (α × β) where
  bottom := (Domain.bottom, Domain.bottom)
  join a b := (Domain.join a.1 b.1, Domain.join a.2 b.2)
  meet a b := (Domain.meet a.1 b.1, Domain.meet a.2 b.2)
  widen a b := (Domain.widen a.1 b.1, Domain.widen a.2 b.2)
  narrow a b := (Domain.narrow a.1 b.1, Domain.narrow a.2 b.2)
  order? a b := Domain.combine (Domain.order? a.1 b.1) (Domain.order? a.2 b.2)

end IntervalFlow
