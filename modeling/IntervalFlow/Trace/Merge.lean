import IntervalFlow.FlowState
import IntervalFlow.Trace.Event

/-!
# Reports of merges

The warnings that joins and meets give. Only a merge of two nonempty intervals, one of them
malformed, gives one.
-/

namespace IntervalFlow

namespace Interval

/-- Whether a merge has to give up. -/
def mergeFails (a b : Interval) : Bool :=
  a ≠ bottom && b ≠ bottom && !(decide a.WellFormed && decide b.WellFormed)

def joinEvents (a b : Interval) : List Event :=
  if a.mergeFails b then [.joinFailed a b] else []

def meetEvents (a b : Interval) : List Event :=
  if a.mergeFails b then [.meetFailed a b] else []

/-- A restriction is a meet of intervals that are not empty. -/
def restrictEvents (a b : Interval) : List Event := a.meetEvents b

/-- The events of joining `values` to `start` one after the other. -/
def joinAllEvents (start : Interval) : List Interval → List Event
  | [] => []
  | value :: rest => start.joinEvents value ++ (start.join value).joinAllEvents rest

end Interval

/-- Values whose merges may give warnings. -/
class Reporting (α : Type) where
  joinEvents : α → α → List Event
  meetEvents : α → α → List Event

instance : Reporting Interval where
  joinEvents := Interval.joinEvents
  meetEvents := Interval.meetEvents

instance {α β : Type} [Reporting α] [Reporting β] : Reporting (α × β) where
  joinEvents a b := Reporting.joinEvents a.1 b.1 ++ Reporting.joinEvents a.2 b.2
  meetEvents a b := Reporting.meetEvents a.1 b.1 ++ Reporting.meetEvents a.2 b.2

namespace Store

variable {κ : Type} [DecidableEq κ]

def pushEvents (s : Store κ) (key : κ) (value : Interval) : List Event :=
  match s.get? key with
  | none => []
  | some old => old.joinEvents value

/-- The events of a merge, key by key. -/
def mergeEvents (events : Interval → Interval → List Event) (s t : Store κ) : List Event :=
  (s.keys ++ t.keys).eraseDups.flatMap fun key => events (s.valueOf key) (t.valueOf key)

instance : Reporting (Store κ) where
  joinEvents := mergeEvents Interval.joinEvents
  meetEvents := mergeEvents Interval.meetEvents

end Store

end IntervalFlow
