import IntervalFlow.Error
import IntervalFlow.Fixpoint.Status
import IntervalFlow.Interval.Basic
import IntervalFlow.Settings

/-!
# Events

What the program reports while it works, and the wording of the reports.
-/

namespace IntervalFlow

inductive Event where
  /-- A join with a malformed interval. -/
  | joinFailed (a b : Interval)
  /-- A meet with a malformed interval. -/
  | meetFailed (a b : Interval)
  /-- The limit on visits cannot be read. -/
  | limitIgnored (text : String) (fault : Numeral.Fault)
  /-- A write whose value cannot be computed. -/
  | valueUnknown (name : String) (node : NodeId) (cause : Error)
  /-- A node that was done has to be visited again. -/
  | reopened (node : NodeId) (status : Status)
  | visited (node : NodeId) (status : Status) (input output : Interval)
  /-- Nothing is left to visit. -/
  | settled (name : String) (visits : Nat)
  /-- A reference that is not resolved. -/
  | undeclared (name : String) (node : NodeId)
  | opened (level : Nat) (title : String)
  | noted (level : Nat) (text : String)
  | closed (level : Nat) (title : String) (notes : Nat)
  deriving DecidableEq

namespace Event

/-- How important an event is. -/
def severity : Event → String
  | joinFailed .. | meetFailed .. | limitIgnored .. => "WARN"
  | valueUnknown .. | settled .. | undeclared .. => "DEBUG"
  | reopened .. | visited .. | opened .. | noted .. | closed .. => "TRACE"

/-- Two blanks for every level. -/
def indentation (level : Nat) : String := String.join (List.replicate level "  ")

def message : Event → String
  | joinFailed a b => "unable to join " ++ a.render ++ " and " ++ b.render ++ ", assuming top"
  | meetFailed a b => "unable to meet " ++ a.render ++ " and " ++ b.render ++ ", assuming top"
  | limitIgnored text fault =>
    "ignoring ABSINT_FIXPOINT_LIMIT `" ++ text ++ "` (" ++ fault.message ++ "), using " ++
      toString Environment.defaultLimit
  | valueUnknown name node cause =>
    "`" ++ name ++ "` is unknown after " ++ node.render ++ ": " ++ cause.message
  | reopened node status => node.render ++ " reopened as " ++ status.render
  | visited node status input output =>
    "visit " ++ node.render ++ " [" ++ status.render ++ "] in: " ++ input.render ++
      ", out: " ++ output.render
  | settled name visits =>
    "fixpoint for `" ++ name ++ "` reached after " ++ toString visits ++ " visits"
  | undeclared name node => "`" ++ name ++ "` at " ++ node.render ++ " has no declaration"
  | opened level title => indentation level ++ "-> " ++ title
  | noted level text => indentation level ++ " " ++ text
  | closed level title notes =>
    indentation level ++ "<- " ++ title ++ " (" ++ toString notes ++ " events)"

def render (event : Event) : String := event.severity ++ " " ++ event.message

end Event

end IntervalFlow
