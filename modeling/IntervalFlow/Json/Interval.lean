import IntervalFlow.FlowState
import IntervalFlow.Json.Basic

/-!
# Intervals in JSON

A choice is written as an object with one field, named for the alternative, that holds its content;
an alternative without content is written as its name alone, and read also with null as content.
Fields that a form does not know are ignored, and one that it knows is not given twice.
-/

namespace IntervalFlow

namespace Bound

def toJson : Bound → Json
  | negInf => .str "NegativeInfinity"
  | fin v => .obj [("Value", .ofInt64 v)]
  | posInf => .str "PositiveInfinity"

def ofJson? : Json → Option Bound
  | .str "NegativeInfinity" | .obj [("NegativeInfinity", .null)] => some negInf
  | .str "PositiveInfinity" | .obj [("PositiveInfinity", .null)] => some posInf
  | .obj [("Value", value)] => value.int64?.map fin
  | _ => none

end Bound

namespace Interval

def toJson : Interval → Json
  | bottom => .str "Bottom"
  | bounded lower upper =>
    .obj [("Bounded", .obj [("lower", lower.toJson), ("upper", upper.toJson)])]

def ofJson? : Json → Option Interval
  | .str "Bottom" | .obj [("Bottom", .null)] => some bottom
  | .obj [("Bounded", .obj fields)] => do
    return bounded (← Json.required Bound.ofJson? fields "lower")
      (← Json.required Bound.ofJson? fields "upper")
  | _ => none

end Interval

namespace Store

def toJson {κ : Type} (keyText : κ → String) (s : Store κ) : Json :=
  .obj [("map", .obj (s.entries.map fun (key, value) => (keyText key, value.toJson)))]

end Store

namespace FlowState

def toJson (s : FlowState) : Json :=
  .obj [("first", s.declarations.toJson toString), ("second", s.general.toJson toString)]

end FlowState

end IntervalFlow
