import IntervalFlow.Graph.Description
import IntervalFlow.Json.Basic

/-!
# Graph descriptions in JSON

Every field is written, those without a value as null, and the latter may be left out when read.
Fields that a form does not know are ignored, and one that it knows is not given twice.
-/

namespace IntervalFlow

namespace DescribedNode

open Json (required optional listOf?)

def shapeToJson : Shape String String String UInt64 → Json
  | .declaration name type initializer => .obj [("VariableDeclaration", .obj
      [("name", .str name), ("ty", .str type), ("initializer", .ofOption .ofUInt64 initializer)])]
  | .reference name type declaration => .obj [("Reference", .obj
      [("name", .str name), ("ty", .str type), ("declaration", .ofOption .ofUInt64 declaration)])]
  | .literal value => .obj [("Literal", .obj [("value", .ofOption .ofInt64 value)])]
  | .unary op input => .obj [("UnaryOperator", .obj
      [("operator", .str op), ("input", .ofUInt64 input)])]
  | .binary op lhs rhs => .obj [("BinaryOperator", .obj
      [("operator", .str op), ("lhs", .ofUInt64 lhs), ("rhs", .ofUInt64 rhs)])]
  | .assignment op lhs rhs => .obj [("Assignment", .obj
      [("operator", .str op), ("lhs", .ofUInt64 lhs), ("rhs", .ofUInt64 rhs)])]
  | .arrayCreation dimension => .obj [("ArrayCreation", .obj
      [("dimension", .ofOption .ofUInt64 dimension)])]
  | .initializerList elements => .obj [("InitializerList", .obj
      [("elements", .arr (elements.map .ofUInt64))])]
  | .subscript base index => .obj [("Subscript", .obj
      [("base", .ofUInt64 base), ("index", .ofUInt64 index)])]
  | .call name arguments => .obj [("Call", .obj
      [("name", .str name), ("arguments", .arr (arguments.map .ofUInt64))])]
  | .branch condition => .obj [("If", .obj [("condition", .ofUInt64 condition)])]
  | .forLoop initializer condition iteration => .obj [("For", .obj
      [("initializer", .ofOption .ofUInt64 initializer),
       ("condition", .ofOption .ofUInt64 condition),
       ("iteration", .ofOption .ofUInt64 iteration)])]
  | .whileLoop condition => .obj [("While", .obj [("condition", .ofUInt64 condition)])]
  | .doWhileLoop condition => .obj [("DoWhile", .obj [("condition", .ofUInt64 condition)])]
  | .forEachLoop item iterable => .obj [("ForEach", .obj
      [("variable", .ofUInt64 item), ("iterable", .ofUInt64 iterable)])]
  | .other label => .obj [("Other", .obj [("label", .str label)])]

/-- The shape with the given tag and fields. -/
def shapeOfFields? (fields : List (String × Json)) :
    String → Option (Shape String String String UInt64)
  | "VariableDeclaration" => do
    return .declaration (← required Json.string? fields "name")
      (← required Json.string? fields "ty") (← optional Json.uint64? fields "initializer")
  | "Reference" => do
    return .reference (← required Json.string? fields "name")
      (← required Json.string? fields "ty") (← optional Json.uint64? fields "declaration")
  | "Literal" => do return .literal (← optional Json.int64? fields "value")
  | "UnaryOperator" => do
    return .unary (← required Json.string? fields "operator")
      (← required Json.uint64? fields "input")
  | "BinaryOperator" => do
    return .binary (← required Json.string? fields "operator")
      (← required Json.uint64? fields "lhs") (← required Json.uint64? fields "rhs")
  | "Assignment" => do
    return .assignment (← required Json.string? fields "operator")
      (← required Json.uint64? fields "lhs") (← required Json.uint64? fields "rhs")
  | "ArrayCreation" => do return .arrayCreation (← optional Json.uint64? fields "dimension")
  | "InitializerList" => do
    return .initializerList (← required (listOf? Json.uint64?) fields "elements")
  | "Subscript" => do
    return .subscript (← required Json.uint64? fields "base") (← required Json.uint64? fields "index")
  | "Call" => do
    return .call (← required Json.string? fields "name")
      (← required (listOf? Json.uint64?) fields "arguments")
  | "If" => do return .branch (← required Json.uint64? fields "condition")
  | "For" => do
    return .forLoop (← optional Json.uint64? fields "initializer")
      (← optional Json.uint64? fields "condition") (← optional Json.uint64? fields "iteration")
  | "While" => do return .whileLoop (← required Json.uint64? fields "condition")
  | "DoWhile" => do return .doWhileLoop (← required Json.uint64? fields "condition")
  | "ForEach" => do
    return .forEachLoop (← required Json.uint64? fields "variable")
      (← required Json.uint64? fields "iterable")
  | "Other" => do return .other (← required Json.string? fields "label")
  | _ => none

def shapeOfJson? : Json → Option (Shape String String String UInt64)
  | .obj [(tag, .obj fields)] => shapeOfFields? fields tag
  | _ => none

def toJson (node : DescribedNode) : Json :=
  .obj [("id", .ofUInt64 node.id), ("repr", shapeToJson node.shape)]

def ofJson? : Json → Option DescribedNode
  | .obj fields => do
    return ⟨← required Json.uint64? fields "id", ← required shapeOfJson? fields "repr"⟩
  | _ => none

end DescribedNode

namespace DescribedEdge

def toJson (e : DescribedEdge) : Json :=
  .obj [("from", .ofUInt64 e.source), ("to", .ofUInt64 e.target),
    ("branch", .ofOption .bool e.branch)]

def ofJson? : Json → Option DescribedEdge
  | .obj fields => do
    return ⟨← Json.required Json.uint64? fields "from", ← Json.required Json.uint64? fields "to",
      ← Json.optional Json.bool? fields "branch"⟩
  | _ => none

end DescribedEdge

namespace Description

def toJson (d : Description) : Json :=
  .obj [("nodes", .arr (d.nodes.map (·.toJson))), ("edges", .arr (d.edges.map (·.toJson)))]

def ofJson? : Json → Option Description
  | .obj fields => do
    return ⟨← Json.required (Json.listOf? DescribedNode.ofJson?) fields "nodes",
      ← Json.required (Json.listOf? DescribedEdge.ofJson?) fields "edges"⟩
  | _ => none

end Description

end IntervalFlow
