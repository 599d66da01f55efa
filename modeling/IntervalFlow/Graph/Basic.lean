import IntervalFlow.Graph.Draft

/-!
# Evaluation order graphs

A graph is a draft without a fault. The queries of this module are about single nodes and edges.
-/

namespace IntervalFlow

structure Graph extends Draft where
  faultless : toDraft.violation? = none

/-- Accepts a draft without a fault and reports the first fault of any other. -/
def Draft.build (d : Draft) : Except Violation Graph :=
  match h : d.violation? with
  | some cause => .error cause
  | none => .ok ⟨d, h⟩

namespace Graph

def contains (g : Graph) (node : NodeId) : Bool := node < g.size

def isLoopHead (g : Graph) (node : NodeId) : Bool := (g.kind? node).any (·.isLoop)

def condition? (g : Graph) (node : NodeId) : Option NodeId := (g.kind? node).bind (·.condition?)

/-- The outcome of `source` that leads to `target`. An outcome stated on the edge counts first;
otherwise the first successor of a branching node is its true branch and the second its false one. -/
def branchOf (g : Graph) (source target : NodeId) : Option Bool :=
  match g.edge? source target with
  | none => none
  | some e =>
    match e.branch with
    | some taken => some taken
    | none =>
      if (g.condition? source).isSome || g.isLoopHead source then
        match (g.next source).idxOf? target with
        | some 0 => some true
        | some 1 => some false
        | _ => none
      else none

/-- Whether the edge leaves the loop headed by `source`. -/
def isLoopExit (g : Graph) (source target : NodeId) : Bool :=
  g.isLoopHead source && (g.next source)[1]? = some target

/-- Whether the node is the first one after a loop. -/
def isLoopEnd (g : Graph) (node : NodeId) : Bool :=
  (g.prev node).any (g.isLoopExit · node)

/-- The declaration a reference or a declaration belongs to. -/
def declarationOf? (g : Graph) (node : NodeId) : Option NodeId :=
  match g.kind? node with
  | some (.reference _ _ declaration) => declaration
  | some (.declaration ..) => some node
  | _ => none

/-- The type a reference or a declaration carries. -/
def typeOf? (g : Graph) (node : NodeId) : Option String :=
  match g.kind? node with
  | some (.reference _ type _) | some (.declaration _ type _) => some type
  | _ => none

/-- The name a reference or a declaration carries. -/
def nameOf? (g : Graph) (node : NodeId) : Option String :=
  match g.kind? node with
  | some (.reference name _ _) | some (.declaration name _ _) => some name
  | _ => none

/-- Whether the node is a reference to a variable called `name`. -/
def refersTo (g : Graph) (name : String) (node : NodeId) : Bool :=
  match g.kind? node with
  | some (.reference n _ _) => n = name
  | _ => false

/-- Whether the node declares a variable called `name`. -/
def declares (g : Graph) (name : String) (node : NodeId) : Bool :=
  match g.kind? node with
  | some (.declaration n _ _) => n = name
  | _ => false

def literal? (g : Graph) (node : NodeId) : Option Int64 :=
  match g.kind? node with
  | some (.literal value) => value
  | _ => none

/-- Reads a binary operation of the variable `name` with a literal as the operator and the literal
that follow the variable. -/
def comparisonWith? (g : Graph) (name : String) (node : NodeId) : Option (BinaryOp × Int64) :=
  match g.kind? node with
  | some (.binary op lhs rhs) =>
    if g.refersTo name lhs then (g.literal? rhs).map (op, ·)
    else if g.refersTo name rhs then
      match op.flip?, g.literal? lhs with
      | some flipped, some k => some (flipped, k)
      | _, _ => none
    else none
  | _ => none

/-! ## Writes -/

/-- The operand through which a node changes a variable: the left side of an assignment or the
operand of a step. -/
def assigned? (g : Graph) (node : NodeId) : Option NodeId :=
  match g.kind? node with
  | some (.assignment _ lhs _) => some lhs
  | some (.unary op input) => if op.isStep then some input else none
  | _ => none

/-- The name of the variable a node gives a value. -/
def writtenVariable? (g : Graph) (node : NodeId) : Option String :=
  match g.kind? node with
  | some (.declaration name _ _) => some name
  | _ =>
    match (g.assigned? node).bind g.kind? with
    | some (.reference name _ _) => some name
    | _ => none

/-- The declaration of the variable a node gives a value, where it is known. -/
def writtenDeclaration? (g : Graph) (node : NodeId) : Option NodeId :=
  match g.kind? node with
  | some (.declaration ..) => some node
  | _ =>
    match (g.assigned? node).bind g.kind? with
    | some (.reference _ _ declaration) => declaration
    | _ => none

def writes (g : Graph) (name : String) (node : NodeId) : Bool := g.writtenVariable? node = some name

end Graph

end IntervalFlow
