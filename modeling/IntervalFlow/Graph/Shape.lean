import IntervalFlow.Graph.Operator

/-!
# Node shapes

What a node of an evaluation order graph denotes. The shape is generic in the way operators are
given (`U`, `B` and `A` for unary, binary and assignment operators) and in the way a node refers to
its children (`ι`).
-/

namespace IntervalFlow

inductive Shape (U B A ι : Type) where
  | declaration (name type : String) (initializer : Option ι)
  | reference (name type : String) (declaration : Option ι)
  | literal (value : Option Int64)
  | unary (op : U) (input : ι)
  | binary (op : B) (lhs rhs : ι)
  | assignment (op : A) (lhs rhs : ι)
  | arrayCreation (dimension : Option ι)
  | initializerList (elements : List ι)
  | subscript (base index : ι)
  | call (name : String) (arguments : List ι)
  | branch (condition : ι)
  | forLoop (initializer condition iteration : Option ι)
  | whileLoop (condition : ι)
  | doWhileLoop (condition : ι)
  | forEachLoop (item iterable : ι)
  | other (label : String)
  deriving DecidableEq

/-- The shape of a node in a graph. -/
abbrev NodeKind := Shape UnaryOp BinaryOp AssignOp NodeId

namespace Shape

variable {U B A ι : Type}

def label : Shape U B A ι → String
  | declaration .. => "declaration"
  | reference .. => "reference"
  | literal _ => "literal"
  | unary .. => "unary operator"
  | binary .. => "binary operator"
  | assignment .. => "assignment"
  | arrayCreation _ => "array creation"
  | initializerList _ => "initializer list"
  | subscript .. => "subscript"
  | call .. => "call"
  | branch _ => "if"
  | forLoop .. => "for"
  | whileLoop _ => "while"
  | doWhileLoop _ => "do-while"
  | forEachLoop .. => "for-each"
  | other label => label

/-- The nodes a node refers to, in the order of its fields. -/
def children : Shape U B A ι → List ι
  | declaration _ _ initializer => initializer.toList
  | reference _ _ target => target.toList
  | literal _ => []
  | unary _ input => [input]
  | binary _ lhs rhs => [lhs, rhs]
  | assignment _ lhs rhs => [lhs, rhs]
  | arrayCreation dimension => dimension.toList
  | initializerList elements => elements
  | subscript base index => [base, index]
  | call _ arguments => arguments
  | branch condition => [condition]
  | forLoop initializer condition iteration =>
    initializer.toList ++ condition.toList ++ iteration.toList
  | whileLoop condition => [condition]
  | doWhileLoop condition => [condition]
  | forEachLoop item iterable => [item, iterable]
  | other _ => []

/-- The condition on which a node branches. -/
def condition? : Shape U B A ι → Option ι
  | branch condition | whileLoop condition | doWhileLoop condition => some condition
  | forLoop _ condition _ => condition
  | _ => none

def isLoop : Shape U B A ι → Bool
  | forLoop .. | whileLoop _ | doWhileLoop _ | forEachLoop .. => true
  | _ => false

def isDeclaration : Shape U B A ι → Bool
  | declaration .. => true
  | _ => false

/-- Replaces operators and children. A failing replacement ends the traversal; operators come before
children, and children in the order of the fields. -/
def traverse {U' B' A' ι' ε : Type} (unaryOp : U → Except ε U') (binaryOp : B → Except ε B')
    (assignOp : A → Except ε A') (child : ι → Except ε ι') :
    Shape U B A ι → Except ε (Shape U' B' A' ι')
  | declaration name type initializer => do return declaration name type (← initializer.mapM child)
  | reference name type target => do return reference name type (← target.mapM child)
  | literal value => return literal value
  | unary op input => do return unary (← unaryOp op) (← child input)
  | binary op lhs rhs => do return binary (← binaryOp op) (← child lhs) (← child rhs)
  | assignment op lhs rhs => do return assignment (← assignOp op) (← child lhs) (← child rhs)
  | arrayCreation dimension => do return arrayCreation (← dimension.mapM child)
  | initializerList elements => do return initializerList (← elements.mapM child)
  | subscript base index => do return subscript (← child base) (← child index)
  | call name arguments => do return call name (← arguments.mapM child)
  | branch condition => do return branch (← child condition)
  | forLoop initializer condition iteration => do
    return forLoop (← initializer.mapM child) (← condition.mapM child) (← iteration.mapM child)
  | whileLoop condition => do return whileLoop (← child condition)
  | doWhileLoop condition => do return doWhileLoop (← child condition)
  | forEachLoop item iterable => do return forEachLoop (← child item) (← child iterable)
  | other label => return other label

end Shape

end IntervalFlow
