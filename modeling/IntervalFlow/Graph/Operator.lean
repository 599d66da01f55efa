import IntervalFlow.Error

/-!
# Operators

The operators of expressions and assignments, each family with its vocabulary of symbols.
-/

namespace IntervalFlow

inductive UnaryOp where
  | increment | decrement | negate | plus | not
  deriving DecidableEq

inductive BinaryOp where
  | add | sub | mul | div | rem
  | lt | le | gt | ge | eq | ne
  | and | or
  deriving DecidableEq

inductive AssignOp where
  | assign | add | sub | mul | div | rem
  deriving DecidableEq

/-- The operator of a vocabulary whose symbol is the given text. -/
def parseOperator {Op : Type} (vocabulary : List Op) (symbol : Op → String) (text : String) :
    Except Error Op :=
  match vocabulary.find? (symbol · = text) with
  | some op => .ok op
  | none => .error (.unsupported (.operator text))

namespace UnaryOp

def symbol : UnaryOp → String
  | increment => "++"
  | decrement => "--"
  | negate => "-"
  | plus => "+"
  | not => "!"

def all : List UnaryOp := [increment, decrement, negate, plus, not]

def parse : String → Except Error UnaryOp := parseOperator all symbol

/-- Whether the operator changes the variable it is applied to. -/
def isStep : UnaryOp → Bool
  | increment | decrement => true
  | _ => false

end UnaryOp

namespace BinaryOp

def symbol : BinaryOp → String
  | add => "+"
  | sub => "-"
  | mul => "*"
  | div => "/"
  | rem => "%"
  | lt => "<"
  | le => "<="
  | gt => ">"
  | ge => ">="
  | eq => "=="
  | ne => "!="
  | and => "&&"
  | or => "||"

def all : List BinaryOp := [add, sub, mul, div, rem, lt, le, gt, ge, eq, ne, and, or]

def parse : String → Except Error BinaryOp := parseOperator all symbol

/-- The comparison that holds exactly when this one does not. -/
def negate? : BinaryOp → Option BinaryOp
  | lt => some ge
  | ge => some lt
  | le => some gt
  | gt => some le
  | eq => some ne
  | ne => some eq
  | _ => none

/-- The same comparison with its operands exchanged. -/
def flip? : BinaryOp → Option BinaryOp
  | lt => some gt
  | gt => some lt
  | le => some ge
  | ge => some le
  | eq => some eq
  | ne => some ne
  | _ => none

def isComparison (op : BinaryOp) : Bool := op.negate?.isSome

/-- Whether a comparison holds of two integers. Other operators always hold. -/
def holds : BinaryOp → Int → Int → Bool
  | lt, a, b => a < b
  | le, a, b => a ≤ b
  | gt, a, b => b < a
  | ge, a, b => b ≤ a
  | eq, a, b => a = b
  | ne, a, b => a ≠ b
  | _, _, _ => true

end BinaryOp

namespace AssignOp

def symbol : AssignOp → String
  | assign => "="
  | add => "+="
  | sub => "-="
  | mul => "*="
  | div => "/="
  | rem => "%="

def all : List AssignOp := [assign, add, sub, mul, div, rem]

def parse : String → Except Error AssignOp := parseOperator all symbol

end AssignOp

end IntervalFlow
