import IntervalFlow.Word

/-!
# Bounds

The ends of an interval: 64-bit words extended with two infinities. Arithmetic is that of the
extended integers, and a finite result that leaves the 64-bit range becomes the infinity on its side.
-/

namespace IntervalFlow

inductive Bound where
  | negInf
  | fin (value : Int64)
  | posInf
  deriving DecidableEq

/-- Bound arithmetic without a value: opposite infinities added, equal infinities subtracted, a zero
divisor, or two infinite operands of a quotient. -/
inductive Undefined where
  | sum (a b : Bound)
  | difference (a b : Bound)
  | quotient (a b : Bound)
  deriving DecidableEq

namespace Bound

protected def Le : Bound → Bound → Prop
  | negInf, _ => True
  | _, posInf => True
  | fin a, fin b => a ≤ b
  | _, _ => False

instance : LE Bound := ⟨Bound.Le⟩

instance (a b : Bound) : Decidable (a ≤ b) :=
  match a, b with
  | negInf, _ => .isTrue (by simp [LE.le, Bound.Le])
  | fin _, posInf => .isTrue (by simp [LE.le, Bound.Le])
  | posInf, posInf => .isTrue (by simp [LE.le, Bound.Le])
  | fin x, fin y => inferInstanceAs (Decidable (x ≤ y))
  | fin _, negInf => .isFalse (by simp [LE.le, Bound.Le])
  | posInf, negInf => .isFalse (by simp [LE.le, Bound.Le])
  | posInf, fin _ => .isFalse (by simp [LE.le, Bound.Le])

instance : LT Bound := ⟨fun a b => ¬ b ≤ a⟩

instance (a b : Bound) : Decidable (a < b) := inferInstanceAs (Decidable (¬ b ≤ a))

instance : Max Bound := maxOfLe

instance : Min Bound := minOfLe

instance : Ord Bound := ⟨fun a b => if a < b then .lt else if b < a then .gt else .eq⟩

def value? : Bound → Option Int64
  | fin v => some v
  | _ => none

def isFinite (b : Bound) : Bool := b.value?.isSome

/-- The sign of a bound as `-1`, `0` or `1`. -/
def sign : Bound → Int
  | negInf => -1
  | fin v => v.toInt.sign
  | posInf => 1

/-- The infinity on the side of `s`. -/
def infinity (s : Int) : Bound := if s < 0 then negInf else posInf

def neg : Bound → Bound
  | negInf => posInf
  | fin a => ((Word.neg? a).map fin).getD posInf
  | posInf => negInf

/-- A finite sum overflows on the side of its second operand. -/
def add : Bound → Bound → Except Undefined Bound
  | fin a, fin b => .ok (((Word.add? a b).map fin).getD (infinity (fin b).sign))
  | negInf, posInf => .error (.sum negInf posInf)
  | posInf, negInf => .error (.sum posInf negInf)
  | negInf, _ => .ok negInf
  | _, negInf => .ok negInf
  | posInf, _ => .ok posInf
  | _, posInf => .ok posInf

/-- A finite difference overflows on the side opposite to its second operand. -/
def sub : Bound → Bound → Except Undefined Bound
  | fin a, fin b => .ok (((Word.sub? a b).map fin).getD (infinity (-(fin b).sign)))
  | negInf, negInf => .error (.difference negInf negInf)
  | posInf, posInf => .error (.difference posInf posInf)
  | posInf, _ => .ok posInf
  | _, negInf => .ok posInf
  | negInf, _ => .ok negInf
  | _, posInf => .ok negInf

/-- Zero times an infinity is zero. -/
def mul : Bound → Bound → Bound
  | fin a, fin b => ((Word.mul? a b).map fin).getD (infinity ((fin a).sign * (fin b).sign))
  | a, b => if a.sign * b.sign = 0 then fin 0 else infinity (a.sign * b.sign)

/-- Division rounds toward zero. The one finite quotient that overflows is positive, and a finite
value over an infinity is zero. -/
def div : Bound → Bound → Except Undefined Bound
  | fin a, fin b =>
    if b = 0 then .error (.quotient (fin a) (fin b))
    else .ok (((Word.div? a b).map fin).getD posInf)
  | fin _, _ => .ok (fin 0)
  | a, fin b =>
    if b = 0 then .error (.quotient a (fin b)) else .ok (infinity (a.sign * (fin b).sign))
  | a, b => .error (.quotient a b)

def render : Bound → String
  | negInf => "-inf"
  | fin v => Word.render v
  | posInf => "+inf"

end Bound

def Undefined.message : Undefined → String
  | sum a b => a.render ++ " + " ++ b.render
  | difference a b => a.render ++ " - " ++ b.render
  | quotient a b => a.render ++ " / " ++ b.render

end IntervalFlow
