import IntervalFlow.Interval.Basic

/-!
# Interval arithmetic

Each operation on intervals covers the operation on their members. `bottom` absorbs.
-/

namespace IntervalFlow.Interval

def neg : Interval → Interval
  | bottom => bottom
  | bounded lower upper => bounded upper.neg lower.neg

def add : Interval → Interval → Except Undefined Interval
  | bounded l₁ u₁, bounded l₂ u₂ => do return bounded (← l₁.add l₂) (← u₁.add u₂)
  | _, _ => .ok bottom

def sub : Interval → Interval → Except Undefined Interval
  | bounded l₁ u₁, bounded l₂ u₂ => do return bounded (← l₁.sub u₂) (← u₁.sub l₂)
  | _, _ => .ok bottom

/-- The smallest interval around four bounds. -/
def hull (a b c d : Bound) : Interval :=
  bounded (min (min a b) (min c d)) (max (max a b) (max c d))

def mul : Interval → Interval → Interval
  | bounded l₁ u₁, bounded l₂ u₂ => hull (l₁.mul l₂) (l₁.mul u₂) (u₁.mul l₂) (u₁.mul u₂)
  | _, _ => bottom

/-- A divisor that may be zero leaves the quotient unknown. -/
def div : Interval → Interval → Except Undefined Interval
  | bounded l₁ u₁, bounded l₂ u₂ =>
    if (0 : Int64) ∈ bounded l₂ u₂ then .ok top
    else do return hull (← l₁.div l₂) (← l₁.div u₂) (← u₁.div l₂) (← u₁.div u₂)
  | _, _ => .ok bottom

/-- The largest magnitude of a remainder by `b`, one less than the magnitude of `b`. -/
def remainderLimit : Bound → Bound
  | .fin v => ((Word.ofInt? v.toInt.natAbs).bind (Word.sub? · 1)).elim .posInf .fin
  | _ => .posInf

/-- A remainder has the sign of the dividend, at most its magnitude, and a smaller magnitude than
the divisor. A divisor that may be zero leaves it unknown. -/
def rem : Interval → Interval → Interval
  | bounded l₁ u₁, bounded l₂ u₂ =>
    if (0 : Int64) ∈ bounded l₂ u₂ then top
    else match (bounded l₁ u₁).constant?, (bounded l₂ u₂).constant? with
      | some a, some b => constant (Word.rem a b)
      | _, _ =>
        let limit := max (remainderLimit l₂) (remainderLimit u₂)
        bounded
          (if .fin 0 ≤ l₁ then .fin 0 else max l₁ limit.neg)
          (if u₁ ≤ .fin 0 then .fin 0 else min u₁ limit)
  | _, _ => bottom

end IntervalFlow.Interval
