/-!
# Words

Exact arithmetic on 64-bit signed words. The operations ending in `?` compute over the integers
and give `none` when the result does not fit.
-/

namespace IntervalFlow.Word

/-- The word that holds `n`, if `n` fits in 64 bits. -/
def ofInt? (n : Int) : Option Int64 :=
  if Int64.minValue.toInt ≤ n ∧ n ≤ Int64.maxValue.toInt then some (Int64.ofInt n) else none

def neg? (a : Int64) : Option Int64 := ofInt? (-a.toInt)

def add? (a b : Int64) : Option Int64 := ofInt? (a.toInt + b.toInt)

def sub? (a b : Int64) : Option Int64 := ofInt? (a.toInt - b.toInt)

def mul? (a b : Int64) : Option Int64 := ofInt? (a.toInt * b.toInt)

/-- The quotient rounded toward zero. -/
def div? (a b : Int64) : Option Int64 := ofInt? (a.toInt.tdiv b.toInt)

/-- The remainder with the sign of the dividend. It is smaller than the divisor, so it always fits. -/
def rem (a b : Int64) : Int64 := Int64.ofInt (a.toInt.tmod b.toInt)

/-- Decimal text, with a leading `-` for negative words. -/
def render (a : Int64) : String := toString a.toInt

end IntervalFlow.Word
