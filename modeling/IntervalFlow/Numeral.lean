/-!
# Numerals

Unsigned 64-bit numbers as settings write them: ASCII digits, with a `+` in front or not.
-/

namespace IntervalFlow.Numeral

/-- Why a text is not a numeral. -/
inductive Fault where
  | empty
  | invalidDigit
  | tooLarge
  deriving DecidableEq

def Fault.message : Fault → String
  | empty => "cannot parse integer from empty string"
  | invalidDigit => "invalid digit found in string"
  | tooLarge => "number too large to fit in target type"

/-- Reads digits after those that make up `value`. The first fault from the left counts. -/
def digits (value : Nat) : List Char → Except Fault Nat
  | [] => .ok value
  | c :: rest =>
    if c.isDigit then
      let next := 10 * value + (c.toNat - '0'.toNat)
      if next < UInt64.size then digits next rest else .error .tooLarge
    else .error .invalidDigit

def parse (text : String) : Except Fault Nat :=
  match text.toList with
  | [] => .error .empty
  | ['+'] => .error .invalidDigit
  | '+' :: rest => digits 0 rest
  | cs => digits 0 cs

end IntervalFlow.Numeral
