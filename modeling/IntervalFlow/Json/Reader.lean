import IntervalFlow.Json.Basic

/-!
# Reading JSON

From text to values. A reader takes what it needs from the front of the text and gives back the
rest. The nesting of values is followed with a number of `levels` that the length of the text bounds.
-/

namespace IntervalFlow.Json

namespace Reader

def isBlank (c : Char) : Bool := c = ' ' || c = '\n' || c = '\r' || c = '\t'

def skipBlanks (cs : List Char) : List Char := cs.dropWhile isBlank

/-! ## Numbers -/

def natOfDigits (ds : List Char) : Nat :=
  ds.foldl (fun n d => 10 * n + (d.toNat - '0'.toNat)) 0

/-- One digit or more. -/
def digits? (cs : List Char) : Option (List Char × List Char) :=
  match cs.takeWhile Char.isDigit with
  | [] => none
  | ds => some (ds, cs.dropWhile Char.isDigit)

/-- The digits of an integer, which has no leading zero. -/
def integer? (cs : List Char) : Option (List Char × List Char) :=
  match digits? cs with
  | some ('0' :: _ :: _, _) => none
  | result => result

/-- A fraction, which may be missing. -/
def fraction? : List Char → Option (List Char × List Char)
  | '.' :: rest => (digits? rest).map fun (ds, rest) => ('.' :: ds, rest)
  | cs => some ([], cs)

/-- An exponent, which may be missing. -/
def exponent? : List Char → Option (List Char × List Char)
  | c :: rest =>
    if c = 'e' ∨ c = 'E' then
      match rest with
      | '+' :: rest => (digits? rest).map fun (ds, rest) => (c :: '+' :: ds, rest)
      | '-' :: rest => (digits? rest).map fun (ds, rest) => (c :: '-' :: ds, rest)
      | rest => (digits? rest).map fun (ds, rest) => (c :: ds, rest)
    else some ([], c :: rest)
  | [] => some ([], [])

/-- A number without a sign, or with a minus sign in front that was taken already. -/
def unsigned? (negative : Bool) (cs : List Char) : Option (Json × List Char) := do
  let (ds, rest) ← integer? cs
  let (fraction, rest) ← fraction? rest
  let (exponent, rest) ← exponent? rest
  let n := natOfDigits ds
  if fraction ++ exponent = [] ∧ ¬ (negative ∧ n = 0) then
    return (.int (if negative then -n else n), rest)
  else
    let text := ds ++ fraction ++ exponent
    return (.real (String.ofList (if negative then '-' :: text else text)), rest)

def number? : List Char → Option (Json × List Char)
  | '-' :: rest => unsigned? true rest
  | cs => unsigned? false cs

/-! ## Strings -/

def hexDigit? (c : Char) : Option Nat :=
  if c.isDigit then some (c.toNat - '0'.toNat)
  else if 'a' ≤ c ∧ c ≤ 'f' then some (10 + (c.toNat - 'a'.toNat))
  else if 'A' ≤ c ∧ c ≤ 'F' then some (10 + (c.toNat - 'A'.toNat))
  else none

/-- A code unit given by four hexadecimal digits. -/
def codeUnit? (a b c d : Char) : Option Nat := do
  return 4096 * (← hexDigit? a) + 256 * (← hexDigit? b) + 16 * (← hexDigit? c) + (← hexDigit? d)

/-- What a letter after a backslash stands for. -/
def escaped? (c : Char) : Option Char :=
  match c with
  | '"' => some '"'
  | '\\' => some '\\'
  | '/' => some '/'
  | 'b' => some '\x08'
  | 'f' => some '\x0c'
  | 'n' => some '\n'
  | 'r' => some '\r'
  | 't' => some '\t'
  | _ => none

/-- The characters of a string up to its closing quote, after those in `read`, which come last
first. A character beyond 16 bits may be given by two code units, and one code unit of such a pair
alone is refused. -/
def string? : (text read : List Char) → Option (String × List Char)
  | [], _ => none
  | '"' :: rest, read => some (String.ofList read.reverse, rest)
  | '\\' :: 'u' :: a :: b :: c :: d :: rest, read =>
    match codeUnit? a b c d with
    | none => none
    | some high =>
      if high < 0xD800 ∨ 0xDFFF < high then string? rest (Char.ofNat high :: read)
      else match rest with
        | '\\' :: 'u' :: e :: f :: g :: h :: rest =>
          match codeUnit? e f g h with
          | none => none
          | some low =>
            if high < 0xDC00 ∧ 0xDC00 ≤ low ∧ low ≤ 0xDFFF then
              let code := 0x10000 + 0x400 * (high - 0xD800) + (low - 0xDC00)
              string? rest (Char.ofNat code :: read)
            else none
        | _ => none
  | '\\' :: c :: rest, read =>
    match escaped? c with
    | some e => string? rest (e :: read)
    | none => none
  | c :: rest, read => if c.toNat < 0x20 then none else string? rest (c :: read)

/-! ## Values -/

mutual

def value? : (levels : Nat) → List Char → Option (Json × List Char)
  | 0, _ => none
  | levels + 1, cs =>
    match skipBlanks cs with
    | '"' :: rest => (string? rest []).map fun (s, rest) => (.str s, rest)
    | '[' :: rest =>
      match skipBlanks rest with
      | ']' :: rest => some (.arr [], rest)
      | rest => items? levels [] rest
    | '\x7b' :: rest =>
      match skipBlanks rest with
      | '\x7d' :: rest => some (.obj [], rest)
      | rest => fields? levels [] rest
    | 'n' :: 'u' :: 'l' :: 'l' :: rest => some (.null, rest)
    | 't' :: 'r' :: 'u' :: 'e' :: rest => some (.bool true, rest)
    | 'f' :: 'a' :: 'l' :: 's' :: 'e' :: rest => some (.bool false, rest)
    | rest => number? rest

/-- The items of an array after those in `read`, which come last first. -/
def items? : (levels : Nat) → (read : List Json) → List Char → Option (Json × List Char)
  | 0, _, _ => none
  | levels + 1, read, cs =>
    match value? levels cs with
    | none => none
    | some (item, rest) =>
      match skipBlanks rest with
      | ',' :: rest => items? levels (item :: read) rest
      | ']' :: rest => some (.arr (item :: read).reverse, rest)
      | _ => none

/-- The fields of an object after those in `read`, which come last first. -/
def fields? : (levels : Nat) → (read : List (String × Json)) → List Char →
    Option (Json × List Char)
  | 0, _, _ => none
  | levels + 1, read, cs =>
    match skipBlanks cs with
    | '"' :: rest =>
      match string? rest [] with
      | none => none
      | some (name, rest) =>
        match skipBlanks rest with
        | ':' :: rest =>
          match value? levels rest with
          | none => none
          | some (value, rest) =>
            match skipBlanks rest with
            | ',' :: rest => fields? levels ((name, value) :: read) rest
            | '\x7d' :: rest => some (.obj ((name, value) :: read).reverse, rest)
            | _ => none
        | _ => none
    | _ => none

end

end Reader

/-- The value that a text denotes. -/
def parse? (text : String) : Option Json :=
  let cs := text.toList
  match Reader.value? (cs.length + 1) cs with
  | some (value, rest) => if Reader.skipBlanks rest = [] then some value else none
  | none => none

end IntervalFlow.Json
