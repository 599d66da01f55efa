import IntervalFlow.Json.Basic

/-!
# Writing JSON

From values to text, on one line and without blanks.
-/

namespace IntervalFlow.Json

namespace Writer

def hexDigit (n : Nat) : Char := ("0123456789abcdef".toList).getD n '0'

/-- Quotes, backslashes and control characters are escaped. -/
def escape (c : Char) : List Char :=
  if c = '"' then ['\\', '"']
  else if c = '\\' then ['\\', '\\']
  else if c = '\n' then ['\\', 'n']
  else if c = '\r' then ['\\', 'r']
  else if c = '\t' then ['\\', 't']
  else if c.toNat < 0x20 then
    ['\\', 'u', '0', '0', hexDigit (c.toNat / 16), hexDigit (c.toNat % 16)]
  else [c]

def quote (s : String) : String := "\"" ++ String.ofList (s.toList.flatMap escape) ++ "\""

end Writer

mutual

def render : Json → String
  | null => "null"
  | bool true => "true"
  | bool false => "false"
  | int n => toString n
  | real text => text
  | str s => Writer.quote s
  | arr items => "[" ++ renderItems items ++ "]"
  | obj fields => "\x7b" ++ renderFields fields ++ "\x7d"

def renderItems : List Json → String
  | [] => ""
  | [item] => item.render
  | item :: rest => item.render ++ "," ++ renderItems rest

def renderFields : List (String × Json) → String
  | [] => ""
  | [(name, value)] => Writer.quote name ++ ":" ++ value.render
  | (name, value) :: rest => Writer.quote name ++ ":" ++ value.render ++ "," ++ renderFields rest

end

end IntervalFlow.Json
