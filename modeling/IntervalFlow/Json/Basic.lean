import IntervalFlow.Word

/-!
# JSON values

The data format in which bounds, intervals and graphs are exchanged. Numbers that are not written as
integers are kept apart from those that are, and the fields of an object keep their order.
-/

namespace IntervalFlow

inductive Json where
  | null
  | bool (value : Bool)
  | int (value : Int)
  /-- A number with a fraction or an exponent, or a negative zero, as it is written. -/
  | real (text : String)
  | str (value : String)
  | arr (items : List Json)
  | obj (fields : List (String × Json))
  deriving Inhabited

namespace Json

/-- The value of a field of an object. -/
def field? (name : String) : Json → Option Json
  | obj fields => fields.lookup name
  | _ => none

def bool? : Json → Option Bool
  | bool value => some value
  | _ => none

def string? : Json → Option String
  | str value => some value
  | _ => none

def list? : Json → Option (List Json)
  | arr items => some items
  | _ => none

/-- A signed 64-bit integer. -/
def int64? : Json → Option Int64
  | int n => Word.ofInt? n
  | _ => none

/-- An unsigned 64-bit integer. -/
def uint64? : Json → Option UInt64
  | int n => if 0 ≤ n ∧ n < UInt64.size then some (UInt64.ofNat n.toNat) else none
  | _ => none

def ofInt64 (n : Int64) : Json := int n.toInt

def ofUInt64 (n : UInt64) : Json := int n.toNat

/-- An absent value is written as null. -/
def ofOption {α : Type} (encode : α → Json) : Option α → Json
  | none => null
  | some a => encode a

/-- The values of all fields called `name`. -/
def valuesOf (fields : List (String × Json)) (name : String) : List Json :=
  (fields.filter (·.1 = name)).map (·.2)

/-- The field called `name`, which has to be there, and only once. -/
def required {α : Type} (decode : Json → Option α) (fields : List (String × Json)) (name : String) :
    Option α :=
  match valuesOf fields name with
  | [value] => decode value
  | _ => none

/-- The field called `name`, which may be missing or null, but is not there twice. -/
def optional {α : Type} (decode : Json → Option α) (fields : List (String × Json)) (name : String) :
    Option (Option α) :=
  match valuesOf fields name with
  | [] | [null] => some none
  | [value] => (decode value).map some
  | _ => none

def listOf? {α : Type} (decode : Json → Option α) (value : Json) : Option (List α) :=
  value.list?.bind (·.mapM decode)

end Json

end IntervalFlow
