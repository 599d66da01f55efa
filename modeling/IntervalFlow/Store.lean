import IntervalFlow.Domain
import IntervalFlow.Table

/-!
# Stores

Tables of intervals, compared and merged key by key. A key without an entry counts as `bottom`.
-/

namespace IntervalFlow

abbrev Store (κ : Type) := Table κ Interval

namespace Store

variable {κ : Type} [DecidableEq κ]

def valueOf (s : Store κ) (key : κ) : Interval := (s.get? key).getD .bottom

/-- Joins `value` into the entry of `key` and says whether that changed the store. A new entry is a
change, whatever its value. -/
def push (s : Store κ) (key : κ) (value : Interval) : Store κ × Bool :=
  match s.get? key with
  | none => (s.set key value, true)
  | some old => (s.set key (old.join value), decide (old.join value ≠ old))

/-- Applies `f` to the values of every key of either store and keeps what is not `bottom`. -/
def mergeWith (f : Interval → Interval → Interval) (s t : Store κ) : Store κ :=
  (s.keys ++ t.keys).foldl (fun merged key =>
    let value := f (s.valueOf key) (t.valueOf key)
    if value = .bottom then merged else merged.set key value) .empty

instance : Domain (Store κ) where
  bottom := .empty
  join := mergeWith .join
  meet := mergeWith .meet
  widen := mergeWith .widen
  narrow := mergeWith .narrow
  order? s t :=
    (s.keys ++ t.keys).foldl (fun order key =>
      Domain.combine order ((s.valueOf key).order? (t.valueOf key))) (some .eq)

end Store

end IntervalFlow
