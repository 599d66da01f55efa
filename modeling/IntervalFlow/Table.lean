/-!
# Tables

Finite maps as association lists in insertion order, with every key listed once. Setting a key
that is present keeps its place.
-/

namespace IntervalFlow

/-- The value listed for `key`. -/
def valueAt? {κ β : Type} [DecidableEq κ] (key : κ) : List (κ × β) → Option β
  | [] => none
  | (k, v) :: rest => if k = key then some v else valueAt? key rest

/-- The entries with the value of `key` replaced, or `key` added at the end. -/
def assign {κ β : Type} [DecidableEq κ] (key : κ) (value : β) : List (κ × β) → List (κ × β)
  | [] => [(key, value)]
  | (k, v) :: rest => if k = key then (key, value) :: rest else (k, v) :: assign key value rest

theorem mem_keys_assign {κ β : Type} [DecidableEq κ] {key k : κ} {value : β}
    {entries : List (κ × β)} :
    k ∈ (assign key value entries).map Prod.fst ↔ k = key ∨ k ∈ entries.map Prod.fst := by
  induction entries with
  | nil => simp [assign]
  | cons entry rest ih =>
    obtain ⟨k', v'⟩ := entry
    by_cases h : k' = key
    · simp [assign, h]
    · simp only [assign, h, if_false, List.map_cons, List.mem_cons, ih]
      exact or_left_comm

theorem nodup_keys_assign {κ β : Type} [DecidableEq κ] {key : κ} {value : β}
    {entries : List (κ × β)} (h : (entries.map Prod.fst).Nodup) :
    ((assign key value entries).map Prod.fst).Nodup := by
  induction entries with
  | nil => simp [assign]
  | cons entry rest ih =>
    obtain ⟨k', v'⟩ := entry
    rw [List.map_cons, List.nodup_cons] at h
    by_cases hk : k' = key
    · subst hk
      simpa [assign] using h
    · simp only [assign, hk, if_false, List.map_cons, List.nodup_cons]
      refine ⟨fun hmem => ?_, ih h.2⟩
      exact (mem_keys_assign.mp hmem).elim hk h.1

structure Table (κ β : Type) where
  entries : List (κ × β)
  nodup : (entries.map Prod.fst).Nodup

namespace Table

variable {κ β : Type}

def empty : Table κ β := ⟨[], List.nodup_nil⟩

def keys (t : Table κ β) : List κ := t.entries.map Prod.fst

def size (t : Table κ β) : Nat := t.entries.length

def get? [DecidableEq κ] (t : Table κ β) (key : κ) : Option β := valueAt? key t.entries

def set [DecidableEq κ] (t : Table κ β) (key : κ) (value : β) : Table κ β :=
  ⟨assign key value t.entries, nodup_keys_assign t.nodup⟩

/-- Whether two tables hold the same entries, in whatever order. -/
def sameEntries [DecidableEq κ] [DecidableEq β] (t u : Table κ β) : Bool :=
  t.size = u.size && t.entries.all fun (key, value) => u.get? key = some value

/-- The entries in the order of their keys. -/
def sorted (t : Table κ β) (le : κ → κ → Bool) : List (κ × β) :=
  t.entries.mergeSort fun a b => le a.1 b.1

theorem valueAt?_assign [DecidableEq κ] (key k : κ) (value : β) (entries : List (κ × β)) :
    valueAt? k (assign key value entries) =
      if k = key then some value else valueAt? k entries := by
  induction entries with
  | nil => by_cases h : key = k <;> simp [assign, valueAt?, h, eq_comm]
  | cons entry rest ih =>
    obtain ⟨k', v'⟩ := entry
    by_cases hk : k' = key
    · by_cases h : key = k <;> simp [assign, valueAt?, hk, h, eq_comm]
    · by_cases h : k' = k
      · subst h
        simp [assign, valueAt?, hk]
      · simp [assign, valueAt?, hk, h, ih]

theorem get?_set [DecidableEq κ] (t : Table κ β) (key k : κ) (value : β) :
    (t.set key value).get? k = if k = key then some value else t.get? k :=
  valueAt?_assign key k value t.entries

@[simp] theorem get?_empty [DecidableEq κ] (k : κ) : (empty : Table κ β).get? k = none := rfl

end Table

end IntervalFlow
