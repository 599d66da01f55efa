import IntervalFlow.Effect.Measure

/-!
# Lifetimes

An interval for every integer variable that covers all its writes, wherever in the graph they
happen. The intervals grow in rounds over the writes until a round changes nothing; after a few
rounds they are widened.
-/

namespace IntervalFlow

/-- A node that gives a value to the variable called `name` with the given declaration. -/
structure Write where
  declaration : NodeId
  node : NodeId
  name : String
  deriving DecidableEq

namespace Lifetime

/-- The writes to integer variables other than `tracked`, in node order. -/
def writes (g : Graph) (tracked : String) : List Write :=
  g.nodes.filterMap fun node =>
    match g.writtenDeclaration? node with
    | none => none
    | some declaration =>
      match g.kind? declaration with
      | some (.declaration name type _) =>
        if type = "int" ∧ name ≠ tracked then some ⟨declaration, node, name⟩ else none
      | _ => none

/-- The effect of a write, with the lifetimes known so far. -/
def effect (g : Graph) (lifetimes : Store NodeId) (w : Write) : Except Error Interval :=
  (Context.mk g w.name .empty lifetimes).integerEffect (lifetimes.valueOf w.declaration) w.node

/-- The value of a write. One that cannot be computed may be anything. -/
def written (g : Graph) (lifetimes : Store NodeId) (w : Write) : Interval :=
  match effect g lifetimes w with
  | .ok value => value
  | .error _ => .top

/-- Rounds from this one on widen. -/
def wideningDelay : Nat := 3

/-- The lifetime of the written variable after a write in the given round. -/
def grown (g : Graph) (round : Nat) (lifetimes : Store NodeId) (w : Write) : Interval :=
  let current := lifetimes.valueOf w.declaration
  let joined := current.join (written g lifetimes w)
  if wideningDelay ≤ round then current.widen joined else joined

/-- Performs a write, and says whether a lifetime changed here or before. -/
def step (g : Graph) (round : Nat) : Store NodeId × Bool → Write → Store NodeId × Bool
  | (lifetimes, changed), w =>
    let next := grown g round lifetimes w
    if next = lifetimes.valueOf w.declaration then (lifetimes, changed)
    else (lifetimes.set w.declaration next, true)

/-- Performs every write once, and says whether a lifetime changed. -/
def round (g : Graph) (ws : List Write) (index : Nat) (lifetimes : Store NodeId) :
    Store NodeId × Bool :=
  ws.foldl (step g index) (lifetimes, false)

/-- Performs rounds until one changes nothing, `fuel` of them at most. -/
def settle (g : Graph) (ws : List Write) : (fuel index : Nat) → Store NodeId → Store NodeId
  | 0, _, lifetimes => lifetimes
  | fuel + 1, index, lifetimes =>
    match round g ws index lifetimes with
    | (next, true) => settle g ws fuel (index + 1) next
    | (next, false) => next

/-- A number of rounds after which nothing can change: under widening every lifetime changes at most
three times. -/
def enoughRounds (ws : List Write) : Nat :=
  wideningDelay + 3 * (ws.map (·.declaration)).eraseDups.length + 1

end Lifetime

/-- The lifetimes of the integer variables other than `tracked`, by declaration. -/
def Graph.lifetimes (g : Graph) (tracked : String) : Store NodeId :=
  let ws := Lifetime.writes g tracked
  Lifetime.settle g ws (Lifetime.enoughRounds ws) 0 .empty

end IntervalFlow
