/-!
# Node positions

A node of a graph is known by its position, counted from zero.
-/

namespace IntervalFlow

abbrev NodeId := Nat

namespace NodeId

/-- Positions are 32-bit numbers; a larger index is taken modulo `2 ^ 32`. -/
def ofIndex (index : Nat) : NodeId := index % UInt32.size

def render (node : NodeId) : String := "#" ++ toString node

end NodeId

end IntervalFlow
