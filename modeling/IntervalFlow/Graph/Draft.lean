import IntervalFlow.Graph.Shape

/-!
# Drafts

An evaluation order graph under construction. Nodes and edges are added freely, so children and
edge ends may name nodes that are added later, and `violation?` looks for the first fault of the
whole.
-/

namespace IntervalFlow

structure Edge where
  source : NodeId
  target : NodeId
  /-- The outcome of the branch at `source` that leads here, where it is stated. -/
  branch : Option Bool
  deriving DecidableEq

structure Draft where
  kinds : Array NodeKind
  edges : List Edge
  deriving DecidableEq

namespace Draft

def empty : Draft := ⟨#[], []⟩

/-- Adds a node after those that are there. -/
def add (d : Draft) (kind : NodeKind) : Draft := ⟨d.kinds.push kind, d.edges⟩

def connect (d : Draft) (source target : NodeId) (branch : Option Bool) : Draft :=
  ⟨d.kinds, d.edges ++ [⟨source, target, branch⟩]⟩

/-- Chains the nodes by edges without a stated outcome. -/
def sequence (d : Draft) : List NodeId → Draft
  | source :: target :: rest => (d.connect source target none).sequence (target :: rest)
  | _ => d

inductive Edit where
  | add (kind : NodeKind)
  | connect (source target : NodeId) (branch : Option Bool)
  | sequence (nodes : List NodeId)

def edit (d : Draft) : Edit → Draft
  | .add kind => d.add kind
  | .connect source target branch => d.connect source target branch
  | .sequence nodes => d.sequence nodes

/-! ## Views -/

def size (d : Draft) : Nat := d.kinds.size

def nodes (d : Draft) : List NodeId := List.range d.size

def kind? (d : Draft) (node : NodeId) : Option NodeKind := d.kinds[node]?

/-- The successors of a node, in the order in which the edges were added. -/
def next (d : Draft) (node : NodeId) : List NodeId :=
  d.edges.filterMap fun e => if e.source = node then some e.target else none

/-- The predecessors of a node, in the order in which the edges were added. -/
def prev (d : Draft) (node : NodeId) : List NodeId :=
  d.edges.filterMap fun e => if e.target = node then some e.source else none

def edge? (d : Draft) (source target : NodeId) : Option Edge :=
  d.edges.find? fun e => e.source = source && e.target = target

/-! ## Faults -/

/-- A child that does not exist, or a reference whose declaration is no declaration. -/
def nodeViolation? (d : Draft) (node : NodeId) : Option Violation :=
  match d.kind? node with
  | none => none
  | some kind =>
    match kind.children.find? (d.size ≤ ·) with
    | some child => some (.missingChild node child)
    | none =>
      match kind with
      | .reference _ _ (some declaration) =>
        match d.kind? declaration with
        | some target =>
          if target.isDeclaration then none
          else some (.unexpectedDeclaration node target.label)
        | none => none
      | _ => none

/-- An edge that leads nowhere, or one whose ends are already connected by an `earlier` edge. -/
def edgeViolation? (d : Draft) (earlier : List Edge) : List Edge → Option Violation
  | [] => none
  | e :: rest =>
    if d.size ≤ e.source ∨ d.size ≤ e.target then some (.missingEndpoint e.source e.target)
    else if earlier.any fun f => f.source = e.source && f.target = e.target then
      some .duplicateEdge
    else d.edgeViolation? (e :: earlier) rest

/-- A loop head needs a way into the loop and a way out. -/
def loopViolation? (d : Draft) (node : NodeId) : Option Violation :=
  match d.kind? node with
  | some kind =>
    if kind.isLoop && (d.next node).length < 2 then
      some (.loopSuccessors node (d.next node).length)
    else none
  | none => none

/-- The first fault: those of the nodes come before those of the edges, and those before the loop
heads. -/
def violation? (d : Draft) : Option Violation :=
  (d.nodes.findSome? d.nodeViolation?).or <|
    (d.edgeViolation? [] d.edges).or <| d.nodes.findSome? d.loopViolation?

end Draft

end IntervalFlow
