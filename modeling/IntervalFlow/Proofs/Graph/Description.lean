import IntervalFlow.Graph.Description
import IntervalFlow.Proofs.Graph.Shape
import IntervalFlow.Proofs.Graph.Validity
import Mathlib.Data.List.Nodup

/-!
# Descriptions — which of them are graphs, and of what

Resolution reads ids from a table that it builds first, while `Description.locate?` searches the
nodes; on distinct ids both find the same positions (`get?_of_extend`). `Describes` compares a draft
with a description as text: operators by their symbols, nodes by their positions. Resolving a
description gives exactly the graph that it describes (`resolve_eq_ok_iff`), which exists if the
description is valid in its own terms. Ids only matter by which of them are equal.
-/

namespace IntervalFlow

/-! ## Positions -/

namespace Positions

theorem exists_extend_iff {known : Positions} {next : NodeId} {nodes : List DescribedNode} :
    (∃ positions, known.extend next nodes = .ok positions) ↔
      (nodes.map (·.id)).Nodup ∧ ∀ node ∈ nodes, known.get? node.id = none := by
  induction nodes generalizing known next with
  | nil => simp [extend]
  | cons node rest ih =>
    rw [extend]
    cases hnode : known.get? node.id with
    | some n => simp [hnode]
    | none =>
      -- For the rest, the id of `node` is one more known id.
      simp only [ih, Table.get?_set, List.map_cons, List.nodup_cons, List.mem_map, List.mem_cons]
      grind

/-- An id that was unknown before has the position of the first node with it. -/
theorem get?_of_extend {known positions : Positions} {next : NodeId} {nodes : List DescribedNode}
    (h : known.extend next nodes = .ok positions) (id : UInt64) :
    positions.get? id =
      (known.get? id).or ((nodes.findIdx? (·.id = id)).map (next + ·)) := by
  induction nodes generalizing known next with
  | nil =>
    cases h
    simp
  | cons node rest ih =>
    rw [extend] at h
    split at h
    · cases h
    · rename_i hnode
      rw [ih h, Table.get?_set, List.findIdx?_cons]
      by_cases hid : node.id = id
      · subst hid
        simp [hnode]
      · have hshift : (fun i => next + 1 + i) = fun i => next + (i + 1) :=
          funext fun i => Nat.add_right_comm next 1 i
        simp [hid, Ne.symm hid, Function.comp_def, hshift]

theorem locate_eq_ok_iff {positions : Positions} {id : UInt64} {n : NodeId} :
    positions.locate id = .ok n ↔ some n = positions.get? id := by
  unfold locate
  cases positions.get? id with
  | none => simp
  | some m => simp [eq_comm]

end Positions

namespace Description

/-- The ids of the nodes, in the order in which they are listed. -/
def listed (d : Description) : List UInt64 := d.nodes.map (·.id)

theorem exists_locate?_iff {d : Description} {id : UInt64} :
    (∃ n, d.locate? id = some n) ↔ id ∈ d.listed := by
  rw [← Option.isSome_iff_exists, locate?, List.findIdx?_isSome]
  simp [listed]

theorem node_of_locate? {d : Description} {id : UInt64} {n : NodeId} (h : d.locate? id = some n) :
    ∃ node, d.nodes[n]? = some node ∧ node.id = id := by
  obtain ⟨hn, hid, -⟩ := List.findIdx?_eq_some_iff_getElem.mp h
  exact ⟨d.nodes[n], List.getElem?_eq_getElem hn, of_decide_eq_true hid⟩

theorem locate?_inj {d : Description} {a b : UInt64} {n : NodeId} (ha : d.locate? a = some n)
    (hb : d.locate? b = some n) : a = b := by
  obtain ⟨node, hnode, rfl⟩ := node_of_locate? ha
  obtain ⟨node', hnode', rfl⟩ := node_of_locate? hb
  rw [hnode] at hnode'
  cases hnode'
  rfl

theorem locate?_of_node {d : Description} (hdistinct : d.listed.Nodup) {n : NodeId}
    {node : DescribedNode} (h : d.nodes[n]? = some node) : d.locate? node.id = some n := by
  obtain ⟨hn, rfl⟩ := List.getElem?_eq_some_iff.mp h
  refine List.findIdx?_eq_some_iff_getElem.mpr ⟨hn, by simp, fun j hj => ?_⟩
  rw [listed, List.Nodup, List.pairwise_map, List.pairwise_iff_getElem] at hdistinct
  simpa using hdistinct j n (Nat.lt_trans hj hn) hn hj

end Description

/-! ## What a description describes -/

/-- The kind in the terms of a description. -/
def NodeKind.written (kind : NodeKind) : Shape String String String (Option NodeId) :=
  kind.map UnaryOp.symbol BinaryOp.symbol AssignOp.symbol some

/-- The edge in the terms of a description. -/
def Edge.written (e : Edge) : Option NodeId × Option NodeId × Option Bool :=
  (some e.source, some e.target, e.branch)

namespace Description

/-- The shape with each child replaced by its position. -/
def located (d : Description) (shape : Shape String String String UInt64) :
    Shape String String String (Option NodeId) := shape.map id id id d.locate?

/-- The edge with its ends replaced by their positions. -/
def locatedEdge (d : Description) (e : DescribedEdge) :
    Option NodeId × Option NodeId × Option Bool :=
  (d.locate? e.source, d.locate? e.target, e.branch)

/-- The draft has the nodes and edges of the description, in the same order. -/
structure Describes (d : Description) (draft : Draft) : Prop where
  kinds : draft.kinds.toList.map NodeKind.written = d.nodes.map (d.located ·.shape)
  edges : draft.edges.map Edge.written = d.edges.map d.locatedEdge

section

variable {d : Description} {positions : Positions}
  (hpositions : ∀ id, positions.get? id = d.locate? id)

include hpositions

theorem resolve_node_eq_ok_iff (node : DescribedNode) (kind : NodeKind) :
    node.resolve positions = .ok kind ↔ kind.written = d.located node.shape := by
  have hchild (c : UInt64) (n : NodeId) : positions.locate c = .ok n ↔ some n = d.locate? c := by
    rw [Positions.locate_eq_ok_iff, hpositions]
  exact Shape.traverse_eq_ok_iff UnaryOp.parse_eq_ok_iff BinaryOp.parse_eq_ok_iff
    AssignOp.parse_eq_ok_iff hchild

theorem resolve_edge_eq_ok_iff (e : DescribedEdge) (e' : Edge) :
    e.resolve positions = .ok e' ↔ e'.written = d.locatedEdge e := by
  obtain ⟨source, target, branch⟩ := e'
  simp only [DescribedEdge.resolve, bind_eq_ok_iff, Positions.locate_eq_ok_iff, hpositions, pure,
    Except.pure, Except.ok.injEq, Edge.mk.injEq, Edge.written, locatedEdge, Prod.mk.injEq]
  grind

end

theorem resolve_eq_ok_iff {d : Description} {g : Graph} :
    d.resolve = .ok g ↔ d.listed.Nodup ∧ d.Describes g.toDraft := by
  have hlocate {positions : Positions} (h : Positions.extend .empty 0 d.nodes = .ok positions)
      (id : UInt64) : positions.get? id = d.locate? id := by
    simp [Positions.get?_of_extend h id, locate?]
  constructor
  · intro h
    obtain ⟨positions, hpositions, h⟩ := bind_eq_ok_iff.mp h
    obtain ⟨kinds, hkinds, h⟩ := bind_eq_ok_iff.mp h
    obtain ⟨edges, hedges, h⟩ := bind_eq_ok_iff.mp h
    split at h
    · rename_i hbuild
      cases h
      rw [Draft.toDraft_of_build hbuild]
      refine ⟨(Positions.exists_extend_iff.mp ⟨positions, hpositions⟩).1, ?_, ?_⟩
      · exact (mapM_eq_ok_iff (resolve_node_eq_ok_iff (hlocate hpositions))).mp hkinds
      · exact (mapM_eq_ok_iff (resolve_edge_eq_ok_iff (hlocate hpositions))).mp hedges
    · cases h
  · rintro ⟨hdistinct, hkinds, hedges⟩
    obtain ⟨positions, hpositions⟩ :=
      Positions.exists_extend_iff.mpr ⟨hdistinct, fun _ _ => Table.get?_empty _⟩
    refine bind_eq_ok_iff.mpr ⟨positions, hpositions, ?_⟩
    refine bind_eq_ok_iff.mpr ⟨g.kinds.toList, ?_, ?_⟩
    · exact (mapM_eq_ok_iff (resolve_node_eq_ok_iff (hlocate hpositions))).mpr hkinds
    refine bind_eq_ok_iff.mpr ⟨g.edges, ?_, ?_⟩
    · exact (mapM_eq_ok_iff (resolve_edge_eq_ok_iff (hlocate hpositions))).mpr hedges
    · have hbuild : (⟨g.kinds.toList.toArray, g.edges⟩ : Draft).build = .ok g :=
        Draft.build_toDraft g
      rw [hbuild]
      rfl

/-! ## Nodes and edges of the described draft -/

namespace Describes

variable {d : Description} {draft : Draft}

theorem size_eq (h : d.Describes draft) : draft.size = d.nodes.length := by
  simpa [Draft.size] using congrArg List.length h.kinds

theorem map_kind? (h : d.Describes draft) (n : NodeId) :
    (draft.kind? n).map NodeKind.written = d.nodes[n]?.map (d.located ·.shape) := by
  simpa [Draft.kind?] using congrArg (·[n]?) h.kinds

theorem exists_kind (h : d.Describes draft) {n : NodeId} {node : DescribedNode}
    (hnode : d.nodes[n]? = some node) :
    ∃ kind, draft.kind? n = some kind ∧ kind.written = d.located node.shape := by
  have hkind := h.map_kind? n
  rwa [hnode, Option.map_some, Option.map_eq_some_iff] at hkind

theorem exists_node (h : d.Describes draft) {n : NodeId} {kind : NodeKind}
    (hkind : draft.kind? n = some kind) :
    ∃ node, d.nodes[n]? = some node ∧ kind.written = d.located node.shape := by
  have hnode := (h.map_kind? n).symm
  rw [hkind, Option.map_some, Option.map_eq_some_iff] at hnode
  obtain ⟨node, hnode, hwritten⟩ := hnode
  exact ⟨node, hnode, hwritten.symm⟩

theorem lt_size (h : d.Describes draft) {id : UInt64} {n : NodeId} (hid : d.locate? id = some n) :
    n < draft.size := by
  obtain ⟨node, hnode, -⟩ := node_of_locate? hid
  rw [h.size_eq]
  exact (List.getElem?_eq_some_iff.mp hnode).1

theorem exists_located_kind (h : d.Describes draft) (hdistinct : d.listed.Nodup)
    {node : DescribedNode} (hnode : node ∈ d.nodes) :
    ∃ n kind, d.locate? node.id = some n ∧ draft.kind? n = some kind ∧
      kind.written = d.located node.shape := by
  obtain ⟨n, hn⟩ := List.mem_iff_getElem?.mp hnode
  obtain ⟨kind, hkind, hwritten⟩ := h.exists_kind hn
  exact ⟨n, kind, locate?_of_node hdistinct hn, hkind, hwritten⟩

theorem exists_located_edge (h : d.Describes draft) {e : DescribedEdge} (he : e ∈ d.edges) :
    ∃ source target, d.locate? e.source = some source ∧ d.locate? e.target = some target ∧
      ⟨source, target, e.branch⟩ ∈ draft.edges := by
  have hmem : d.locatedEdge e ∈ d.edges.map d.locatedEdge := List.mem_map_of_mem he
  rw [← h.edges, List.mem_map] at hmem
  obtain ⟨⟨source, target, branch⟩, hmem, hwritten⟩ := hmem
  simp only [Edge.written, locatedEdge, Prod.mk.injEq] at hwritten
  obtain ⟨hsource, htarget, rfl⟩ := hwritten
  exact ⟨source, target, hsource.symm, htarget.symm, hmem⟩

theorem listed_ends (h : d.Describes draft) (e : DescribedEdge) (he : e ∈ d.edges) :
    e.source ∈ d.listed ∧ e.target ∈ d.listed := by
  obtain ⟨source, target, hsource, htarget, -⟩ := h.exists_located_edge he
  exact ⟨exists_locate?_iff.mp ⟨source, hsource⟩, exists_locate?_iff.mp ⟨target, htarget⟩⟩

theorem filter_edges (h : d.Describes draft)
    (p : Option NodeId × Option NodeId × Option Bool → Bool) :
    (draft.edges.filter (p ∘ Edge.written)).map Edge.written =
      (d.edges.filter (p ∘ d.locatedEdge)).map d.locatedEdge := by
  rw [← List.filter_map, h.edges, List.filter_map]

theorem outgoing (h : d.Describes draft) {id : UInt64} {n : NodeId} (hid : d.locate? id = some n) :
    (draft.outgoing n).map Edge.written =
      (d.edges.filter (·.source = id)).map d.locatedEdge := by
  have hsource (e : DescribedEdge) : d.locate? e.source = some n ↔ e.source = id :=
    ⟨fun he => locate?_inj he hid, fun he => he ▸ hid⟩
  simpa [Draft.outgoing, Function.comp_def, Edge.written, locatedEdge, hsource]
    using h.filter_edges (·.1 = some n)

theorem ingoing (h : d.Describes draft) {id : UInt64} {n : NodeId} (hid : d.locate? id = some n) :
    (draft.ingoing n).map Edge.written =
      (d.edges.filter (·.target = id)).map d.locatedEdge := by
  have htarget (e : DescribedEdge) : d.locate? e.target = some n ↔ e.target = id :=
    ⟨fun he => locate?_inj he hid, fun he => he ▸ hid⟩
  simpa [Draft.ingoing, Function.comp_def, Edge.written, locatedEdge, htarget]
    using h.filter_edges (·.2.1 = some n)

theorem length_outgoing (h : d.Describes draft) {id : UInt64} {n : NodeId}
    (hid : d.locate? id = some n) :
    (draft.outgoing n).length = (d.edges.filter (·.source = id)).length := by
  simpa using congrArg List.length (h.outgoing hid)

theorem map_next (h : d.Describes draft) {id : UInt64} {n : NodeId} (hid : d.locate? id = some n) :
    (draft.next n).map some = (d.edges.filter (·.source = id)).map (d.locate? ·.target) := by
  simpa [Draft.next_eq, Function.comp_def, Edge.written, locatedEdge]
    using congrArg (List.map (·.2.1)) (h.outgoing hid)

theorem map_prev (h : d.Describes draft) {id : UInt64} {n : NodeId} (hid : d.locate? id = some n) :
    (draft.prev n).map some = (d.edges.filter (·.target = id)).map (d.locate? ·.source) := by
  simpa [Draft.prev_eq, Function.comp_def, Edge.written, locatedEdge]
    using congrArg (List.map (·.1)) (h.ingoing hid)

/-- Edges of the draft are parallel where their descriptions name the same ids. -/
theorem simple_iff (h : d.Describes draft)
    (hlisted : ∀ e ∈ d.edges, e.source ∈ d.listed ∧ e.target ∈ d.listed) :
    draft.edges.Pairwise (fun e f => ¬ e.Parallel f) ↔
      d.edges.Pairwise fun e f => ¬ (e.source = f.source ∧ e.target = f.target) := by
  have hlocate {a b : UInt64} (ha : a ∈ d.listed) : d.locate? a = d.locate? b ↔ a = b := by
    obtain ⟨n, hn⟩ := exists_locate?_iff.mpr ha
    exact ⟨fun hab => locate?_inj hn (hab ▸ hn), fun hab => hab ▸ rfl⟩
  calc draft.edges.Pairwise (fun e f => ¬ e.Parallel f)
      ↔ (draft.edges.map Edge.written).Pairwise fun s t => ¬ (s.1 = t.1 ∧ s.2.1 = t.2.1) := by
        simp [List.pairwise_map, Edge.Parallel, Edge.written]
    _ ↔ (d.edges.map d.locatedEdge).Pairwise fun s t => ¬ (s.1 = t.1 ∧ s.2.1 = t.2.1) := by
        rw [h.edges]
    _ ↔ d.edges.Pairwise fun e f => ¬ (e.source = f.source ∧ e.target = f.target) := by
        rw [List.pairwise_map]
        refine List.Pairwise.iff_of_mem fun he _ => ?_
        rw [← hlocate (hlisted _ he).1, ← hlocate (hlisted _ he).2]
        rfl

end Describes

/-! ## Validity -/

/-- Ids are distinct and those that are used are listed, operators belong to the vocabulary of their
family, references are resolved to declarations, no edge is listed twice, and loops can be entered
and left. -/
structure Valid (d : Description) : Prop where
  distinct : d.listed.Nodup
  children : ∀ node ∈ d.nodes, ∀ c ∈ node.shape.children, c ∈ d.listed
  endpoints : ∀ e ∈ d.edges, e.source ∈ d.listed ∧ e.target ∈ d.listed
  operators : ∀ node ∈ d.nodes, node.shape.InVocabulary
  declarations : ∀ node ∈ d.nodes, ∀ name type c, node.shape = .reference name type (some c) →
    ∃ target ∈ d.nodes, target.id = c ∧ target.shape.isDeclaration = true
  simple : d.edges.Pairwise fun e f => ¬ (e.source = f.source ∧ e.target = f.target)
  loops : ∀ node ∈ d.nodes, node.shape.isLoop = true →
    2 ≤ (d.edges.filter (·.source = node.id)).length

section

variable {d : Description} {kind : NodeKind} {shape : Shape String String String UInt64}

theorem isDeclaration_eq (h : kind.written = d.located shape) :
    kind.isDeclaration = shape.isDeclaration := by
  simpa [NodeKind.written, located] using congrArg Shape.isDeclaration h

theorem isLoop_eq (h : kind.written = d.located shape) : kind.isLoop = shape.isLoop := by
  simpa [NodeKind.written, located] using congrArg Shape.isLoop h

theorem map_children_eq (h : kind.written = d.located shape) :
    kind.children.map some = shape.children.map d.locate? := by
  simpa [NodeKind.written, located] using congrArg Shape.children h

end

theorem Valid.of_describes {d : Description} {draft : Draft} (hdistinct : d.listed.Nodup)
    (h : d.Describes draft) (hvalid : draft.Valid) : d.Valid := by
  have hkind {node : DescribedNode} (hnode : node ∈ d.nodes) :=
    h.exists_located_kind hdistinct hnode
  refine ⟨hdistinct, ?_, h.listed_ends, ?_, ?_, (h.simple_iff h.listed_ends).mp hvalid.simple, ?_⟩
  · intro node hnode c hc
    obtain ⟨n, kind, -, -, hwritten⟩ := hkind hnode
    have hmem : d.locate? c ∈ node.shape.children.map d.locate? := List.mem_map_of_mem hc
    rw [← map_children_eq hwritten, List.mem_map] at hmem
    obtain ⟨m, -, hm⟩ := hmem
    exact exists_locate?_iff.mp ⟨m, hm.symm⟩
  · intro node hnode
    obtain ⟨n, kind, -, -, hwritten⟩ := hkind hnode
    rw [← Shape.inVocabulary_map, ← located, ← hwritten]
    exact Shape.inVocabulary_symbols kind
  · intro node hnode name type c hshape
    obtain ⟨n, kind, -, hkind, hwritten⟩ := hkind hnode
    rw [hshape] at hwritten
    obtain ⟨m, rfl, hm⟩ := Shape.map_eq_reference_iff.mp hwritten
    obtain ⟨name', type', initializer, htarget⟩ := hvalid.declarations _ _ _ _ hkind
    obtain ⟨target, hm', hwritten'⟩ := h.exists_node htarget
    obtain ⟨target', hm'', hid⟩ := node_of_locate? hm.symm
    rw [hm'] at hm''
    cases hm''
    exact ⟨target, List.mem_of_getElem? hm', hid, (isDeclaration_eq hwritten').symm⟩
  · intro node hnode hloop
    obtain ⟨n, kind, hn, hkind, hwritten⟩ := hkind hnode
    rw [← h.length_outgoing hn]
    exact hvalid.loops n kind hkind ((isLoop_eq hwritten).trans hloop)

namespace Valid

variable {d : Description}

/-- Children and ends that are located exist; all else is required of the description. -/
theorem draft_valid (hvalid : d.Valid) {draft : Draft} (h : d.Describes draft) : draft.Valid := by
  refine ⟨?_, ?_, ?_, (h.simple_iff hvalid.endpoints).mpr hvalid.simple, ?_⟩
  · intro n kind hkind child hchild
    obtain ⟨node, -, hwritten⟩ := h.exists_node hkind
    have hmem : some child ∈ kind.children.map some := List.mem_map_of_mem hchild
    rw [map_children_eq hwritten, List.mem_map] at hmem
    obtain ⟨c, -, hc⟩ := hmem
    exact h.lt_size hc
  · intro n name type m hkind
    obtain ⟨node, hn, hwritten⟩ := h.exists_node hkind
    obtain ⟨c, hshape, hc⟩ := Shape.map_eq_reference_iff.mp hwritten.symm
    obtain ⟨target, htarget, rfl, hdeclares⟩ :=
      hvalid.declarations node (List.mem_of_getElem? hn) name type c hshape
    obtain ⟨k, hk⟩ := List.mem_iff_getElem?.mp htarget
    rw [locate?_of_node hvalid.distinct hk] at hc
    cases hc
    obtain ⟨kind, hkind', hwritten'⟩ := h.exists_kind hk
    obtain ⟨name', type', initializer, rfl⟩ :=
      Shape.isDeclaration_iff.mp ((isDeclaration_eq hwritten').trans hdeclares)
    exact ⟨name', type', initializer, hkind'⟩
  · intro e he
    have hmem : e.written ∈ draft.edges.map Edge.written := List.mem_map_of_mem he
    rw [h.edges, List.mem_map] at hmem
    obtain ⟨e', -, hwritten⟩ := hmem
    simp only [Edge.written, locatedEdge, Prod.mk.injEq] at hwritten
    exact ⟨h.lt_size hwritten.1, h.lt_size hwritten.2.1⟩
  · intro n kind hkind hloop
    obtain ⟨node, hn, hwritten⟩ := h.exists_node hkind
    rw [h.length_outgoing (locate?_of_node hvalid.distinct hn)]
    exact hvalid.loops node (List.mem_of_getElem? hn) ((isLoop_eq hwritten).symm.trans hloop)

/-- An operator of the vocabulary is read back from its symbol, and a listed child from its
position. -/
theorem exists_written (hvalid : d.Valid) {node : DescribedNode} (hnode : node ∈ d.nodes) :
    ∃ kind : NodeKind, kind.written = d.located node.shape := by
  have : Nonempty UnaryOp := ⟨.plus⟩
  have : Nonempty BinaryOp := ⟨.add⟩
  have : Nonempty AssignOp := ⟨.assign⟩
  refine ⟨node.shape.map (Function.invFun UnaryOp.symbol) (Function.invFun BinaryOp.symbol)
    (Function.invFun AssignOp.symbol) fun c => (d.locate? c).getD 0, ?_⟩
  rw [NodeKind.written, Shape.map_map]
  refine Shape.map_congr ?_ ?_
  · exact (hvalid.operators node hnode).imp (fun _ => Function.invFun_eq)
      (fun _ => Function.invFun_eq) fun _ => Function.invFun_eq
  · intro c hc
    obtain ⟨n, hn⟩ := exists_locate?_iff.mpr (hvalid.children node hnode c hc)
    simp [hn]

theorem exists_describes (hvalid : d.Valid) : ∃ draft, d.Describes draft := by
  obtain ⟨kinds, hkinds⟩ : ∃ kinds : List NodeKind,
      kinds.map NodeKind.written = d.nodes.map (d.located ·.shape) :=
    exists_map_eq_map.mpr fun node => hvalid.exists_written
  obtain ⟨edges, hedges⟩ : ∃ edges : List Edge,
      edges.map Edge.written = d.edges.map d.locatedEdge := by
    refine exists_map_eq_map.mpr fun e he => ?_
    obtain ⟨source, hsource⟩ := exists_locate?_iff.mpr (hvalid.endpoints e he).1
    obtain ⟨target, htarget⟩ := exists_locate?_iff.mpr (hvalid.endpoints e he).2
    exact ⟨⟨source, target, e.branch⟩, by simp [Edge.written, locatedEdge, hsource, htarget]⟩
  exact ⟨⟨kinds.toArray, edges⟩, by simpa using hkinds, hedges⟩

end Valid

/-- A valid description, and no other, is that of a graph. -/
theorem exists_resolve_iff {d : Description} : (∃ g, d.resolve = .ok g) ↔ d.Valid := by
  constructor
  · rintro ⟨g, h⟩
    obtain ⟨hdistinct, hdescribes⟩ := resolve_eq_ok_iff.mp h
    exact .of_describes hdistinct hdescribes (Draft.valid_of_violation? g.faultless)
  · intro hvalid
    obtain ⟨draft, hdescribes⟩ := hvalid.exists_describes
    obtain ⟨g, hbuild⟩ := Draft.build_eq_ok_iff.mpr (hvalid.draft_valid hdescribes)
    rw [← Draft.toDraft_of_build hbuild] at hdescribes
    exact ⟨g, resolve_eq_ok_iff.mpr ⟨hvalid.distinct, hdescribes⟩⟩

/-! ## Renaming -/

/-- The ids that the description uses. -/
def ids (d : Description) : List UInt64 :=
  d.listed ++ d.nodes.flatMap (·.shape.children) ++ d.edges.flatMap fun e => [e.source, e.target]

def rename (f : UInt64 → UInt64) (d : Description) : Description where
  nodes := d.nodes.map fun node => ⟨f node.id, node.shape.map id id id f⟩
  edges := d.edges.map fun e => ⟨f e.source, f e.target, e.branch⟩

theorem listed_rename (f : UInt64 → UInt64) (d : Description) :
    (d.rename f).listed = d.listed.map f := by
  simp [listed, rename]

theorem locate?_eq_findIdx? (d : Description) (id : UInt64) :
    d.locate? id = d.listed.findIdx? (· = id) := by
  rw [listed, List.findIdx?_map]
  rfl

section

variable {d : Description} {f : UInt64 → UInt64}
  (hf : ∀ a ∈ d.ids, ∀ b ∈ d.ids, f a = f b → a = b)

include hf

theorem locate?_rename {id : UInt64} (hid : id ∈ d.ids) :
    (d.rename f).locate? (f id) = d.locate? id := by
  have hsame : ∀ a ∈ d.listed, (f a = f id ↔ a = id) := by
    intro a ha
    exact ⟨hf a (by simp [ids, ha]) id hid, fun h => h ▸ rfl⟩
  rw [locate?_eq_findIdx?, locate?_eq_findIdx?, listed_rename, List.findIdx?_map]
  generalize d.listed = listed at hsame
  induction listed with
  | nil => rfl
  | cons a rest ih =>
    rw [List.findIdx?_cons, List.findIdx?_cons, ih fun b hb => hsame b (List.mem_cons_of_mem a hb)]
    simp [hsame a List.mem_cons_self]

theorem nodup_listed_rename : (d.rename f).listed.Nodup ↔ d.listed.Nodup := by
  rw [listed_rename]
  constructor
  · exact List.Nodup.of_map f
  · refine List.Nodup.map_on fun a ha b hb => ?_
    exact hf a (by simp [ids, ha]) b (by simp [ids, hb])

theorem describes_rename {draft : Draft} : (d.rename f).Describes draft ↔ d.Describes draft := by
  have hnodes : (d.rename f).nodes.map ((d.rename f).located ·.shape) =
      d.nodes.map (d.located ·.shape) := by
    rw [rename, List.map_map]
    refine List.map_congr_left fun node hnode => ?_
    refine (Shape.map_map node.shape).trans (Shape.map_congr ?_ fun c hc => ?_)
    · exact Shape.operators_of_forall (fun _ => rfl) (fun _ => rfl) (fun _ => rfl) node.shape
    · have hid : c ∈ d.ids := by
        simp only [ids, List.mem_append, List.mem_flatMap]
        exact .inl (.inr ⟨node, hnode, hc⟩)
      exact locate?_rename hf hid
  have hedges : (d.rename f).edges.map (d.rename f).locatedEdge = d.edges.map d.locatedEdge := by
    rw [rename, List.map_map]
    refine List.map_congr_left fun e he => ?_
    have hid {id : UInt64} (h : id = e.source ∨ id = e.target) : id ∈ d.ids := by
      simp only [ids, List.mem_append, List.mem_flatMap]
      exact .inr ⟨e, he, by simpa using h⟩
    have hsource := locate?_rename hf (hid (.inl rfl))
    have htarget := locate?_rename hf (hid (.inr rfl))
    simp only [rename] at hsource htarget
    simp [locatedEdge, hsource, htarget]
  exact ⟨fun h => ⟨h.kinds.trans hnodes, h.edges.trans hedges⟩,
    fun h => ⟨h.kinds.trans hnodes.symm, h.edges.trans hedges.symm⟩⟩

theorem resolve_rename {g : Graph} : (d.rename f).resolve = .ok g ↔ d.resolve = .ok g := by
  rw [resolve_eq_ok_iff, resolve_eq_ok_iff, nodup_listed_rename hf, describes_rename hf]

end

/-! ## Resolution -/

/-- A description is resolved exactly if it is valid. Each of its nodes then stands at the position
that `locate?` gives, with its children replaced by their positions and its operator by the one that
is written so; the neighbours of the node are the ends of its edges in the order of the description,
and edges keep their labels. New names for the ids change nothing. -/
theorem resolve_faithful (d : Description) :
    ((∃ g, d.resolve = .ok g) ↔ d.Valid) ∧
    (∀ g, d.resolve = .ok g →
      g.size = d.nodes.length ∧
      (∀ node ∈ d.nodes, ∃ n kind, d.locate? node.id = some n ∧ g.kind? n = some kind ∧
        kind.map UnaryOp.symbol BinaryOp.symbol AssignOp.symbol some =
          node.shape.map id id id d.locate? ∧
        (g.next n).map some = (d.edges.filter (·.source = node.id)).map (d.locate? ·.target) ∧
        (g.prev n).map some = (d.edges.filter (·.target = node.id)).map (d.locate? ·.source)) ∧
      ∀ e ∈ d.edges, ∃ source target,
        d.locate? e.source = some source ∧ d.locate? e.target = some target ∧
        g.edge? source target = some ⟨source, target, e.branch⟩ ∧
        ∀ taken, e.branch = some taken → g.branchOf source target = some taken) ∧
    ∀ f : UInt64 → UInt64, (∀ a ∈ d.ids, ∀ b ∈ d.ids, f a = f b → a = b) →
      ∀ g, (d.rename f).resolve = .ok g ↔ d.resolve = .ok g := by
  refine ⟨exists_resolve_iff, ?_, fun f hf g => resolve_rename hf⟩
  intro g h
  obtain ⟨hdistinct, hdescribes⟩ := resolve_eq_ok_iff.mp h
  refine ⟨hdescribes.size_eq, ?_, ?_⟩
  · intro node hnode
    obtain ⟨n, kind, hn, hkind, hwritten⟩ := hdescribes.exists_located_kind hdistinct hnode
    exact ⟨n, kind, hn, hkind, hwritten, hdescribes.map_next hn, hdescribes.map_prev hn⟩
  · intro e he
    obtain ⟨source, target, hsource, htarget, hmem⟩ := hdescribes.exists_located_edge he
    have hsimple := (Draft.valid_of_violation? g.faultless).simple
    have hedge : g.edge? source target = some ⟨source, target, e.branch⟩ :=
      (Draft.edge?_eq_some_iff hsimple).mpr ⟨hmem, rfl, rfl⟩
    exact ⟨source, target, hsource, htarget, hedge, fun _ => Draft.branchOf_of_edge? hedge⟩

/-! ### A loop with its parts out of order

`int x; while (x < 10) x++;` with the loop listed first and the declaration last -/

def outOfOrder : Description where
  nodes := [⟨90, .whileLoop 30⟩, ⟨30, .binary "<" 20 7⟩, ⟨20, .reference "x" "int" (some 5)⟩,
    ⟨7, .literal (some 10)⟩, ⟨60, .unary "++" 20⟩, ⟨1, .other "end"⟩,
    ⟨5, .declaration "x" "int" none⟩]
  edges := [⟨90, 60, some true⟩, ⟨5, 20, none⟩, ⟨20, 7, none⟩, ⟨7, 30, none⟩, ⟨30, 90, none⟩,
    ⟨60, 20, none⟩, ⟨90, 1, some false⟩]

/-- The loop is resolved to a graph, and to the same one with other ids. With its first edge listed
again it is not. -/
theorem outOfOrder_resolve :
    (∃ g, outOfOrder.resolve = .ok g ∧
      (∃ kind, g.kind? 4 = some kind ∧
        kind.map UnaryOp.symbol BinaryOp.symbol AssignOp.symbol some = .unary "++" (some 2)) ∧
      (g.next 0).map some = [some 4, some 5] ∧ (g.prev 2).map some = [some 6, some 4] ∧
      g.branchOf 0 5 = some false ∧ (outOfOrder.rename (1000 - ·)).resolve = .ok g) ∧
    ¬ ∃ g, (⟨outOfOrder.nodes, outOfOrder.edges ++ [⟨90, 60, none⟩]⟩ : Description).resolve =
      .ok g := by
  constructor
  · obtain ⟨-, hkeeps, hrename⟩ := resolve_faithful outOfOrder
    obtain ⟨g, hresolve, -⟩ : ∃ g, outOfOrder.resolve = .ok g ∧ true = true :=
      exists_ok_of_any (by decide +kernel)
    obtain ⟨-, hnode, hedge⟩ := hkeeps g hresolve
    obtain ⟨n, kind, hn, hkind, hwritten, -⟩ := hnode ⟨60, .unary "++" 20⟩ (by decide)
    obtain rfl : 4 = n := Option.some.inj hn
    obtain ⟨n, -, hn, -, -, hnext, -⟩ := hnode ⟨90, .whileLoop 30⟩ (by decide)
    obtain rfl : 0 = n := Option.some.inj hn
    obtain ⟨n, -, hn, -, -, -, hprev⟩ := hnode ⟨20, .reference "x" "int" (some 5)⟩ (by decide)
    obtain rfl : 2 = n := Option.some.inj hn
    obtain ⟨source, target, hsource, htarget, -, hbranch⟩ := hedge ⟨90, 1, some false⟩ (by decide)
    obtain rfl : 0 = source := Option.some.inj hsource
    obtain rfl : 5 = target := Option.some.inj htarget
    exact ⟨g, hresolve, ⟨kind, hkind, hwritten⟩, hnext, hprev, hbranch false rfl,
      (hrename (1000 - ·) (fun _ _ _ _ => (UInt64.sub_right_inj 1000).mp) g).mpr hresolve⟩
  · rw [(resolve_faithful _).1]
    intro hvalid
    exact absurd hvalid.simple (by decide)

end Description

end IntervalFlow
