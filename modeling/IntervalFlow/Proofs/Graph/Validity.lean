import IntervalFlow.Proofs.Graph.Path

/-!
# Validity — which drafts become graphs

`Draft.Valid` says what makes a draft an evaluation order graph, in terms of its nodes and edges
alone, and `Draft.Fault` what each reported violation is about. Building a draft accepts exactly the
valid ones (`build_eq_ok_iff`), and what it reports of any other draft is a fault of it. A draft is
the nodes and edges of the edits that made it, in the order in which they were added.
-/

namespace IntervalFlow

/-- The edges connect the same nodes in the same direction. -/
def Edge.Parallel (e f : Edge) : Prop := e.source = f.source ∧ e.target = f.target

instance (e f : Edge) : Decidable (e.Parallel f) :=
  inferInstanceAs (Decidable (e.source = f.source ∧ e.target = f.target))

theorem Shape.isDeclaration_iff {U B A ι : Type} {shape : Shape U B A ι} :
    shape.isDeclaration = true ↔
      ∃ name type initializer, shape = .declaration name type initializer := by
  cases shape <;> simp [isDeclaration]

namespace Draft

/-- The edges that leave a node, in the order in which they were added. -/
def outgoing (d : Draft) (node : NodeId) : List Edge := d.edges.filter (·.source = node)

/-- The edges that lead to a node, in the order in which they were added. -/
def ingoing (d : Draft) (node : NodeId) : List Edge := d.edges.filter (·.target = node)

/-- Children and edge ends exist, references are resolved to declarations, no two edges are
parallel, and loops can be entered and left. -/
structure Valid (d : Draft) : Prop where
  children : ∀ node kind, d.kind? node = some kind → ∀ child ∈ kind.children, child < d.size
  declarations : ∀ node name type declaration,
    d.kind? node = some (.reference name type (some declaration)) →
      ∃ name' type' initializer, d.kind? declaration = some (.declaration name' type' initializer)
  endpoints : ∀ e ∈ d.edges, e.source < d.size ∧ e.target < d.size
  simple : d.edges.Pairwise fun e f => ¬ e.Parallel f
  loops : ∀ node kind, d.kind? node = some kind → kind.isLoop = true →
    2 ≤ (d.outgoing node).length

/-- The draft has the fault that the violation names. -/
inductive Fault (d : Draft) : Violation → Prop where
  | missingChild {node child : NodeId} {kind : NodeKind} (hkind : d.kind? node = some kind)
    (hchild : child ∈ kind.children) (hmissing : d.size ≤ child) :
    Fault d (.missingChild node child)
  | unexpectedDeclaration {node declaration : NodeId} {name type : String} {target : NodeKind}
    (hkind : d.kind? node = some (.reference name type (some declaration)))
    (htarget : d.kind? declaration = some target) (hother : ¬ target.isDeclaration = true) :
    Fault d (.unexpectedDeclaration node target.label)
  | missingEndpoint {e : Edge} (he : e ∈ d.edges)
    (hmissing : d.size ≤ e.source ∨ d.size ≤ e.target) :
    Fault d (.missingEndpoint e.source e.target)
  | duplicateEdge (h : ¬ d.edges.Pairwise fun e f => ¬ e.Parallel f) : Fault d .duplicateEdge
  | loopSuccessors {node : NodeId} {kind : NodeKind} (hkind : d.kind? node = some kind)
    (hloop : kind.isLoop = true) (hfew : (d.outgoing node).length < 2) :
    Fault d (.loopSuccessors node (d.outgoing node).length)

theorem Fault.not_valid {d : Draft} {cause : Violation} (h : d.Fault cause) : ¬ d.Valid := by
  intro hvalid
  cases h with
  | missingChild hkind hchild hmissing =>
    exact absurd (hvalid.children _ _ hkind _ hchild) (Nat.not_lt.mpr hmissing)
  | unexpectedDeclaration hkind htarget hother =>
    obtain ⟨name', type', initializer, hdeclaration⟩ := hvalid.declarations _ _ _ _ hkind
    rw [hdeclaration] at htarget
    cases htarget
    exact hother rfl
  | missingEndpoint he hmissing =>
    obtain ⟨hsource, htarget⟩ := hvalid.endpoints _ he
    rcases hmissing with hmissing | hmissing
    · exact absurd hsource (Nat.not_lt.mpr hmissing)
    · exact absurd htarget (Nat.not_lt.mpr hmissing)
  | duplicateEdge h => exact h hvalid.simple
  | loopSuccessors hkind hloop hfew =>
    exact absurd (hvalid.loops _ _ hkind hloop) (Nat.not_le.mpr hfew)

/-! ## Neighbours -/

theorem next_eq (d : Draft) (node : NodeId) : d.next node = (d.outgoing node).map Edge.target := by
  unfold next outgoing
  induction d.edges with
  | nil => rfl
  | cons e rest ih => by_cases h : e.source = node <;> simp [h, ih]

theorem prev_eq (d : Draft) (node : NodeId) : d.prev node = (d.ingoing node).map Edge.source := by
  unfold prev ingoing
  induction d.edges with
  | nil => rfl
  | cons e rest ih => by_cases h : e.target = node <;> simp [h, ih]

/-- Where no edges are parallel, an edge is known by its ends. -/
theorem edge?_eq_some_iff {d : Draft} (h : d.edges.Pairwise fun e f => ¬ e.Parallel f)
    {source target : NodeId} {e : Edge} :
    d.edge? source target = some e ↔ e ∈ d.edges ∧ e.source = source ∧ e.target = target := by
  unfold edge?
  generalize d.edges = edges at h
  induction edges with
  | nil => simp
  | cons f rest ih =>
    rw [List.pairwise_cons] at h
    rw [List.find?_cons]
    by_cases hf : f.source = source ∧ f.target = target
    · have hmatch : (decide (f.source = source) && decide (f.target = target)) = true := by
        simpa using hf
      rw [hmatch, Option.some.injEq]
      constructor
      · rintro rfl
        exact ⟨List.mem_cons_self, hf⟩
      · rintro ⟨he, hends⟩
        rcases List.mem_cons.mp he with rfl | he
        · rfl
        · exact absurd ⟨hf.1.trans hends.1.symm, hf.2.trans hends.2.symm⟩ (h.1 e he)
    · have hmatch : (decide (f.source = source) && decide (f.target = target)) = false := by
        simpa using hf
      rw [hmatch, ih h.2, List.mem_cons]
      refine and_congr_left fun hends => (or_iff_right ?_).symm
      rintro rfl
      exact hf hends

/-! ## Checks of single nodes and edges -/

theorem exists_kind {d : Draft} {node : NodeId} (h : node < d.size) :
    ∃ kind, d.kind? node = some kind := ⟨d.kinds[node], Array.getElem?_eq_getElem h⟩

theorem mem_nodes_of_kind {d : Draft} {node : NodeId} {kind : NodeKind}
    (h : d.kind? node = some kind) : node ∈ d.nodes :=
  List.mem_range.mpr (Array.getElem?_eq_some_iff.mp h).1

/-- Once all children of a node are known to exist, its declaration can be looked up. -/
theorem exists_declaration {d : Draft} {kind : NodeKind}
    (h : kind.children.find? (d.size ≤ ·) = none) :
    (∀ child ∈ kind.children, child < d.size) ∧
      ∀ name type declaration, kind = .reference name type (some declaration) →
        ∃ target, d.kind? declaration = some target := by
  have hchildren : ∀ child ∈ kind.children, child < d.size := by
    intro child hchild
    have hexists := List.find?_eq_none.mp h child hchild
    rwa [decide_eq_true_eq, Nat.not_le] at hexists
  refine ⟨hchildren, ?_⟩
  rintro name type declaration rfl
  exact exists_kind (hchildren declaration List.mem_cons_self)

theorem nodeViolation?_eq_none {d : Draft} {node : NodeId} {kind : NodeKind}
    (hkind : d.kind? node = some kind) (h : d.nodeViolation? node = none) :
    (∀ child ∈ kind.children, child < d.size) ∧
      ∀ name type declaration, kind = .reference name type (some declaration) →
        ∃ target, d.kind? declaration = some target ∧ target.isDeclaration = true := by
  simp only [nodeViolation?, hkind] at h
  split at h
  · cases h
  · rename_i hfind
    obtain ⟨hchildren, hdeclaration⟩ := exists_declaration hfind
    refine ⟨hchildren, ?_⟩
    rintro name type declaration rfl
    obtain ⟨target, htarget⟩ := hdeclaration name type declaration rfl
    simp only [htarget] at h
    split at h
    · rename_i hdeclares
      exact ⟨target, htarget, hdeclares⟩
    · cases h

theorem nodeViolation?_eq_some {d : Draft} {node : NodeId} {cause : Violation}
    (h : d.nodeViolation? node = some cause) : d.Fault cause := by
  unfold nodeViolation? at h
  split at h
  · cases h
  · rename_i kind hkind
    split at h
    · rename_i child hchild
      have hmissing := List.find?_some hchild
      cases h
      exact .missingChild hkind (List.mem_of_find?_eq_some hchild) (of_decide_eq_true hmissing)
    · split at h
      · split at h
        · rename_i htarget
          split at h
          · cases h
          · rename_i hother
            cases h
            exact .unexpectedDeclaration hkind htarget hother
        · cases h
      · cases h

/-- The edges that pass the check are parallel neither to each other nor to an earlier one. -/
theorem pairwise_of_edgeViolation? {d : Draft} {earlier edges : List Edge}
    (h : d.edgeViolation? earlier edges = none) :
    edges.Pairwise (fun e f => ¬ e.Parallel f) ∧
      ∀ e ∈ earlier, ∀ f ∈ edges, ¬ e.Parallel f := by
  induction edges generalizing earlier with
  | nil => exact ⟨.nil, fun e _ f hf => absurd hf List.not_mem_nil⟩
  | cons f rest ih =>
    rw [edgeViolation?] at h
    split at h
    · cases h
    · split at h
      · cases h
      · rename_i hnew
        obtain ⟨hpairwise, hearlier⟩ := ih h
        refine ⟨List.pairwise_cons.mpr ⟨hearlier f List.mem_cons_self, hpairwise⟩, ?_⟩
        intro e he f' hf'
        rcases List.mem_cons.mp hf' with rfl | hf'
        · rintro ⟨hsource, htarget⟩
          apply hnew
          rw [List.any_eq_true]
          exact ⟨e, he, by simp [hsource, htarget]⟩
        · exact hearlier e (List.mem_cons_of_mem _ he) f' hf'

theorem edgeViolation?_eq_some {d : Draft} {earlier edges : List Edge} {cause : Violation}
    (h : d.edgeViolation? earlier edges = some cause) :
    (∃ e ∈ edges, (d.size ≤ e.source ∨ d.size ≤ e.target) ∧
      cause = .missingEndpoint e.source e.target) ∨
    cause = .duplicateEdge ∧ ((∃ e ∈ earlier, ∃ f ∈ edges, e.Parallel f) ∨
      ¬ edges.Pairwise fun e f => ¬ e.Parallel f) := by
  induction edges generalizing earlier with
  | nil => cases h
  | cons f rest ih =>
    rw [edgeViolation?] at h
    split at h
    · rename_i hmissing
      cases h
      exact .inl ⟨f, List.mem_cons_self, hmissing, rfl⟩
    · split at h
      · rename_i hany
        cases h
        obtain ⟨e, he, hends⟩ := List.any_eq_true.mp hany
        refine .inr ⟨rfl, .inl ⟨e, he, f, List.mem_cons_self, ?_⟩⟩
        simpa [Edge.Parallel] using hends
      · rcases ih h with ⟨e, he, hmissing⟩ | ⟨rfl, hparallel⟩
        · exact .inl ⟨e, List.mem_cons_of_mem f he, hmissing⟩
        · refine .inr ⟨rfl, ?_⟩
          rw [List.pairwise_cons]
          rcases hparallel with ⟨e, he, f', hf', hparallel⟩ | hpairwise
          · rcases List.mem_cons.mp he with rfl | he
            · exact .inr fun hsimple => hsimple.1 f' hf' hparallel
            · exact .inl ⟨e, he, f', List.mem_cons_of_mem f hf', hparallel⟩
          · exact .inr fun hsimple => hpairwise hsimple.2

theorem loopViolation?_eq_none {d : Draft} {node : NodeId} {kind : NodeKind}
    (hkind : d.kind? node = some kind) (h : d.loopViolation? node = none)
    (hloop : kind.isLoop = true) : 2 ≤ (d.outgoing node).length := by
  simp only [loopViolation?, hkind, hloop, Bool.true_and, decide_eq_true_eq] at h
  split at h
  · cases h
  · rename_i hmany
    rwa [next_eq, List.length_map, Nat.not_lt] at hmany

theorem loopViolation?_eq_some {d : Draft} {node : NodeId} {cause : Violation}
    (h : d.loopViolation? node = some cause) : d.Fault cause := by
  unfold loopViolation? at h
  split at h
  · rename_i kind hkind
    split at h
    · rename_i hfew
      rw [Bool.and_eq_true, decide_eq_true_eq, next_eq, List.length_map] at hfew
      cases h
      rw [next_eq, List.length_map]
      exact .loopSuccessors hkind hfew.1 hfew.2
    · cases h
  · cases h

/-! ## The whole check -/

theorem valid_of_violation? {d : Draft} (h : d.violation? = none) : d.Valid := by
  rw [violation?, Option.or_eq_none_iff, Option.or_eq_none_iff, List.findSome?_eq_none_iff,
    List.findSome?_eq_none_iff] at h
  obtain ⟨hnodes, hedges, hloops⟩ := h
  have hnode (node : NodeId) (kind : NodeKind) (hkind : d.kind? node = some kind) :=
    nodeViolation?_eq_none hkind (hnodes node (mem_nodes_of_kind hkind))
  refine ⟨fun node kind hkind => (hnode node kind hkind).1, ?_, lt_size_of_edgeViolation? hedges,
    (pairwise_of_edgeViolation? hedges).1, ?_⟩
  · intro node name type declaration hkind
    obtain ⟨target, htarget, hdeclares⟩ := (hnode node _ hkind).2 name type declaration rfl
    obtain ⟨name', type', initializer, rfl⟩ := Shape.isDeclaration_iff.mp hdeclares
    exact ⟨name', type', initializer, htarget⟩
  · intro node kind hkind
    exact loopViolation?_eq_none hkind (hloops node (mem_nodes_of_kind hkind))

theorem fault_of_violation? {d : Draft} {cause : Violation} (h : d.violation? = some cause) :
    d.Fault cause := by
  rw [violation?, Option.or_eq_some_iff, Option.or_eq_some_iff] at h
  rcases h with h | ⟨-, h | ⟨-, h⟩⟩
  · obtain ⟨node, -, hnode⟩ := List.exists_of_findSome?_eq_some h
    exact nodeViolation?_eq_some hnode
  · rcases edgeViolation?_eq_some h with ⟨e, he, hmissing, rfl⟩ | ⟨rfl, hparallel⟩
    · exact .missingEndpoint he hmissing
    · refine .duplicateEdge (hparallel.resolve_left ?_)
      rintro ⟨e, he, -⟩
      cases he
  · obtain ⟨node, -, hnode⟩ := List.exists_of_findSome?_eq_some h
    exact loopViolation?_eq_some hnode

theorem violation?_eq_none_iff {d : Draft} : d.violation? = none ↔ d.Valid := by
  refine ⟨valid_of_violation?, fun hvalid => ?_⟩
  cases hcause : d.violation? with
  | none => rfl
  | some cause => exact absurd hvalid (fault_of_violation? hcause).not_valid

/-- Building adds nothing to a draft and takes nothing away. -/
theorem toDraft_of_build {d : Draft} {g : Graph} (h : d.build = .ok g) : g.toDraft = d := by
  unfold build at h
  split at h
  · cases h
  · cases h
    rfl

theorem build_toDraft (g : Graph) : g.toDraft.build = .ok g := by
  unfold build
  split
  · rename_i cause hcause
    rw [g.faultless] at hcause
    cases hcause
  · rfl

theorem build_eq_ok_iff {d : Draft} : (∃ g, d.build = .ok g) ↔ d.Valid := by
  rw [← violation?_eq_none_iff]
  constructor
  · rintro ⟨g, h⟩
    rw [← toDraft_of_build h]
    exact g.faultless
  · intro h
    exact ⟨⟨d, h⟩, build_toDraft ⟨d, h⟩⟩

theorem exists_fault_of_build {d : Draft} (h : ¬ d.Valid) :
    ∃ cause, d.build = .error cause ∧ d.Fault cause := by
  unfold build
  split
  · rename_i cause hcause
    exact ⟨cause, rfl, fault_of_violation? hcause⟩
  · rename_i hnone
    exact absurd (violation?_eq_none_iff.mp hnone) h

/-! ## Edits -/

/-- The node that an edit adds. -/
def Edit.kind? : Edit → Option NodeKind
  | .add kind => some kind
  | _ => none

/-- The edges that an edit adds, in order. -/
def Edit.edges : Edit → List Edge
  | .add _ => []
  | .connect source target branch => [⟨source, target, branch⟩]
  | .sequence nodes => nodes.zipWith (fun source target => ⟨source, target, none⟩) nodes.tail

/-- All that the edits add, in order. -/
def additions (edits : List Edit) : Draft :=
  ⟨(edits.filterMap Edit.kind?).toArray, edits.flatMap Edit.edges⟩

theorem sequence_eq (d : Draft) (nodes : List NodeId) :
    d.sequence nodes = ⟨d.kinds, d.edges ++ (Edit.sequence nodes).edges⟩ := by
  induction nodes generalizing d with
  | nil => simp [sequence, Edit.edges]
  | cons source rest ih =>
    cases rest with
    | nil => simp [sequence, Edit.edges]
    | cons target rest =>
      rw [sequence, ih]
      simp [connect, Edit.edges]

theorem edit_eq (d : Draft) (e : Edit) :
    d.edit e = ⟨d.kinds ++ e.kind?.toList.toArray, d.edges ++ e.edges⟩ := by
  cases e with
  | add kind => simp [edit, add, Edit.kind?, Edit.edges]
  | connect source target branch => simp [edit, connect, Edit.kind?, Edit.edges]
  | sequence nodes => simp [edit, sequence_eq, Edit.kind?]

/-- A draft holds what its edits added. -/
theorem foldl_edit (edits : List Edit) : edits.foldl edit .empty = additions edits := by
  have hfold (d : Draft) : edits.foldl edit d =
      ⟨d.kinds ++ (edits.filterMap Edit.kind?).toArray, d.edges ++ edits.flatMap Edit.edges⟩ := by
    induction edits generalizing d with
    | nil => simp
    | cons e rest ih =>
      rw [List.foldl_cons, ih, edit_eq, List.flatMap_cons]
      cases hkind : e.kind? with
      | none => simp [hkind]
      | some kind => simp [hkind]
  simpa [empty, additions] using hfold .empty

/-- A label on an edge is the outcome that the edge stands for. -/
theorem branchOf_of_edge? {g : Graph} {source target : NodeId} {e : Edge} {taken : Bool}
    (h : g.edge? source target = some e) (hbranch : e.branch = some taken) :
    g.branchOf source target = some taken := by
  simp only [Graph.branchOf, h, hbranch]

/-- What edits add becomes a graph exactly if it is valid, and otherwise one of its faults is
reported; a declaration is looked up only where it exists. The nodes of the graph are those that
were added, the neighbours of a node come in the order in which the edges were added, and edges keep
their labels. -/
theorem build_edits (edits : List Edit) :
    ((∃ g, (edits.foldl edit .empty).build = .ok g) ↔ (additions edits).Valid) ∧
    (¬ (additions edits).Valid →
      ∃ cause, (edits.foldl edit .empty).build = .error cause ∧ (additions edits).Fault cause) ∧
    (∀ kind ∈ edits.filterMap Edit.kind?, kind.children.find? ((additions edits).size ≤ ·) = none →
      ∀ name type declaration, kind = .reference name type (some declaration) →
        ∃ target, (additions edits).kind? declaration = some target) ∧
    ∀ g, (edits.foldl edit .empty).build = .ok g →
      (∀ i, g.kind? i = (edits.filterMap Edit.kind?)[i]?) ∧
      (∀ n, g.next n = ((edits.flatMap Edit.edges).filter (·.source = n)).map Edge.target) ∧
      (∀ n, g.prev n = ((edits.flatMap Edit.edges).filter (·.target = n)).map Edge.source) ∧
      (∀ source target e, g.edge? source target = some e ↔
        e ∈ edits.flatMap Edit.edges ∧ e.source = source ∧ e.target = target) ∧
      ∀ e ∈ edits.flatMap Edit.edges, ∀ taken, e.branch = some taken →
        g.branchOf e.source e.target = some taken := by
  rw [foldl_edit]
  refine ⟨build_eq_ok_iff, exists_fault_of_build, ?_, ?_⟩
  · intro kind _ hchildren
    exact (exists_declaration hchildren).2
  · intro g h
    have hdraft := toDraft_of_build h
    have hedge {source target : NodeId} {e : Edge} : g.edge? source target = some e ↔
        e ∈ edits.flatMap Edit.edges ∧ e.source = source ∧ e.target = target := by
      rw [hdraft]
      exact edge?_eq_some_iff (build_eq_ok_iff.mp ⟨g, h⟩).simple
    refine ⟨fun i => ?_, fun n => ?_, fun n => ?_, fun source target e => hedge, ?_⟩
    · rw [hdraft]
      exact List.getElem?_toArray
    · rw [hdraft]
      exact next_eq (additions edits) n
    · rw [hdraft]
      exact prev_eq (additions edits) n
    · intro e he taken hbranch
      exact branchOf_of_edge? (hedge.mpr ⟨he, rfl, rfl⟩) hbranch

/-! ### A loop added before its condition

`while (1) x`, where the loop comes before its condition and the reference before its declaration -/

def loopFirst : List Edit :=
  [.add (.whileLoop 1), .add (.literal (some 1)), .add (.reference "x" "int" (some 3)),
    .add (.declaration "x" "int" none), .sequence [1, 0, 2, 1], .connect 0 3 (some false)]

/-- The loop is accepted with its successors in order. With its first edge added again it is not. -/
theorem loopFirst_build :
    (∃ g, (loopFirst.foldl edit .empty).build = .ok g ∧
      g.kind? 3 = some (.declaration "x" "int" none) ∧ g.next 0 = [2, 3] ∧ g.prev 1 = [2] ∧
      g.branchOf 0 3 = some false) ∧
    ∃ cause, ((loopFirst ++ [Edit.connect 1 0 none]).foldl edit .empty).build = .error cause ∧
      (additions (loopFirst ++ [Edit.connect 1 0 none])).Fault cause := by
  constructor
  · obtain ⟨haccepts, -, -, hkeeps⟩ := build_edits loopFirst
    obtain ⟨g, hbuild⟩ := haccepts.mpr (violation?_eq_none_iff.mp (by decide +kernel))
    obtain ⟨hkind, hnext, hprev, -, hbranch⟩ := hkeeps g hbuild
    refine ⟨g, hbuild, hkind 3, hnext 0, hprev 1, ?_⟩
    exact hbranch ⟨0, 3, some false⟩ (by decide) false rfl
  · obtain ⟨-, hrejects, -⟩ := build_edits (loopFirst ++ [Edit.connect 1 0 none])
    exact hrejects (Fault.not_valid (.duplicateEdge (by decide)))

end Draft

end IntervalFlow
