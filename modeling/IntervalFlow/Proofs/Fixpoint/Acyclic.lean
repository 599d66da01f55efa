import IntervalFlow.Proofs.Fixpoint.Straight

/-!
# Acyclic graphs

In a graph without cycles and loop heads all code is straight, so the stored values satisfy the
data-flow equations (`Equations`) as they stand. The equations have one solution only, and computing
the nodes once each, in whatever order that respects the edges, finds it (`sweep`).
-/

namespace IntervalFlow

namespace Solver

theorem flowOf_congr {s : Solver} {general general' : Store NodeId} {source : NodeId}
    (h : s.propagates source = true → general.valueOf source = general'.valueOf source)
    (target : NodeId) : s.flowOf general source target = s.flowOf general' source target := by
  unfold flowOf
  split
  · rename_i hprop
    -- branches do not look at the stored values
    rw [h hprop]
    cases s.measure <;> rfl
  · rfl

end Solver

namespace Problem

/-- The data-flow equations: the nodes that can be reached are those with a value, and the value is
the output for what reaches the node. -/
structure Equations (problem : Problem) (general : Store NodeId) : Prop where
  known : ∀ n, (∃ value, general.get? n = some value) ↔ problem.Reaches n
  output : ∀ n value, general.get? n = some value →
    problem.solver.transfer general n (problem.solver.inputOf general n) = .ok value

/-- Computes the outputs of nodes one after the other, from what is stored so far. -/
def sweep (problem : Problem) (order : List NodeId) (general : Store NodeId) :
    Except Error (Store NodeId) :=
  order.foldlM (fun general node => do
    return general.set node
      (← problem.solver.transfer general node (problem.solver.inputOf general node))) general

theorem Reaches.of_mem_prev {problem : Problem} {n m : NodeId} (hm : problem.Reaches m)
    (hmem : m ∈ problem.graph.prev n) (hprop : problem.solver.propagates m = true) :
    problem.Reaches n :=
  hm.tail ⟨Draft.mem_prev.mp hmem, propagates_iff.mp hprop⟩

namespace Equations

variable {problem : Problem} {general : Store NodeId}

theorem valueOf_of_not_reaches (h : problem.Equations general) {n : NodeId}
    (hn : ¬ problem.Reaches n) : general.valueOf n = .bottom :=
  Store.valueOf_eq_bottom fun hknown => hn ((h.known n).mp hknown)

/-- Nothing reaches a node that cannot be reached. -/
theorem inputOf_of_not_reaches (h : problem.Equations general) {n : NodeId}
    (hn : ¬ problem.Reaches n) : problem.solver.inputOf general n = .bottom := by
  have hstart : n ≠ problem.start := by
    rintro rfl
    exact hn .refl
  have hflow : ∀ source ∈ problem.graph.prev n,
      problem.solver.flowOf general source n = .bottom := by
    intro source hsource
    unfold Solver.flowOf
    split
    · rename_i hprop
      have hsilent := h.valueOf_of_not_reaches fun hreaches =>
        hn (hreaches.of_mem_prev hsource hprop)
      rw [hsilent]
      split
      · exact Measure.branch_bottom ..
      · rfl
    · rfl
  have hinitial : problem.solver.initialInput n = .bottom := if_neg hstart
  calc problem.solver.inputOf general n
      = (problem.graph.prev n).foldl (fun input _ => input) .bottom := by
        rw [Solver.inputOf_eq_foldl, hinitial]
        refine List.foldl_ext _ _ _ fun input source hsource => ?_
        rw [hflow source hsource, Interval.join_bottom]
    _ = .bottom := List.foldl_fixed _

/-- The equation holds of all nodes, with nothing coming out of those that cannot be reached. -/
theorem transfer_eq (h : problem.Equations general) (n : NodeId) :
    problem.solver.transfer general n (problem.solver.inputOf general n) =
      .ok (general.valueOf n) := by
  by_cases hn : problem.Reaches n
  · obtain ⟨value, hvalue⟩ := (h.known n).mpr hn
    rw [h.output n value hvalue, Store.valueOf, hvalue]
    rfl
  · have hstart : n ≠ problem.start := by
      rintro rfl
      exact hn .refl
    rw [h.inputOf_of_not_reaches hn, h.valueOf_of_not_reaches hn, Solver.transfer,
      if_pos ⟨hstart, rfl⟩]

end Equations

section Acyclic

variable {problem : Problem} (hacyclic : ∀ n, ¬ problem.graph.Cyclic n)
variable (hheads : ∀ n, problem.graph.isLoopHead n = false)

include hheads

theorem not_summarized (n : NodeId) : ¬ problem.solver.Summarized n := by
  rintro ⟨-, initializer, condition, iteration, hkind⟩
  have hhead := hheads n
  rw [Graph.isLoopHead, show problem.graph.kind? n = _ from hkind] at hhead
  cases hhead

include hacyclic

/-- There is only one solution: values that agree before a node agree after it. -/
theorem Equations.unique {general general' : Store NodeId} (h : problem.Equations general)
    (h' : problem.Equations general') (n : NodeId) : general.get? n = general'.get? n := by
  induction n using (Graph.wellFounded_of_edges (fun _ _ => id) hacyclic).induction with
  | _ n ih =>
    have hinput : problem.solver.inputOf general n = problem.solver.inputOf general' n :=
      Solver.inputOf_congr fun source hsource _ => ih source (Draft.mem_prev.mp hsource)
    cases hvalue : general.get? n with
    | none =>
      rw [eq_comm, Option.eq_none_iff_forall_ne_some]
      intro value hvalue'
      obtain ⟨value', hvalue''⟩ := (h.known n).mpr ((h'.known n).mp ⟨value, hvalue'⟩)
      rw [hvalue] at hvalue''
      cases hvalue''
    | some value =>
      obtain ⟨value', hvalue'⟩ := (h'.known n).mpr ((h.known n).mp ⟨value, hvalue⟩)
      have houtput := h.output n value hvalue
      rw [hinput, Solver.transfer_congr (not_summarized hheads n) general general',
        h'.output n value' hvalue'] at houtput
      cases houtput
      exact hvalue'.symm

/-- After the nodes in `before`, the nodes in `after` are computed from values that are final. -/
theorem Equations.sweep_eq {general store : Store NodeId} (h : problem.Equations general)
    {before after : List NodeId}
    (hstore : ∀ n, store.get? n = if n ∈ before then some (general.valueOf n) else none)
    (hall : ∀ n, problem.Reaches n → n ∈ before ++ after)
    (hsorted : after.Pairwise fun a b => a ∉ problem.graph.next b) :
    ∃ swept, problem.sweep after store = .ok swept ∧
      ∀ n, swept.get? n = if n ∈ before ++ after then some (general.valueOf n) else none := by
  induction after generalizing before store with
  | nil =>
    refine ⟨store, rfl, ?_⟩
    rw [List.append_nil]
    exact hstore
  | cons node rest ih =>
    obtain ⟨hfirst, hrest⟩ := List.pairwise_cons.mp hsorted
    have hinput : problem.solver.inputOf store node = problem.solver.inputOf general node := by
      rw [Solver.inputOf_eq_foldl, Solver.inputOf_eq_foldl]
      refine List.foldl_ext _ _ _ fun input source hsource => ?_
      rw [Solver.flowOf_congr fun _ => ?_]
      rw [Store.valueOf.eq_1 store, hstore]
      split
      · rfl
      · rename_i hmissing
        -- a predecessor that comes later or never has no value
        refine (h.valueOf_of_not_reaches fun hreaches => ?_).symm
        have hnext := Draft.mem_prev.mp hsource
        rcases List.mem_cons.mp ((List.mem_append.mp (hall source hreaches)).resolve_left hmissing)
          with rfl | hlater
        · exact hacyclic source (.single hnext)
        · exact hfirst source hlater hnext
    have houtput : problem.solver.transfer store node (problem.solver.inputOf store node) =
        .ok (general.valueOf node) := by
      rw [hinput, Solver.transfer_congr (not_summarized hheads node) store general, h.transfer_eq]
    have hnext (n : NodeId) : (store.set node (general.valueOf node)).get? n =
        if n ∈ before ++ [node] then some (general.valueOf n) else none := by
      rw [Table.get?_set, hstore]
      by_cases hn : n = node
      · simp [hn]
      · simp [hn]
    obtain ⟨swept, hswept, hvalues⟩ := ih hnext
      (fun n hn => by simpa using hall n hn) hrest
    refine ⟨swept, ?_, fun n => ?_⟩
    · rw [sweep, List.foldlM_cons, houtput]
      exact hswept
    · rw [hvalues, List.append_assoc, List.singleton_append]

end Acyclic

/-- In a graph without cycles and loop heads no precision is lost: what is stored solves the
data-flow equations, it is their only solution, and computing every node that can be reached once,
in any order in which no node precedes one that leads to it, gives the same values. -/
theorem solve_acyclic {problem : Problem} {limit : Option Nat} {solution : Solution}
    (hacyclic : ∀ n, ¬ problem.graph.Cyclic n) (hheads : ∀ n, problem.graph.isLoopHead n = false)
    (hseed : problem.seed.WellFormed) (h : problem.solve limit = .ok solution) :
    problem.Equations solution.state.general ∧
    (∀ general, problem.Equations general →
      ∀ n, general.get? n = solution.state.general.get? n) ∧
    ∀ order : List NodeId, (∀ n, problem.Reaches n → n ∈ order) →
      order.Pairwise (fun a b => a ∉ problem.graph.next b) →
      ∃ swept, problem.sweep order .empty = .ok swept ∧
        ∀ n, swept.valueOf n = solution.state.general.valueOf n := by
  obtain ⟨p, hsettled, hgeneral⟩ := solve_eq_ok h
  have hs := solver_wellFormed hseed
  have hcomputed := Solver.computed_of_settled hs hsettled
  have hequations : problem.Equations solution.state.general := by
    rw [hgeneral]
    refine ⟨fun n => hcomputed.known_iff.trans reaches_iff, fun n value hvalue => ?_⟩
    have hstraight : problem.solver.Straight n := fun m _ _ => ⟨hheads m, hacyclic m⟩
    obtain ⟨value', hvalue', houtput⟩ := Solver.recompute_straight hs
      (fun m hm => Graph.mem_cyclicNodes.mp hm) hsettled hstraight
      (hcomputed.known_iff.mp ⟨value, hvalue⟩)
    rw [hvalue] at hvalue'
    cases hvalue'
    exact houtput
  refine ⟨hequations, ?_, ?_⟩
  · intro general hgeneral n
    exact hgeneral.unique hacyclic hheads hequations n
  · intro order hall hsorted
    have hempty (n : NodeId) : (Table.empty : Store NodeId).get? n =
        if n ∈ ([] : List NodeId) then some (solution.state.general.valueOf n) else none := rfl
    obtain ⟨swept, hswept, hvalues⟩ := hequations.sweep_eq hacyclic hheads hempty hall hsorted
    refine ⟨swept, hswept, fun n => ?_⟩
    rw [Store.valueOf.eq_1 swept, hvalues]
    split
    · rfl
    · rename_i hmissing
      exact (hequations.valueOf_of_not_reaches fun hreaches => hmissing (hall n hreaches)).symm

/-! ## A merge

`int x; if (x < 3) x = 1; x` -/

def merge : Graph where
  kinds := #[.declaration "x" "int" none, .reference "x" "int" (some 0), .literal (some 3),
    .binary .lt 1 2, .branch 3, .reference "x" "int" (some 0), .literal (some 1),
    .assignment .assign 5 6, .reference "x" "int" (some 0)]
  edges := [⟨0, 3, none⟩, ⟨3, 4, none⟩, ⟨4, 7, none⟩, ⟨4, 8, none⟩, ⟨7, 8, none⟩]
  faultless := by decide +kernel

def mergeProblem : Problem := ⟨merge, .integer, "x", 0, 8, .bottom⟩

/-- Both branches of the merge count, each with its own values, and any order of the nodes finds
them. -/
theorem merge_exact : ∃ solution, mergeProblem.solve none = .ok solution ∧
    solution.state.general.valueOf 8 = .atLeast 1 ∧
    mergeProblem.Equations solution.state.general ∧
    ∃ swept, mergeProblem.sweep [0, 3, 4, 7, 8] .empty = .ok swept ∧
      swept.valueOf 8 = .atLeast 1 := by
  have hsolved : (mergeProblem.solve none).toOption.any (fun solution =>
      (solution.state.general.valueOf 8 = .atLeast 1)) = true := by
    decide +kernel
  obtain ⟨solution, hsolve, hvalue⟩ := exists_ok_of_any hsolved
  have hacyclic (n : NodeId) : ¬ mergeProblem.graph.Cyclic n := by
    have hnone : mergeProblem.graph.cyclicNodes = [] := by decide +kernel
    rw [← Graph.mem_cyclicNodes, hnone]
    exact List.not_mem_nil
  have hheads (n : NodeId) : mergeProblem.graph.isLoopHead n = false := by
    by_cases hn : n < 9
    · have hall : ∀ n < 9, mergeProblem.graph.isLoopHead n = false := by decide +kernel
      exact hall n hn
    · have hnone : mergeProblem.graph.kind? n = none := Array.getElem?_eq_none (not_lt.mp hn)
      rw [Graph.isLoopHead, hnone]
      rfl
  have hreached (n : NodeId) (hn : mergeProblem.Reaches n) : n ∈ [0, 3, 4, 7, 8] := by
    have hclosed : ∀ a ∈ [0, 3, 4, 7, 8], ∀ b ∈ mergeProblem.graph.next a,
        b ∈ [0, 3, 4, 7, 8] := by decide +kernel
    induction hn with
    | refl => decide
    | tail _ hedge ih => exact hclosed _ ih _ hedge.1
  obtain ⟨hequations, -, horder⟩ := solve_acyclic hacyclic hheads (by decide) hsolve
  obtain ⟨swept, hswept, hvalues⟩ := horder [0, 3, 4, 7, 8] hreached (by decide +kernel)
  have hvalue := of_decide_eq_true hvalue
  exact ⟨solution, hsolve, hvalue, hequations, swept, hswept, (hvalues 8).trans hvalue⟩

end Problem

end IntervalFlow
