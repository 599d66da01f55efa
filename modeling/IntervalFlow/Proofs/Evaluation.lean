import IntervalFlow.Evaluation
import IntervalFlow.Proofs.Effect.Lifetime
import IntervalFlow.Proofs.Fixpoint.PostFixpoint

/-!
# Evaluations — reported lifetimes

An evaluation reports what is filed under its start: the values stored at the writes of the tracked
variable, joined. Lifetimes of the other integer variables are filed under their declarations, so
the report is about the tracked variable alone unless the start declares one of the others, in which
case the two are mixed up.
-/

namespace IntervalFlow

theorem Store.valueOf_push {κ : Type} [DecidableEq κ] (s : Store κ) (key : κ) (value : Interval) :
    (s.push key value).1.valueOf key = (s.valueOf key).join value := by
  unfold push valueOf
  cases s.get? key with
  | none =>
    rw [Table.get?_set, if_pos rfl]
    rfl
  | some old =>
    rw [Table.get?_set, if_pos rfl]
    rfl

theorem FlowState.declaredIntervalOf_pushDeclaration (state : FlowState) (n : NodeId)
    (value : Interval) :
    (state.pushDeclaration n value).1.declaredIntervalOf n =
      (state.declaredIntervalOf n).join value :=
  Store.valueOf_push state.declarations n value

/-- Whether the node declares an integer variable that is not called `name`. -/
def Graph.DeclaresOther (g : Graph) (name : String) (n : NodeId) : Prop :=
  ∃ other initializer, g.kind? n = some (.declaration other "int" initializer) ∧ other ≠ name

/-- Only a declaration of another integer variable has a lifetime before the run. -/
theorem Graph.valueOf_lifetimes {g : Graph} {name : String} {n : NodeId}
    (h : ¬ g.DeclaresOther name n) : (g.lifetimes name).valueOf n = .bottom := by
  apply Store.valueOf_eq_bottom
  rintro ⟨lifetime, hlifetime⟩
  rcases Lifetime.exists_write_of_settle hlifetime with hempty | ⟨w, hw, rfl⟩
  · exact hempty rfl
  · obtain ⟨-, hname, initializer, hkind⟩ := Lifetime.mem_writes.mp hw
    exact h ⟨w.name, initializer, hkind, hname⟩

namespace Problem

/-- The values stored at the nodes that write the tracked variable, joined. -/
def joinOfWrites (problem : Problem) (general : Store NodeId) : Interval :=
  ((problem.graph.nodes.filter (problem.graph.writes problem.name)).filterMap general.get?).foldl
    .join .bottom

/-- A run ends with the writes joined into what was filed under the start before. -/
theorem solve_declared {problem : Problem} {limit : Option Nat} {solution : Solution}
    (h : problem.solve limit = .ok solution) :
    solution.state.declaredIntervalOf problem.start =
      ((problem.graph.lifetimes problem.name).valueOf problem.start).join
        (problem.joinOfWrites solution.state.general) := by
  obtain ⟨p, -, rfl⟩ := exists_settled_of_solve h
  have hpushes (values : List Interval) (state : FlowState) :
      (values.foldl (fun state value => (state.pushDeclaration problem.start value).1)
        state).declaredIntervalOf problem.start =
        values.foldl .join (state.declaredIntervalOf problem.start) := by
    induction values generalizing state with
    | nil => rfl
    | cons value rest ih =>
      rw [List.foldl_cons, List.foldl_cons, ih, FlowState.declaredIntervalOf_pushDeclaration]
  rw [joinOfWrites, Solver.solution_general, ← Interval.foldl_join_eq]
  exact hpushes _ _

end Problem

namespace Evaluation

theorem exists_solution_of_run {problem : Problem} {limit : Option Nat} {e : Evaluation}
    (h : run problem limit = .ok e) :
    ∃ solution, problem.solve limit = .ok solution ∧
      e = ⟨solution.state.intervalOf problem.target,
        solution.state.declaredIntervalOf problem.start, solution.visits⟩ := by
  simp only [run] at h
  split at h
  · split at h
    · obtain ⟨solution, hsolve, h⟩ := bind_eq_ok_iff.mp h
      cases h
      exact ⟨solution, hsolve, rfl⟩
    · cases h
  · cases h

/-- The reported lifetime joins the values at the writes of the tracked variable with the lifetime
that the start had before the run. It is that of the tracked variable and of nothing else unless the
start declares another integer variable. -/
theorem run_lifetime {problem : Problem} {limit : Option Nat} {e : Evaluation}
    (h : run problem limit = .ok e) :
    ∃ solution, problem.solve limit = .ok solution ∧
      e.lifetime = ((problem.graph.lifetimes problem.name).valueOf problem.start).join
        (problem.joinOfWrites solution.state.general) ∧
      (¬ problem.graph.DeclaresOther problem.name problem.start →
        e.lifetime = problem.joinOfWrites solution.state.general) := by
  obtain ⟨solution, hsolve, rfl⟩ := exists_solution_of_run h
  have hlifetime := Problem.solve_declared hsolve
  refine ⟨solution, hsolve, hlifetime, fun hstart => ?_⟩
  rw [hlifetime, Graph.valueOf_lifetimes hstart]
  rfl

/-- The counting loop starts at the declaration of its own variable, which runs from 0 to 3. -/
theorem counting_lifetime : ∃ e solution, run countingProblem (some 100) = .ok e ∧
    countingProblem.solve (some 100) = .ok solution ∧
    ¬ counting.DeclaresOther "x" 1 ∧ e.lifetime = .range 0 3 ∧
    countingProblem.joinOfWrites solution.state.general = .range 0 3 := by
  have hran : (run countingProblem (some 100)).toOption.any
      (fun e => e.lifetime = .range 0 3) = true := by
    decide +kernel
  obtain ⟨e, hrun, hlifetime⟩ := exists_ok_of_any hran
  have hown : ¬ counting.DeclaresOther "x" 1 := by
    rintro ⟨other, initializer, hkind, hother⟩
    cases hkind
    exact hother rfl
  obtain ⟨solution, hsolve, -, hjoin⟩ := run_lifetime hrun
  have hlifetime := of_decide_eq_true hlifetime
  exact ⟨e, solution, hrun, hsolve, hown, hlifetime, (hjoin hown).symm.trans hlifetime⟩

/-! ## A start that declares another variable

`int y = 5; x = 1; x`, where `x` has no declaration -/

def foreignStart : Graph where
  kinds := #[.literal (some 5), .declaration "y" "int" (some 0), .reference "x" "int" none,
    .literal (some 1), .assignment .assign 2 3, .reference "x" "int" none]
  edges := [⟨1, 4, none⟩, ⟨4, 5, none⟩]
  faultless := by decide +kernel

def foreignStartProblem : Problem := ⟨foreignStart, .integer, "x", 1, 5, .constant 0⟩

/-- The only write of `x` stores 1, but the lifetime of `y` enters the report. -/
theorem foreign_start_lifetime : ∃ e solution, run foreignStartProblem none = .ok e ∧
    foreignStartProblem.solve none = .ok solution ∧ e.lifetime = .range 1 5 ∧
    foreignStartProblem.joinOfWrites solution.state.general = .constant 1 := by
  have hran : (run foreignStartProblem none).toOption.any
      (fun e => e.lifetime = .range 1 5) = true := by
    decide +kernel
  have hsolved : (foreignStartProblem.solve none).toOption.any (fun solution =>
      foreignStartProblem.joinOfWrites solution.state.general = .constant 1) = true := by
    decide +kernel
  obtain ⟨e, hrun, hlifetime⟩ := exists_ok_of_any hran
  obtain ⟨solution, hsolve, hjoin⟩ := exists_ok_of_any hsolved
  exact ⟨e, solution, hrun, hsolve, of_decide_eq_true hlifetime, of_decide_eq_true hjoin⟩

end Evaluation

end IntervalFlow
