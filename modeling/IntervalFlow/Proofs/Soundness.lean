import IntervalFlow.Proofs.Evaluation
import Mathlib.Tactic.IntervalCases

/-!
# Soundness

On a graph without `for` and `for`-each loops, whatever a run leaves in a variable at a reference to
it is a member of the interval that the reference is evaluated to. Along a run the tracked variable
is a member of what is stored at the last node performed: the step to the next node goes through the
flow along the edge, the input of the node and its effect, and the stored values form a
post-fixpoint.
-/

namespace IntervalFlow

namespace Solver

/-! ## Inputs -/

/-- What flows along an edge is part of the input. -/
theorem mem_inputOf {s : Solver} {general : Store NodeId} {source node : NodeId} {value : Interval}
    {v : Int64} (hsource : source ∈ s.graph.prev node)
    (hflow : s.flow? general source node = some value) (hv : v ∈ value) :
    v ∈ s.inputOf general node := by
  apply Interval.mem_foldl ?_ ?_ hsource
  · intro input n hinput
    split
    · exact Interval.mem_join_left _ hinput
    · exact hinput
  · intro input
    rw [hflow]
    exact Interval.mem_join_right _ hv

/-- The tracked variable takes its value along an edge that is followed. -/
theorem mem_flow? {s : Solver} (hg : s.graph.WellNamed) (hinteger : s.measure = .integer)
    {general : Store NodeId} {a b : NodeId} {m : Memory} {value : Interval} {v : Int64}
    (hprop : s.propagates a = true) (hvalue : general.get? a = some value)
    (hagrees : Agrees (s.context general) s.start value m) (hm : m s.start = some v)
    (hfollows : Follows s.graph m a b) :
    ∃ flow, s.flow? general a b = some flow ∧ v ∈ flow := by
  unfold flow?
  rw [if_pos hprop, hvalue, Option.map_some]
  refine ⟨_, rfl, ?_⟩
  split
  · rename_i taken htaken
    rw [hinteger]
    exact hagrees.mem_branch hg hm fun condition hcondition =>
      hfollows.2 taken condition htaken hcondition
  · exact hagrees.tracked v hm

/-! ## One node -/

/-- Performing a node leaves the tracked variable within the output of the node. Unless the node is
the start, the variable has a value before. -/
theorem mem_transfer {s : Solver} (hg : s.graph.WellNamed) (hinteger : s.measure = .integer)
    {general : Store NodeId} {n : NodeId} {m m' : Memory} {input output : Interval} {v : Int64}
    (hfor : ¬ s.graph.ForHead n) (hforEach : ¬ s.graph.ForEachHead n)
    (hagrees : Agrees (s.context general) s.start input m)
    (hentered : n = s.start ∨ ∃ v, m s.start = some v) (hperform : Performs s.graph m n m')
    (houtput : s.transfer general n input = .ok output) (hv : m' s.start = some v) :
    v ∈ output := by
  unfold transfer at houtput
  split at houtput
  · rename_i hbottom
    rcases hentered with hstart | ⟨w, hw⟩
    · exact absurd hstart hbottom.1
    · have hmem := hagrees.tracked w hw
      rw [hbottom.2] at hmem
      exact absurd hmem (Interval.not_mem_bottom w)
  · rw [hinteger] at houtput
    exact hagrees.mem_integerEffect hg hfor hforEach hperform houtput hv

end Solver

/-! ## Runs -/

/-- An integer problem that starts at the declaration of its variable, on a graph whose references
are resolved and which has no `for` and no `for`-each loops. -/
structure Problem.Plain (problem : Problem) : Prop where
  named : problem.graph.WellNamed
  loops : ∀ n, ¬ problem.graph.ForHead n ∧ ¬ problem.graph.ForEachHead n
  integer : problem.measure = .integer
  declared : ∃ type initializer,
    problem.graph.kind? problem.start = some (.declaration problem.name type initializer)

/-- What is true of the memory after a reached node: the tracked variable is a member of what is
stored at the node, and the others are members of their lifetimes. -/
structure Problem.Holds (problem : Problem) (general : Store NodeId) (n : NodeId) (m : Memory) :
    Prop where
  reaches : problem.solver.Reaches n
  covered : Lifetime.Covered problem.graph problem.name m
  stored : ∃ v value, m problem.start = some v ∧ general.get? n = some value ∧ v ∈ value

namespace Problem

variable {problem : Problem}

theorem Plain.agrees (h : problem.Plain) {general : Store NodeId} {m : Memory} {current : Interval}
    (hcovered : Lifetime.Covered problem.graph problem.name m)
    (htracked : ∀ v, m problem.start = some v → v ∈ current) :
    Agrees (problem.solver.context general) problem.solver.start current m :=
  ⟨h.declared, htracked, fun _ _ _ => hcovered.mem⟩

/-- One step of a run: performing a reached node whose input covers the tracked variable. -/
theorem Plain.perform (h : problem.Plain) {p : Progress}
    (hcomputed : problem.solver.Computed (fun _ => False) p) {n : NodeId} {m m' : Memory}
    (hreaches : problem.solver.Reaches n)
    (hcovered : Lifetime.Covered problem.graph problem.name m)
    (hinput : ∀ v, m problem.start = some v → v ∈ problem.solver.inputOf p.general n)
    (hentered : n = problem.start ∨ ∃ v, m problem.start = some v)
    (hperform : Performs problem.graph m n m') : problem.Holds p.general n m' := by
  have hplain : ¬ problem.solver.Summarized n := fun hsum => (h.loops n).1 hsum.2
  obtain ⟨output, value, houtput, hvalue, hwithin⟩ := hcomputed.recompute hreaches hplain
  obtain ⟨v, hv⟩ : ∃ v, m' problem.start = some v := by
    rcases hentered with rfl | ⟨w, hw⟩
    · obtain ⟨type, initializer, hkind⟩ := h.declared
      exact hperform.declared hkind
    · exact hperform.keeps hw
  have hmem : v ∈ output := Solver.mem_transfer h.named h.integer (h.loops n).1 (h.loops n).2
    (h.agrees hcovered hinput) hentered hperform houtput hv
  exact ⟨hreaches, hcovered.perform h.named hperform,
    v, value, hv, hvalue, Interval.mem_of_isWithin hwithin hmem⟩

/-- A whole run: as long as it can go on to the target, the tracked variable is a member of what is
stored. Past a target on no cycle nothing would be known. -/
theorem Plain.holds (h : problem.Plain) {p : Progress}
    (hcomputed : problem.solver.Computed (fun _ => False) p) {m₀ m : Memory} {n : NodeId}
    (hm₀ : Arises problem.graph m₀) (hfresh : m₀ problem.start = none)
    (hrun : Executes problem.graph problem.start m₀ n m)
    (hpath : problem.graph.Path n problem.target) : problem.Holds p.general n m := by
  induction hrun with
  | begin hperform =>
    apply h.perform hcomputed .refl (hm₀.covered h.named problem.name) ?_ (.inl rfl) hperform
    -- before its declaration the variable has no value that an input could miss
    intro v hv
    rw [hfresh] at hv
    cases hv
  | @next a b m m' _ hfollows hperform ih =>
    -- a target that is left on the way to the target lies on a cycle
    have hprop : problem.solver.propagates a = true := by
      rw [propagates_iff]
      intro ⟨htarget, hacyclic⟩
      rw [← htarget] at hpath hacyclic
      exact hacyclic (.head' hfollows.1 hpath)
    obtain ⟨hreaches, hcovered, v, value, hv, hvalue, hmem⟩ := ih (.head hfollows.1 hpath)
    have htracked (w : Int64) (hw : m problem.start = some w) : w = v := by
      rw [hv] at hw
      cases hw
      rfl
    obtain ⟨flow, hflow, hvflow⟩ := Solver.mem_flow? h.named h.integer hprop hvalue
      (h.agrees hcovered fun w hw => htracked w hw ▸ hmem) hv hfollows
    apply h.perform hcomputed (hreaches.tail ⟨hprop, hfollows.1⟩) hcovered ?_ (.inr ⟨v, hv⟩)
      hperform
    intro w hw
    rw [htracked w hw]
    exact Solver.mem_inputOf (Draft.mem_prev.mpr hfollows.1) hflow hvflow

end Problem

/-! ## Evaluations -/

namespace Evaluation

theorem run_eq_ok {problem : Problem} {limit : Option Nat} {e : Evaluation}
    (h : run problem limit = .ok e) :
    ∃ solution, problem.solve limit = .ok solution ∧
      e.value = solution.state.intervalOf problem.target := by
  obtain ⟨solution, hsolve, rfl⟩ := exists_solution_of_run h
  exact ⟨solution, hsolve, rfl⟩

/-- A resolved reference to an integer poses the problem of its variable, with nothing known of it
before the declaration. -/
theorem inspect_eq_run {g : Graph} {target start : NodeId} {name : String}
    (hkind : g.kind? target = some (.reference name "int" (some start))) (limit : Option Nat) :
    inspect g limit target = run ⟨g, .integer, name, start, target, .bottom⟩ limit := by
  unfold inspect request
  rw [hkind]
  rfl

/-- Every run from the declaration of a variable to a reference leaves the variable with a member of
the interval that the reference is evaluated to. -/
theorem inspect_sound {g : Graph} (hg : g.WellNamed)
    (hloops : ∀ n, ¬ g.ForHead n ∧ ¬ g.ForEachHead n) {target start : NodeId} {name : String}
    (hkind : g.kind? target = some (.reference name "int" (some start))) {limit : Option Nat}
    {e : Evaluation} (he : inspect g limit target = .ok e) {m₀ m : Memory} (hm₀ : Arises g m₀)
    (hfresh : m₀ start = none) (hrun : Executes g start m₀ target m) :
    ∃ v, m start = some v ∧ v ∈ e.value := by
  rw [inspect_eq_run hkind] at he
  obtain ⟨solution, hsolve, hvalue⟩ := run_eq_ok he
  obtain ⟨p, hsettled, hgeneral⟩ := Problem.solve_eq_ok hsolve
  have hseed : Interval.bottom.WellFormed := trivial
  have hcomputed := Solver.computed_of_settled (Problem.solver_wellFormed hseed) hsettled
  have hdeclared : ∃ type initializer,
      g.kind? start = some (.declaration name type initializer) := by
    obtain ⟨d, type, initializer, hd, hdeclaration⟩ := hg.resolved _ _ _ _ hkind
    cases hd
    exact ⟨type, initializer, hdeclaration⟩
  have hplain : Problem.Plain ⟨g, .integer, name, start, target, .bottom⟩ :=
    ⟨hg, hloops, rfl, hdeclared⟩
  obtain ⟨v, value, hv, hstored, hmem⟩ := (hplain.holds hcomputed hm₀ hfresh hrun .refl).stored
  refine ⟨v, hv, ?_⟩
  rw [hvalue, FlowState.intervalOf, hgeneral, Store.valueOf, hstored]
  exact hmem

theorem counting_kind?_lt {n : NodeId} {kind : NodeKind} (h : counting.kind? n = some kind) :
    n < 8 :=
  (Array.getElem?_eq_some_iff.mp h).1

theorem counting_wellNamed : counting.WellNamed where
  resolved := by
    intro e name type declaration h
    have he := counting_kind?_lt h
    interval_cases e <;> cases h <;> exact ⟨1, _, _, rfl, rfl⟩
  unique := by
    have hone {n : NodeId} {name type : String} {initializer : Option NodeId}
        (h : counting.kind? n = some (.declaration name type initializer)) : n = 1 := by
      have hn := counting_kind?_lt h
      interval_cases n <;> cases h
      rfl
    intro a b name type type' initializer initializer' ha hb
    rw [hone ha, hone hb]

theorem counting_loops (n : NodeId) : ¬ counting.ForHead n ∧ ¬ counting.ForEachHead n := by
  constructor
  · rintro ⟨initializer, condition, iteration, h⟩
    have hn := counting_kind?_lt h
    interval_cases n <;> cases h
  · rintro ⟨element, collection, h⟩
    have hn := counting_kind?_lt h
    interval_cases n <;> cases h

/-- Once more around the counting loop. -/
theorem counting_iteration {m₀ m : Memory} {v w : Int64} (h : Executes counting 1 m₀ 5 m)
    (hm : m 1 = some v) (hless : BinaryOp.lt.value? v 3 = some 1) (hw : w.toInt = v.toInt + 1) :
    Executes counting 1 m₀ 5 (Function.update m 1 (some w)) := by
  have hcondition : Evaluates counting m 4 1 := .binary rfl (.read rfl hm) (.literal rfl) hless
  have hbody : Executes counting 1 m₀ 6 (Function.update m 1 (some w)) :=
    .next h (.of_outcome (by decide) rfl rfl hcondition (by decide)) (.increment rfl rfl hm hw)
  have htest := hbody.next (.unconditional (by decide) rfl) (.skip (n := 4) rfl)
  exact htest.next (.unconditional (by decide) rfl) (.skip rfl)

theorem counting_exit {m₀ m : Memory} {v : Int64} (h : Executes counting 1 m₀ 5 m)
    (hm : m 1 = some v) (hless : BinaryOp.lt.value? v 3 = some 0) : Executes counting 1 m₀ 7 m := by
  have hcondition : Evaluates counting m 4 0 := .binary rfl (.read rfl hm) (.literal rfl) hless
  exact h.next (.of_outcome (by decide) rfl rfl hcondition (by decide)) (.skip rfl)

/-- The counting loop is left with three, which is a member of the interval found for it. -/
theorem counting_sound : ∃ m e, Executes counting 1 (fun _ => none) 7 m ∧ m 1 = some 3 ∧
    inspect counting (some 100) 7 = .ok e ∧ (3 : Int64) ∈ e.value := by
  have henter : Executes counting 1 (fun _ => none) 5
      (Function.update (fun _ => none) 1 (some 0)) := by
    have hdeclare : Executes counting 1 (fun _ => none) 1 _ := .begin (.define rfl (.literal rfl))
    have htest := hdeclare.next (.unconditional (by decide) rfl) (.skip (n := 4) rfl)
    exact htest.next (.unconditional (by decide) rfl) (.skip rfl)
  have hone := counting_iteration (w := 1) henter (Function.update_self ..) (by decide) (by decide)
  have htwo := counting_iteration (w := 2) hone (Function.update_self ..) (by decide) (by decide)
  have hthree := counting_iteration (w := 3) htwo (Function.update_self ..) (by decide) (by decide)
  have hleave := counting_exit hthree (Function.update_self ..) (by decide)
  have hinspect : (inspect counting (some 100) 7).toOption.any (fun _ => true) = true := by
    decide +kernel
  obtain ⟨e, he, -⟩ := exists_ok_of_any hinspect
  obtain ⟨v, hv, hmem⟩ := inspect_sound counting_wellNamed counting_loops rfl he .empty rfl hleave
  rw [Function.update_self] at hv
  cases hv
  exact ⟨_, e, hleave, Function.update_self .., he, hmem⟩

end Evaluation

end IntervalFlow
