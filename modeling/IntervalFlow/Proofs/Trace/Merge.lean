import IntervalFlow.Proofs.Fixpoint.Occurrence
import IntervalFlow.Trace.Solver

/-!
# Merges that do not fail

A run reports only intervals that occur in it. Where the seed is well-formed so are these, and no
join or meet has to give up and answer with everything.
-/

namespace IntervalFlow

/-! ## Reported intervals -/

/-- The intervals of the event satisfy `P`, and a merge that it reports as failed does fail. -/
def Event.About (P : Interval → Prop) : Event → Prop
  | joinFailed a b => P a ∧ P b ∧ a.mergeFails b = true
  | meetFailed a b => P a ∧ P b ∧ a.mergeFails b = true
  | visited _ _ input output => P input ∧ P output
  | _ => True

/-- Only intervals that satisfy `P` are reported. -/
def Reports (P : Interval → Prop) (events : List Event) : Prop := ∀ event ∈ events, event.About P

namespace Reports

variable {P Q : Interval → Prop} {events more : List Event} {a b : Interval}

theorem nil : Reports P [] := by
  intro event hevent
  cases hevent

theorem append (h : Reports P events) (hmore : Reports P more) : Reports P (events ++ more) :=
  List.forall_mem_append.mpr ⟨h, hmore⟩

theorem cons {event : Event} (hevent : event.About P) (h : Reports P events) :
    Reports P (event :: events) :=
  List.forall_mem_cons.mpr ⟨hevent, h⟩

theorem mono (hPQ : ∀ value, P value → Q value) (h : Reports P events) : Reports Q events := by
  intro event hevent
  have habout := h event hevent
  cases event with
  | joinFailed a b => exact ⟨hPQ a habout.1, hPQ b habout.2.1, habout.2.2⟩
  | meetFailed a b => exact ⟨hPQ a habout.1, hPQ b habout.2.1, habout.2.2⟩
  | visited node status input output => exact ⟨hPQ input habout.1, hPQ output habout.2⟩
  | _ => trivial

theorem joinEvents (ha : P a) (hb : P b) : Reports P (a.joinEvents b) := by
  unfold Interval.joinEvents
  split
  · rename_i hfails
    exact cons ⟨ha, hb, hfails⟩ nil
  · exact nil

theorem restrictEvents (ha : P a) (hb : P b) : Reports P (a.restrictEvents b) := by
  unfold Interval.restrictEvents Interval.meetEvents
  split
  · rename_i hfails
    exact cons ⟨ha, hb, hfails⟩ nil
  · exact nil

/-- Joining values one after the other reports them and what was joined before. -/
theorem joinAllEvents {values : List Interval} {start : Interval}
    (hjoined : ∀ before, before <+: values → P (before.foldl .join start))
    (hvalues : ∀ value ∈ values, P value) : Reports P (start.joinAllEvents values) := by
  induction values generalizing start with
  | nil => exact nil
  | cons value rest ih =>
    rw [List.forall_mem_cons] at hvalues
    rw [Interval.joinAllEvents]
    refine append (joinEvents (hjoined [] List.nil_prefix) hvalues.1) (ih ?_ hvalues.2)
    intro before hbefore
    exact hjoined (value :: before) (List.cons_prefix_cons.mpr ⟨rfl, hbefore⟩)

/-- Well-formed intervals are merged without giving up. -/
theorem no_failed_merge (h : Reports P events) (hwf : ∀ value, P value → value.WellFormed)
    (a b : Interval) : .joinFailed a b ∉ events ∧ .meetFailed a b ∉ events := by
  have hmerges : ¬ (P a ∧ P b ∧ a.mergeFails b = true) := by
    rintro ⟨ha, hb, hfails⟩
    simp [Interval.mergeFails, hwf a ha, hwf b hb] at hfails
  exact ⟨fun hevent => hmerges (h _ hevent), fun hevent => hmerges (h _ hevent)⟩

end Reports

/-! ## Effects -/

namespace Context

variable (ctx : Context) (current : Interval) (node : NodeId)

theorem reports_integerEffectEvents :
    Reports (ctx.Computes current node) (ctx.integerEffectEvents current node) := by
  unfold integerEffectEvents
  split
  · split
    · exact .nil
    · rename_i loop _
      refine .append ?_ ?_
      · refine .joinAllEvents (fun _ hbefore => .entered hbefore) fun value hvalue => ?_
        obtain ⟨n, -, rfl⟩ := List.mem_map.mp hvalue
        exact .entrance n
      · split
        · rename_i summary hsummary
          exact .restrictEvents .current (.summary hsummary)
        · exact .nil
  · exact .nil

theorem reports_lengthOfEvents (e : NodeId) :
    Reports (ctx.Computes current node) (ctx.lengthOfEvents e) := by
  unfold lengthOfEvents
  split
  · split
    · rename_i value hvalue
      exact .restrictEvents (.dimension hvalue) .nonnegative
    · exact .nil
  · exact .nil

theorem reports_effectEvents (measure : Measure) :
    Reports (ctx.Computes current node) (measure.effectEvents ctx current node) := by
  cases measure with
  | integer => exact ctx.reports_integerEffectEvents current node
  | arrayLength =>
    rw [Measure.effectEvents, lengthEffectEvents]
    split
    · split
      · exact ctx.reports_lengthOfEvents current node _
      · exact .nil
    · split
      · exact ctx.reports_lengthOfEvents current node _
      · exact .nil
    · exact .nil

end Context

/-! ## Lifetimes -/

namespace Lifetime

variable {g : Graph} {ws : List Write} {P : Interval → Prop}
  (hknown : ∀ index rest lifetimes d, Passes g ws index rest lifetimes → P (lifetimes.valueOf d))
  (hcomputes : ∀ index w rest lifetimes value, Passes g ws index (w :: rest) lifetimes →
    Computes g index lifetimes w value → P value)

include hknown hcomputes

theorem reports_roundEvents {index : Nat} {rest : List Write} {lifetimes : Store NodeId}
    (h : Passes g ws index rest lifetimes) :
    Reports P (roundEvents g index lifetimes rest) := by
  induction rest generalizing lifetimes with
  | nil => exact .nil
  | cons w rest ih =>
    rw [roundEvents]
    refine .append (.append ?_ ?_) (ih (h.write false))
    · split
      · exact .nil
      · exact .cons trivial .nil
    · exact .joinEvents (hknown _ _ _ _ h) (hcomputes _ _ _ _ _ h .written)

theorem reports_settleEvents (fuel : Nat) {index : Nat} {lifetimes : Store NodeId}
    (h : Passes g ws index ws lifetimes) :
    Reports P (settleEvents g ws fuel index lifetimes) := by
  induction fuel generalizing index lifetimes with
  | zero => exact .nil
  | succ fuel ih =>
    rw [settleEvents]
    refine .append (reports_roundEvents hknown hcomputes h) ?_
    split
    · rename_i next hround
      have hnext := (h.round false).turn
      rw [← round, hround] at hnext
      exact ih hnext
    · exact .nil

end Lifetime

/-! ## Visits -/

namespace Solver

variable {s : Solver} {P : Interval → Prop} {general : Store NodeId} {node : NodeId}
  (hstored : ∀ n value, general.get? n = some value → P value)
  (hcomputes : ∀ value, s.Computes general node value → P value)

include hcomputes

theorem reports_transferEvents :
    Reports P (s.transferEvents general node (s.inputOf general node)) := by
  unfold transferEvents
  split
  · exact .nil
  · exact ((s.context general).reports_effectEvents _ node s.measure).mono fun value h =>
      hcomputes value (.effect h)

include hstored

theorem reports_flowEvents (source : NodeId) :
    Reports P (s.flowEvents general source node) := by
  unfold flowEvents
  split
  · split
    · rename_i output taken houtput _
      cases hmeasure : s.measure with
      | integer =>
        rw [Measure.branchEvents, Constraint.applyEvents.eq_def]
        split
        · rename_i range hrange
          exact .restrictEvents (hstored _ _ houtput) (hcomputes _ (.constraint hrange))
        · exact .nil
      | arrayLength => exact .nil
    · exact .nil
  · exact .nil

/-- The edges in `sources` are still to be looked at. -/
theorem reports_inputEvents {before sources : List NodeId}
    (h : before ++ sources = s.graph.prev node) :
    Reports P (s.inputEvents general node (before.foldl
      (fun input source => input.join (s.flowOf general source node)) (s.initialInput node))
      sources) := by
  induction sources generalizing before with
  | nil => exact .nil
  | cons source rest ih =>
    have hrest := @ih (before ++ [source]) (by rw [← h, List.append_assoc]; rfl)
    rw [List.foldl_append, List.foldl_cons, List.foldl_nil] at hrest
    rw [inputEvents]
    split
    · rename_i hflow
      rwa [← getD_flow?, hflow, Option.getD_none, Interval.join_bottom] at hrest
    · rename_i value hflow
      rw [← getD_flow?, hflow, Option.getD_some] at hrest
      refine .append (.append (reports_flowEvents hstored hcomputes source) ?_) hrest
      exact .joinEvents (hcomputes _ (.joined ⟨_, h⟩)) (hcomputes _ (.flow hflow))

theorem reports_stepEvents {status : Status} {output : Interval}
    (houtput : s.transfer general node (s.inputOf general node) = .ok output) :
    Reports P (stepEvents (general.get? node) status output) := by
  have hmerge (stored : Interval) (h : general.get? node = some stored) :
      Reports P (stored.joinEvents output) :=
    .joinEvents (hstored node stored h) (hcomputes output (.output houtput))
  unfold stepEvents
  split
  · exact hmerge _ ‹_›
  · split
    · exact .nil
    · exact hmerge _ ‹_›
  · exact .nil

theorem reports_visitEvents {p : Progress} (hp : p.general = general) :
    Reports P (s.visitEvents p node) := by
  subst hp
  unfold visitEvents
  refine .append (reports_inputEvents hstored hcomputes (List.nil_append _)) ?_
  split
  · exact .nil
  · refine .append (.append ?_ (reports_transferEvents hcomputes)) ?_
    · split
      · exact .cons trivial .nil
      · exact .nil
    · split
      · exact .nil
      · rename_i output houtput
        refine .cons ⟨hcomputes _ (.input ..), hcomputes _ (.output houtput)⟩ ?_
        exact reports_stepEvents hstored hcomputes houtput

end Solver

/-! ## Runs -/

namespace Problem

variable {problem : Problem} {p : Progress}

theorem reports_solutionEvents (hp : problem.solver.Reachable p) :
    Reports problem.Occurs (problem.solver.solutionEvents p) := by
  have hvalues (value : Interval) (hvalue : value ∈ problem.solver.writtenValues p) :
      problem.Occurs value := by
    obtain ⟨n, -, hn⟩ := List.mem_filterMap.mp hvalue
    exact .stored hp hn
  have hjoined (before : List Interval) (hbefore : before <+: problem.solver.writtenValues p) :
      problem.Occurs
        (before.foldl .join (problem.solver.lifetimes.valueOf problem.solver.start)) :=
    .filed hp hbefore
  unfold Solver.solutionEvents
  unfold Store.valueOf at hjoined
  generalize problem.solver.writtenValues p = values at hvalues hjoined ⊢
  cases hstart : problem.solver.lifetimes.get? problem.solver.start with
  | some lifetime =>
    rw [hstart] at hjoined
    exact .joinAllEvents hjoined hvalues
  | none =>
    rw [hstart] at hjoined
    cases values with
    | nil => exact .nil
    | cons value rest =>
      -- the first value is filed as it is, which is joining it to nothing
      refine .joinAllEvents (fun before hbefore => ?_) (List.forall_mem_cons.mp hvalues).2
      exact hjoined (value :: before) (List.cons_prefix_cons.mpr ⟨rfl, hbefore⟩)

theorem reports_settled {earlier : Array Event} (h : Reports problem.Occurs earlier.toList)
    (hp : problem.solver.Reachable p) :
    Reports problem.Occurs (earlier.push (.settled problem.name p.visits) ++
      problem.solver.solutionEvents p).toList := by
  have hend : Reports problem.Occurs
      (.settled problem.name p.visits :: problem.solver.solutionEvents p) :=
    .cons trivial (reports_solutionEvents hp)
  simpa using h.append hend

theorem reports_iterateEvents {earlier : Array Event} (hp : problem.solver.Reachable p)
    (h : Reports problem.Occurs earlier.toList) (visits : Nat) :
    Reports problem.Occurs (problem.solver.iterateEvents earlier visits p).toList := by
  induction visits generalizing earlier p with
  | zero =>
    rw [Solver.iterateEvents]
    split
    · exact reports_settled h hp
    · exact h
  | succ visits ih =>
    rw [Solver.iterateEvents]
    split
    · exact reports_settled h hp
    · rename_i node queue hpop
      have hvisit : Reports problem.Occurs
          (problem.solver.visitEvents { p with queue, visits := p.visits + 1 } node) :=
        Solver.reports_visitEvents (fun _ _ hvalue => .stored hp hvalue)
          (fun _ hvalue => .visit hp hpop hvalue) rfl
      have hevents := h.append hvisit
      rw [← Array.toList_appendList] at hevents
      simp only
      split
      · rename_i next hnext
        exact ih (hp.visit ⟨queue, hpop, hnext⟩) hevents
      · exact hevents

/-- A run reports only intervals that occur in it. -/
theorem reports_solveEvents (problem : Problem) (limit : Option Nat) :
    Reports problem.Occurs (problem.solveEvents limit) := by
  refine reports_iterateEvents (.initial _) ?_ (permittedVisits limit)
  exact Lifetime.reports_settleEvents (fun _ _ _ d hpasses => .lifetime d hpasses)
    (fun _ _ _ _ _ hpasses hvalue => .write hpasses hvalue) _ .start

/-- From a well-formed seed, whatever the limit and however the run ends, every interval that occurs
is well-formed, the intervals that are reported and the tables of a solution among them. So no join
and no meet ever gives up. -/
theorem solve_merges {problem : Problem} (hseed : problem.seed.WellFormed) (limit : Option Nat) :
    (∀ value, problem.Occurs value → value.WellFormed) ∧
    Reports problem.Occurs (problem.solveEvents limit) ∧
    (∀ solution, problem.solve limit = .ok solution →
      solution.state.general.WellFormed ∧ solution.state.declarations.WellFormed) ∧
    ∀ a b, .joinFailed a b ∉ problem.solveEvents limit ∧
      .meetFailed a b ∉ problem.solveEvents limit := by
  have hwf (value : Interval) (h : problem.Occurs value) : value.WellFormed := h.wellFormed hseed
  have hreports := problem.reports_solveEvents limit
  exact ⟨hwf, hreports, fun _ hsolve => wellFormed_of_solve hseed hsolve,
    hreports.no_failed_merge hwf⟩

/-- The counting loop is widened on the way, and its run reports no failed merge. -/
theorem counting_merges : countingProblem.seed.WellFormed ∧
    countingProblem.Occurs (.atLeast 0) ∧ (Interval.atLeast 0).WellFormed ∧
    ∀ a b, .joinFailed a b ∉ countingProblem.solveEvents (some 100) ∧
      .meetFailed a b ∉ countingProblem.solveEvents (some 100) := by
  have hseed : countingProblem.seed.WellFormed := by decide
  have hvisited : .visited 4 .widening (.atLeast 0) (.atLeast 0) ∈
      countingProblem.solveEvents (some 100) := by
    decide +kernel
  obtain ⟨hwf, hreports, -, hquiet⟩ := solve_merges hseed (some 100)
  have hoccurs : countingProblem.Occurs (.atLeast 0) := (hreports _ hvisited).1
  exact ⟨hseed, hoccurs, hwf _ hoccurs, hquiet⟩

/-- A malformed seed is noticed at the first branch. -/
example : .meetFailed (.bounded (.fin 3) (.fin 1)) (.atMost 2) ∈ solveEvents
    { countingProblem with start := 5, seed := .bounded (.fin 3) (.fin 1) } (some 100) := by
  decide +kernel

end Problem

end IntervalFlow
