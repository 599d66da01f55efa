import IntervalFlow.Proofs.Fixpoint.PostFixpoint

/-!
# Occurring intervals

The intervals that come up while a problem is solved, whether they are stored or only computed on
the way: when lifetimes grow write by write, when nodes are visited, and when the lifetime of the
tracked variable is put together. If the seed is well-formed, all of them are.
-/

namespace IntervalFlow

theorem Interval.wellFormed_foldl_join {values : List Interval} {start : Interval}
    (hstart : start.WellFormed) (h : ∀ value ∈ values, value.WellFormed) :
    (values.foldl join start).WellFormed :=
  List.foldlRecOn _ _ hstart fun _ hjoined value hvalue => wellFormed_join hjoined (h value hvalue)

/-! ## Effects -/

namespace Context

theorem wellFormed_branchConstraint {ctx : Context} {branching : NodeId} {taken : Bool}
    {range : Interval} (h : ctx.branchConstraint branching taken = .within range) :
    range.WellFormed := by
  unfold branchConstraint at h
  split at h
  · cases h
  · unfold constraint at h
    split at h
    · cases h
    · split at h
      · exact Constraint.wellFormed_ofComparison h
      · split at h
        · exact Constraint.wellFormed_ofComparison h
        · cases h

/-- The intervals that come up when the effect of a node is computed, where the tracked variable
holds `current` before it. -/
inductive Computes (ctx : Context) (current : Interval) (node : NodeId) : Interval → Prop
  | current : Computes ctx current node current
  | constant (v : Int64) : Computes ctx current node (.constant v)
  /-- Lengths are cut off below zero. -/
  | nonnegative : Computes ctx current node (.atLeast 0)
  /-- An expression or a part of one. -/
  | evaluated {depth : Nat} {e : NodeId} {value : Interval} :
    ctx.evaluateWithin current depth e = .ok value → Computes ctx current node value
  /-- The dimension of an array or a part of it. -/
  | dimension {depth : Nat} {e : NodeId} {value : Interval} :
    ctx.evaluateWithin .top depth e = .ok value → Computes ctx current node value
  /-- A value with which a counted loop is entered. -/
  | entrance (n : NodeId) : Computes ctx current node (ctx.general.valueOf n)
  /-- Some of the values with which a counted loop is entered, joined. -/
  | entered {loop : CountedLoop} {values : List Interval} :
    values <+: loop.entrances.map ctx.general.valueOf →
    Computes ctx current node (values.foldl .join .bottom)
  /-- The growth of a counted loop. -/
  | growth (total : Int64) : Computes ctx current node (.range 0 total)
  | summary {loop : CountedLoop} {value : Interval} :
    loop.summary? ctx.general = .ok (some value) → Computes ctx current node value
  | effect {measure : Measure} {value : Interval} :
    measure.effect ctx current node = .ok value → Computes ctx current node value

theorem Computes.wellFormed {ctx : Context} {current value : Interval} {node : NodeId}
    (hgeneral : ctx.general.WellFormed) (hdecls : ctx.declarations.WellFormed)
    (hcurrent : current.WellFormed) (h : ctx.Computes current node value) : value.WellFormed := by
  cases h with
  | current => exact hcurrent
  | constant v => exact Interval.wellFormed_constant v
  | nonnegative => exact Interval.wellFormed_atLeast 0
  | evaluated h => exact wellFormed_evaluateWithin hdecls hcurrent h
  | dimension h => exact wellFormed_evaluateWithin hdecls Interval.wellFormed_top h
  | entrance n => exact hgeneral.valueOf n
  | entered hfront =>
    refine Interval.wellFormed_foldl_join Interval.wellFormed_bottom fun value hvalue => ?_
    obtain ⟨n, -, rfl⟩ := List.mem_map.mp (hfront.subset hvalue)
    exact hgeneral.valueOf n
  | growth total => exact Interval.wellFormed_between _ _
  | summary h => exact CountedLoop.wellFormed_summary hgeneral h
  | effect h => exact Measure.wellFormed_effect hdecls hcurrent h

end Context

/-! ## Lifetimes -/

namespace Lifetime

/-- The tables of lifetimes between writes, with the index of the round and the writes that are
left in it. -/
inductive Passes (g : Graph) (ws : List Write) : Nat → List Write → Store NodeId → Prop
  | start : Passes g ws 0 ws .empty
  | write {index : Nat} {w : Write} {rest : List Write} {lifetimes : Store NodeId}
    (changed : Bool) : Passes g ws index (w :: rest) lifetimes →
    Passes g ws index rest (step g index (lifetimes, changed) w).1
  | turn {index : Nat} {lifetimes : Store NodeId} :
    Passes g ws index [] lifetimes → Passes g ws (index + 1) ws lifetimes

/-- The intervals that a write computes from the lifetimes known so far. -/
inductive Computes (g : Graph) (index : Nat) (lifetimes : Store NodeId) (w : Write) :
    Interval → Prop
  | effect {value : Interval} :
    (Context.mk g w.name .empty lifetimes).Computes (lifetimes.valueOf w.declaration) w.node value →
    Computes g index lifetimes w value
  | written : Computes g index lifetimes w (written g lifetimes w)
  | joined : Computes g index lifetimes w
      ((lifetimes.valueOf w.declaration).join (Lifetime.written g lifetimes w))
  | grown : Computes g index lifetimes w (grown g index lifetimes w)

variable {g : Graph} {ws : List Write} {index : Nat} {lifetimes : Store NodeId}

theorem Passes.wellFormed {rest : List Write} (h : Passes g ws index rest lifetimes) :
    lifetimes.WellFormed := by
  induction h with
  | start => exact .empty
  | write changed _ ih => exact wellFormed_step ih _ changed _
  | turn _ ih => exact ih

/-- A round ends with no writes left. -/
theorem Passes.round {rest : List Write} (h : Passes g ws index rest lifetimes) (changed : Bool) :
    Passes g ws index [] (rest.foldl (step g index) (lifetimes, changed)).1 := by
  induction rest generalizing lifetimes changed with
  | nil => exact h
  | cons w rest ih => exact ih (h.write changed) (step g index (lifetimes, changed) w).2

theorem Computes.wellFormed {w : Write} {value : Interval} (hlifetimes : lifetimes.WellFormed)
    (h : Computes g index lifetimes w value) : value.WellFormed := by
  have hwritten : (Lifetime.written g lifetimes w).WellFormed := wellFormed_written hlifetimes w
  cases h with
  | effect h => exact h.wellFormed .empty hlifetimes (hlifetimes.valueOf _)
  | written => exact hwritten
  | joined => exact Interval.wellFormed_join (hlifetimes.valueOf _) hwritten
  | grown => exact wellFormed_grown hlifetimes index w

end Lifetime

/-! ## Visits -/

namespace Solver

/-- The intervals that a visit of a node computes from what is stored. -/
inductive Computes (s : Solver) (general : Store NodeId) (node : NodeId) : Interval → Prop
  /-- What the outcome of a branch restricts the variable to. -/
  | constraint {source : NodeId} {taken : Bool} {range : Interval} :
    (s.context general).branchConstraint source taken = .within range →
    Computes s general node range
  | flow {source : NodeId} {value : Interval} :
    s.flow? general source node = some value → Computes s general node value
  /-- What flows in along some of the edges, joined. -/
  | joined {sources : List NodeId} : sources <+: s.graph.prev node →
    Computes s general node (sources.foldl
      (fun input source => input.join (s.flowOf general source node)) (s.initialInput node))
  | effect {value : Interval} :
    (s.context general).Computes (s.inputOf general node) node value →
    Computes s general node value
  | output {output : Interval} :
    s.transfer general node (s.inputOf general node) = .ok output → Computes s general node output
  | merged {stored output : Interval} : general.get? node = some stored →
    s.transfer general node (s.inputOf general node) = .ok output →
    Computes s general node (stored.join output)
  | widened {stored output : Interval} : general.get? node = some stored →
    s.transfer general node (s.inputOf general node) = .ok output →
    Computes s general node (stored.widen (stored.join output))
  | narrowed {stored output : Interval} : general.get? node = some stored →
    s.transfer general node (s.inputOf general node) = .ok output →
    Computes s general node (stored.narrow output)

variable {s : Solver}

theorem Computes.input (s : Solver) (general : Store NodeId) (node : NodeId) :
    s.Computes general node (s.inputOf general node) := by
  rw [inputOf_eq_foldl]
  exact .joined (List.prefix_refl _)

theorem Computes.wellFormed (hs : s.WellFormed) {general : Store NodeId}
    (hgeneral : general.WellFormed) {node : NodeId} {value : Interval}
    (h : s.Computes general node value) : value.WellFormed := by
  have hinput := hs.inputOf hgeneral node
  cases h with
  | constraint h => exact Context.wellFormed_branchConstraint h
  | @flow source value h =>
    have hflow := s.wellFormed_flowOf hgeneral source node
    rwa [← getD_flow?, h] at hflow
  | joined _ =>
    exact List.foldlRecOn _ _ (hs.initialInput node) fun _ hjoined source _ =>
      Interval.wellFormed_join hjoined (s.wellFormed_flowOf hgeneral source node)
  | effect h => exact h.wellFormed hgeneral hs.lifetimes hinput
  | output h => exact hs.transfer hinput h
  | merged hstored h =>
    exact Interval.wellFormed_join (hgeneral _ _ hstored) (hs.transfer hinput h)
  | widened hstored h =>
    have hstored := hgeneral _ _ hstored
    exact Interval.wellFormed_widen hstored
      (Interval.wellFormed_join hstored (hs.transfer hinput h))
  | narrowed _ _ => exact Interval.wellFormed_narrow _ _

/-- The inputs recorded at the visits are well-formed. -/
theorem Reachable.incoming (hs : s.WellFormed) {p : Progress} (h : s.Reachable p) :
    Store.WellFormed p.incoming := by
  refine Reachable.induction (motive := fun p => Store.WellFormed p.incoming) .empty
    (fun p node q hp hincoming hvisits => ?_) h
  obtain ⟨queue, hpop, hvisit⟩ := hvisits
  intro n value hvalue
  rw [visit_records hvisit] at hvalue
  split at hvalue
  · cases hvalue
    exact hs.inputOf (hp.computed hs).wellFormed node
  · exact hincoming n value hvalue

end Solver

/-! ## Runs -/

theorem Store.WellFormed.push {κ : Type} [DecidableEq κ] {s : Store κ} (h : s.WellFormed) (key : κ)
    {value : Interval} (hvalue : value.WellFormed) : (s.push key value).1.WellFormed := by
  unfold Store.push
  split
  · exact h.set key hvalue
  · rename_i old hold
    exact h.set key (Interval.wellFormed_join (h key old hold) hvalue)

namespace Problem

/-- The intervals that come up when the problem is solved. -/
inductive Occurs (problem : Problem) : Interval → Prop
  | seed : Occurs problem problem.seed
  /-- A lifetime known between two writes. -/
  | lifetime {index : Nat} {rest : List Write} {lifetimes : Store NodeId} (d : NodeId) :
    Lifetime.Passes problem.graph (Lifetime.writes problem.graph problem.name) index rest
      lifetimes →
    Occurs problem (lifetimes.valueOf d)
  | write {index : Nat} {w : Write} {rest : List Write} {lifetimes : Store NodeId}
    {value : Interval} :
    Lifetime.Passes problem.graph (Lifetime.writes problem.graph problem.name) index (w :: rest)
      lifetimes →
    Lifetime.Computes problem.graph index lifetimes w value → Occurs problem value
  /-- A value stored between two visits. -/
  | stored {p : Progress} {n : NodeId} {value : Interval} : problem.solver.Reachable p →
    p.general.get? n = some value → Occurs problem value
  /-- An input recorded for later visits. -/
  | recorded {p : Progress} {n : NodeId} {value : Interval} : problem.solver.Reachable p →
    p.incoming.get? n = some value → Occurs problem value
  | visit {p : Progress} {node : NodeId} {queue : Queue} {value : Interval} :
    problem.solver.Reachable p → p.queue.pop? = some (node, queue) →
    problem.solver.Computes p.general node value → Occurs problem value
  /-- Some of the values that the tracked variable is given, joined to what is filed under the
  start. -/
  | filed {p : Progress} {values : List Interval} : problem.solver.Reachable p →
    values <+: problem.solver.writtenValues p →
    Occurs problem
      (values.foldl .join ((problem.graph.lifetimes problem.name).valueOf problem.start))

theorem Occurs.wellFormed {problem : Problem} (hseed : problem.seed.WellFormed) {value : Interval}
    (h : problem.Occurs value) : value.WellFormed := by
  have hs := solver_wellFormed hseed
  cases h with
  | seed => exact hseed
  | lifetime d hpasses => exact hpasses.wellFormed.valueOf d
  | write hpasses h => exact h.wellFormed hpasses.wellFormed
  | stored hp hvalue => exact (hp.computed hs).wellFormed _ _ hvalue
  | recorded hp hvalue => exact hp.incoming hs _ _ hvalue
  | visit hp _ h => exact h.wellFormed hs (hp.computed hs).wellFormed
  | filed hp hfront =>
    refine Interval.wellFormed_foldl_join (hs.lifetimes.valueOf _) fun value hvalue => ?_
    obtain ⟨n, -, hn⟩ := List.mem_filterMap.mp (hfront.subset hvalue)
    exact (hp.computed hs).wellFormed n value hn

theorem wellFormed_of_solve {problem : Problem} (hseed : problem.seed.WellFormed)
    {limit : Option Nat} {solution : Solution} (h : problem.solve limit = .ok solution) :
    solution.state.general.WellFormed ∧ solution.state.declarations.WellFormed := by
  obtain ⟨p, hsettled, rfl⟩ := exists_settled_of_solve h
  have hs := solver_wellFormed hseed
  have hgeneral := (Solver.computed_of_settled hs hsettled).wellFormed
  refine ⟨problem.solver.solution_general p ▸ hgeneral, ?_⟩
  refine List.foldlRecOn (motive := fun state : FlowState => state.declarations.WellFormed)
    (problem.solver.writtenValues p) _ hs.lifetimes fun state hstate value hvalue => ?_
  obtain ⟨n, -, hn⟩ := List.mem_filterMap.mp hvalue
  exact hstate.push problem.start (hgeneral n value hn)

end Problem

end IntervalFlow
