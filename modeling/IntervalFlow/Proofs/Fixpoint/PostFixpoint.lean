import IntervalFlow.Proofs.Effect.WellFormed
import IntervalFlow.Proofs.Fixpoint.StateMachine
import IntervalFlow.Proofs.Graph.Path

/-!
# Post-fixpoints

When no node is left to visit, recomputing any node gives nothing new: the output lies within what is
stored. The invariant behind it relates what is stored to what was recorded at the last visit: the
output for the recorded input is covered (`Computed.covered`), and the record is out of date only
for nodes that wait (`Computed.current`).
-/

namespace IntervalFlow

/-! ## What inputs and outputs depend on -/

namespace Context

theorem evaluateWithin_general (ctx : Context) (general : Store NodeId) (current : Interval)
    (depth : Nat) (e : NodeId) :
    { ctx with general }.evaluateWithin current depth e = ctx.evaluateWithin current depth e := by
  induction depth generalizing e with
  | zero => rfl
  | succ depth ih =>
    simp only [evaluateWithin, ih]
    rfl

theorem integerEffect_general {ctx : Context} {node : NodeId} (h : ¬ ctx.graph.ForHead node)
    (general : Store NodeId) (current : Interval) :
    { ctx with general }.integerEffect current node = ctx.integerEffect current node := by
  cases hkind : ctx.graph.kind? node with
  | none => simp only [integerEffect, hkind]
  | some kind =>
    cases kind with
    | forLoop initializer condition iteration => exact absurd ⟨_, _, _, hkind⟩ h
    | unary op input => cases op <;> simp only [integerEffect, hkind] <;> rfl
    | assignment op lhs rhs =>
      simp only [integerEffect, hkind, evaluate, evaluateWithin_general]
      rfl
    | _ => simp only [integerEffect, hkind, evaluate, evaluateWithin_general]

theorem lengthEffect_general (ctx : Context) (node : NodeId) (general : Store NodeId)
    (current : Interval) :
    { ctx with general }.lengthEffect current node = ctx.lengthEffect current node := by
  simp only [lengthEffect, lengthOf, evaluate, evaluateWithin_general]
  rfl

end Context

theorem Measure.branch_bottom (measure : Measure) (ctx : Context) (branching : NodeId)
    (taken : Bool) : measure.branch ctx .bottom branching taken = .bottom := by
  cases measure with
  | integer =>
    rw [branch]
    cases ctx.branchConstraint branching taken <;> rfl
  | arrayLength => rfl

namespace Solver

/-- What flows along an edge: nothing, as long as its source has no value. -/
def flowOf (s : Solver) (general : Store NodeId) (source target : NodeId) : Interval :=
  if s.propagates source then
    match s.graph.branchOf source target with
    | some taken => s.measure.branch (s.context general) (general.valueOf source) source taken
    | none => general.valueOf source
  else .bottom

theorem getD_flow? (s : Solver) (general : Store NodeId) (source target : NodeId) :
    (s.flow? general source target).getD .bottom = s.flowOf general source target := by
  unfold flow? flowOf Store.valueOf
  split
  · cases general.get? source with
    | none =>
      cases s.graph.branchOf source target with
      | none => rfl
      | some taken => exact (Measure.branch_bottom ..).symm
    | some value => rfl
  · rfl

theorem inputOf_eq_foldl (s : Solver) (general : Store NodeId) (node : NodeId) :
    s.inputOf general node = (s.graph.prev node).foldl
      (fun input source => input.join (s.flowOf general source node)) (s.initialInput node) := by
  refine List.foldl_ext _ _ _ fun input source _ => ?_
  rw [← getD_flow?]
  cases s.flow? general source node with
  | none => exact (Interval.join_bottom input).symm
  | some value => rfl

theorem flow?_congr {s : Solver} {general general' : Store NodeId} {source : NodeId}
    (h : s.propagates source = true → general.get? source = general'.get? source)
    (target : NodeId) : s.flow? general source target = s.flow? general' source target := by
  unfold flow?
  split
  · rename_i hprop
    -- branches do not look at the stored values
    rw [h hprop]
    cases s.measure <;> rfl
  · rfl

/-- The input of a node depends on its propagating predecessors only. -/
theorem inputOf_congr {s : Solver} {general general' : Store NodeId} {node : NodeId}
    (h : ∀ source ∈ s.graph.prev node, s.propagates source = true →
      general.get? source = general'.get? source) :
    s.inputOf general node = s.inputOf general' node := by
  unfold inputOf
  refine List.foldl_ext _ _ _ fun input source hsource => ?_
  rw [flow?_congr (h source hsource)]

/-- The effect of a node depends on the stored values only at the head of a `for` loop, and there
only for integers. -/
def Summarized (s : Solver) (node : NodeId) : Prop := s.measure = .integer ∧ s.graph.ForHead node

theorem transfer_congr {s : Solver} {node : NodeId} (h : ¬ s.Summarized node)
    (general general' : Store NodeId) (input : Interval) :
    s.transfer general node input = s.transfer general' node input := by
  have heffect : s.measure.effect (s.context general) input node =
      s.measure.effect (s.context general') input node := by
    cases hmeasure : s.measure with
    | integer =>
      have hfor : ¬ (s.context general').graph.ForHead node := fun hfor => h ⟨hmeasure, hfor⟩
      exact Context.integerEffect_general hfor general input
    | arrayLength => exact (s.context general').lengthEffect_general node general input
  unfold transfer
  rw [heffect]

/-! ## Well-formed values -/

/-- What a run starts from is well-formed. -/
structure WellFormed (s : Solver) : Prop where
  seed : s.seed.WellFormed
  lifetimes : s.lifetimes.WellFormed

theorem wellFormed_flowOf (s : Solver) {general : Store NodeId} (h : general.WellFormed)
    (source target : NodeId) : (s.flowOf general source target).WellFormed := by
  unfold flowOf
  split
  · split
    · exact Measure.wellFormed_branch s.measure (h.valueOf source) source _
    · exact h.valueOf source
  · trivial

theorem WellFormed.initialInput {s : Solver} (hs : s.WellFormed) (node : NodeId) :
    (s.initialInput node).WellFormed := by
  unfold Solver.initialInput
  split
  · exact hs.seed
  · trivial

theorem WellFormed.inputOf {s : Solver} (hs : s.WellFormed) {general : Store NodeId}
    (h : general.WellFormed) (node : NodeId) : (s.inputOf general node).WellFormed := by
  rw [inputOf_eq_foldl]
  refine List.foldlRecOn _ _ (hs.initialInput node) fun input hinput source _ => ?_
  exact Interval.wellFormed_join hinput (s.wellFormed_flowOf h source node)

theorem WellFormed.transfer {s : Solver} (hs : s.WellFormed) {general : Store NodeId}
    {node : NodeId} {input output : Interval} (hinput : input.WellFormed)
    (h : s.transfer general node input = .ok output) : output.WellFormed := by
  unfold Solver.transfer at h
  split at h
  · cases h
    trivial
  · exact Measure.wellFormed_effect hs.lifetimes hinput h

/-! ## One visit -/

/-- What a visit with a step does to values and to waiting nodes. -/
structure Updates (s : Solver) (p : Progress) (node : NodeId) (value : Interval) (q : Progress) :
    Prop where
  general : ∀ n, q.general.get? n = if n = node then some value else p.general.get? n
  covers : ∃ output, s.transfer p.general node (s.inputOf p.general node) = .ok output ∧
    output.isWithin value = true
  revises : ∀ output, s.transfer p.general node (s.inputOf p.general node) = .ok output →
    Revises (p.general.get? node) output value
  wellFormed : value.WellFormed
  narrowing : ∀ n, n ≠ node → p.statusOf n = .narrowing → q.statusOf n = .narrowing
  tightens : value.UnboundedBelow → ∀ output,
    s.transfer p.general node (s.inputOf p.general node) = .ok output → output.UnboundedBelow ∨
      q.statusOf node = .narrowing ∧ node ∈ q.queue.queued
  visited : ∀ n, n ∈ q.visited ↔ n = node ∨ n ∈ p.visited
  waits : ∀ n ∈ p.queue.queued, n ∈ q.queue.queued
  lined : ∀ n ∈ q.queue.queued,
    n ∈ p.queue.queued ∨ n = node ∨ s.propagates node = true ∧ n ∈ s.graph.next node
  concerned : s.propagates node = true → ∀ n ∈ s.graph.next node,
    p.general.get? node ≠ some value ∨ n ∉ p.visited → n ∈ q.queue.queued

theorem visit_updates {s : Solver} {p q : Progress} {node : NodeId} (hs : s.WellFormed)
    (hp : p.general.WellFormed) (h : s.visit p node = .ok q) :
    (p.statusOf node = .done ∧ p.incoming.get? node = some (s.inputOf p.general node) ∧
      s.Settles p q) ∨ ∃ value, s.Updates p node value q := by
  rcases visit_cases h with hidle | ⟨status, o, output, hopens, houtput, hpropagates⟩
  · exact .inl hidle
  · right
    have hadvances := hopens.advances output
    have hout := hs.transfer (hs.inputOf hp node) houtput
    have hstored (stored : Interval) (h : o.general.get? node = some stored) : stored.WellFormed :=
      hp node stored (hopens.general ▸ h)
    obtain ⟨value, hstores⟩ := step_stores (s := s) hopens.status_eq hopens.status_ne hstored hout
    have hqueued (n : NodeId) (hn : n ∈ o.queue.queued) :
        n ∈ (s.step o node status output).progress.queue.queued := by
      rcases hadvances.queue with hsame | ⟨hpush, -⟩
      · rwa [hsame]
      · rw [hpush]
        exact Queue.mem_queued_push.mpr (.inr hn)
    refine ⟨value, fun n => ?_, ⟨output, houtput, hstores.covers⟩, fun result hresult => ?_,
      hstores.wellFormed, fun n hne hn => ?_, fun hopen result hresult => ?_, fun n => ?_,
      fun n hn => ?_, fun n hn => ?_, fun hprop n hn hconcerned => ?_⟩
    · rw [hpropagates.general, hstores.general, hopens.general]
    · rw [houtput] at hresult
      cases hresult
      exact hopens.general ▸ hstores.revises
    · rw [← hopens.others hne] at hn
      rw [hpropagates.statusOf]
      rcases hadvances.others n hne with hsame | ⟨-, hlt, -⟩
      · rw [hsame, hn]
      · rw [hn] at hlt
        exact absurd hlt (by decide)
    · rw [houtput] at hresult
      cases hresult
      refine (hstores.tightens hopen).imp_right fun ⟨hnarrowing, hwaits⟩ => ⟨?_, ?_⟩
      · rw [hpropagates.statusOf, hnarrowing]
      · exact (hpropagates.queued node).mpr (.inl hwaits)
    · rw [hpropagates.visited, hadvances.visited, hopens.visited]
    · exact (hpropagates.queued n).mpr (.inl (hqueued n (hopens.queue ▸ hn)))
    · rcases (hpropagates.queued n).mp hn with hn | ⟨hprop, hnext, -⟩
      · rcases hadvances.queue with hsame | ⟨hpush, -⟩
        · rw [hsame, hopens.queue] at hn
          exact .inl hn
        · rw [hpush] at hn
          rcases Queue.mem_queued_push.mp hn with hn | hn
          · exact .inr (.inl hn)
          · exact .inl (hopens.queue ▸ hn)
      · exact .inr (.inr ⟨hprop, hnext⟩)
    · refine (hpropagates.queued n).mpr (.inr ⟨hprop, hn, ?_⟩)
      rcases hconcerned with hchanged | hfresh
      · left
        by_contra hunchanged
        rw [Bool.not_eq_true] at hunchanged
        exact hchanged (hopens.general ▸ hstores.unchanged hunchanged)
      · right
        right
        rw [hadvances.visited, hopens.visited]
        exact hfresh

/-! ## The invariant -/

/-- The nodes at the end of a path of edges that do not leave a target at which values end. -/
def Reaches (s : Solver) : NodeId → Prop :=
  Relation.ReflTransGen (fun a b => s.propagates a = true ∧ b ∈ s.graph.next a) s.start

/-- What is stored and recorded while the nodes in `waiting` are still to be visited. -/
structure Computed (s : Solver) (waiting : NodeId → Prop) (p : Progress) : Prop where
  wellFormed : p.general.WellFormed
  known : ∀ n, (∃ value, p.general.get? n = some value) ↔ n ∈ p.visited ∨ n = s.start
  covered : ∀ n ∈ p.visited, ¬ s.Summarized n → ∃ input output value,
    p.incoming.get? n = some input ∧ s.transfer p.general n input = .ok output ∧
      p.general.get? n = some value ∧ output.isWithin value = true
  current : ∀ n ∈ p.visited, ¬ waiting n → p.incoming.get? n = some (s.inputOf p.general n)
  started : s.start ∈ p.visited ∨ waiting s.start
  closed : ∀ n ∈ p.visited, s.propagates n = true → ∀ m ∈ s.graph.next n,
    m ∈ p.visited ∨ waiting m
  reached : ∀ n, n ∈ p.visited ∨ waiting n → s.Reaches n

theorem mem_queued_initial {s : Solver} {n : NodeId} :
    n ∈ s.initial.queue.queued ↔ n = s.start := by
  refine Queue.mem_queued_push.trans ⟨?_, .inl⟩
  rintro (hn | hn)
  · exact hn
  · cases hn

/-- Before the first visit only the seed is stored. -/
theorem get?_initial (s : Solver) (n : NodeId) :
    s.initial.general.get? n = if n = s.start then some s.seed else none :=
  Table.get?_set .empty s.start n s.seed

theorem Computed.initial {s : Solver} (hs : s.WellFormed) :
    s.Computed (· ∈ s.initial.queue.queued) s.initial := by
  have hvisited (n : NodeId) : n ∉ s.initial.visited := List.not_mem_nil
  constructor
  case wellFormed => exact Store.WellFormed.empty.set s.start hs.seed
  case known =>
    intro n
    rw [get?_initial]
    by_cases hn : n = s.start
    · simp [hn]
    · simp [hn, hvisited]
  case started => exact .inr (mem_queued_initial.mpr rfl)
  case reached =>
    intro n hn
    rcases hn with hn | hn
    · exact absurd hn (hvisited n)
    · rw [mem_queued_initial.mp hn]
      exact .refl
  -- nothing was visited, so nothing is left to say about visited nodes
  all_goals
    intro n hn
    exact absurd hn (hvisited n)

theorem Computed.settle {s : Solver} {p q : Progress} {node : NodeId}
    (h : s.Computed (fun n => n = node ∨ n ∈ p.queue.queued) p) (hvisited : node ∈ p.visited)
    (hlast : p.incoming.get? node = some (s.inputOf p.general node)) (hsettles : s.Settles p q) :
    s.Computed (· ∈ q.queue.queued) q := by
  have hwaiting {n : NodeId} (hn : n = node ∨ n ∈ p.queue.queued) :
      n ∈ p.visited ∨ n ∈ p.queue.queued := by
    rcases hn with rfl | hn
    · exact .inl hvisited
    · exact .inr hn
  obtain ⟨hincoming, hvis, hqueue, hgeneral, -, -⟩ := hsettles
  constructor <;> simp only [hincoming, hvis, hqueue, hgeneral]
  case wellFormed => exact h.wellFormed
  case known => exact h.known
  case covered => exact h.covered
  case current =>
    intro n hn hfree
    by_cases hne : n = node
    · rw [hne, hlast]
    · exact h.current n hn (not_or.mpr ⟨hne, hfree⟩)
  case started =>
    rcases h.started with hstart | hstart
    · exact .inl hstart
    · exact hwaiting hstart
  case closed =>
    intro n hn hprop m hm
    rcases h.closed n hn hprop m hm with hm | hm
    · exact .inl hm
    · exact hwaiting hm
  case reached =>
    intro n hn
    rcases hn with hn | hn
    · exact h.reached n (.inl hn)
    · exact h.reached n (.inr (.inr hn))

theorem Computed.update {s : Solver} {p q : Progress} {node : NodeId} {value : Interval}
    (h : s.Computed (fun n => n = node ∨ n ∈ p.queue.queued) p)
    (hupdates : s.Updates p node value q)
    (hrecords : ∀ n, q.incoming.get? n =
      if n = node then some (s.inputOf p.general node) else p.incoming.get? n) :
    s.Computed (· ∈ q.queue.queued) q := by
  have hown : q.general.get? node = some value := by
    rw [hupdates.general, if_pos rfl]
  have hother {n : NodeId} (hn : n ≠ node) : q.general.get? n = p.general.get? n := by
    rw [hupdates.general, if_neg hn]
  have hvisited {n : NodeId} (hn : n ∈ p.visited) : n ∈ q.visited :=
    (hupdates.visited n).mpr (.inr hn)
  have hnode : node ∈ q.visited := (hupdates.visited node).mpr (.inl rfl)
  have hwaiting {n : NodeId} (hn : n = node ∨ n ∈ p.queue.queued) :
      n ∈ q.visited ∨ n ∈ q.queue.queued := by
    rcases hn with rfl | hn
    · exact .inl hnode
    · exact .inr (hupdates.waits n hn)
  constructor
  case wellFormed =>
    intro n v hv
    by_cases hne : n = node
    · rw [hne, hown] at hv
      cases hv
      exact hupdates.wellFormed
    · exact h.wellFormed n v (hother hne ▸ hv)
  case known =>
    intro n
    rw [hupdates.visited]
    by_cases hne : n = node
    · exact ⟨fun _ => .inl (.inl hne), fun _ => ⟨value, hne ▸ hown⟩⟩
    · rw [hother hne, h.known, or_iff_right hne]
  case covered =>
    intro n hn hsum
    by_cases hne : n = node
    · subst hne
      obtain ⟨output, houtput, hwithin⟩ := hupdates.covers
      refine ⟨_, output, value, by rw [hrecords, if_pos rfl], ?_, hown, hwithin⟩
      rw [transfer_congr hsum, houtput]
    · obtain ⟨input, output, stored, hinput, houtput, hstored, hwithin⟩ :=
        h.covered n (((hupdates.visited n).mp hn).resolve_left hne) hsum
      refine ⟨input, output, stored, by rw [hrecords, if_neg hne, hinput], ?_, ?_, hwithin⟩
      · rw [transfer_congr hsum, houtput]
      · rw [hother hne, hstored]
  case current =>
    intro n hn hfree
    -- a node that does not wait is no successor of a changed node
    have hinput : s.inputOf q.general n = s.inputOf p.general n := by
      apply inputOf_congr
      intro source hsource hprop
      by_cases hne : source = node
      · subst hne
        by_contra hchanged
        rw [hown] at hchanged
        have hnext := Draft.mem_prev.mp hsource
        exact hfree (hupdates.concerned hprop n hnext (.inl (Ne.symm hchanged)))
      · exact hother hne
    rw [hrecords, hinput]
    by_cases hne : n = node
    · rw [if_pos hne, hne]
    · rw [if_neg hne]
      refine h.current n (((hupdates.visited n).mp hn).resolve_left hne) (not_or.mpr ⟨hne, ?_⟩)
      exact fun hqueued => hfree (hupdates.waits n hqueued)
  case started =>
    rcases h.started with hstart | hstart
    · exact .inl (hvisited hstart)
    · exact hwaiting hstart
  case closed =>
    intro n hn hprop m hm
    by_cases hm' : m ∈ p.visited
    · exact .inl (hvisited hm')
    · rcases (hupdates.visited n).mp hn with rfl | hn
      · exact .inr (hupdates.concerned hprop m hm (.inr hm'))
      · exact hwaiting ((h.closed n hn hprop m hm).resolve_left hm')
  case reached =>
    intro n hn
    have hreached : s.Reaches node := h.reached node (.inr (.inl rfl))
    rcases hn with hn | hn
    · rcases (hupdates.visited n).mp hn with rfl | hn
      · exact hreached
      · exact h.reached n (.inl hn)
    · rcases hupdates.lined n hn with hn | rfl | ⟨hprop, hnext⟩
      · exact h.reached n (.inr (.inr hn))
      · exact hreached
      · exact hreached.tail ⟨hprop, hnext⟩

/-! ## All visits -/

/-- Only `waiting` says which nodes wait. -/
theorem Computed.requeue {s : Solver} {waiting : NodeId → Prop} {p : Progress}
    (h : s.Computed waiting p) (queue : Queue) (visits : Nat) :
    s.Computed waiting { p with queue, visits } := by
  obtain ⟨hwf, hknown, hcovered, hcurrent, hstarted, hclosed, hreached⟩ := h
  exact ⟨hwf, hknown, hcovered, hcurrent, hstarted, hclosed, hreached⟩

theorem Reachable.computed {s : Solver} (hs : s.WellFormed) {p : Progress} (h : s.Reachable p) :
    s.Computed (· ∈ p.queue.queued) p := by
  refine Reachable.induction (motive := fun p => s.Computed (· ∈ p.queue.queued) p) (.initial hs)
    (fun p node q hp hinv hvisits => ?_) h
  obtain ⟨queue, hpop, hvisit⟩ := hvisits
  obtain ⟨hcons, -, hqueued, -⟩ := hp.disciplined.queue.pop hpop
  -- before the visit, what waits is the node taken from the queue and the rest of the queue
  rw [show (· ∈ p.queue.queued) = fun n => n = node ∨ n ∈ queue.queued from
    funext fun n => propext (hqueued n)] at hinv
  have hpopped := hinv.requeue queue (p.visits + 1)
  rcases visit_updates hs hpopped.wellFormed hvisit with
    ⟨hdone, hlast, hsettles⟩ | ⟨value, hupdates⟩
  · refine hpopped.settle ?_ hlast hsettles
    exact hp.disciplined.visited node hdone
  · exact hpopped.update hupdates (visit_records hvisit)

/-- When no node waits, the visited nodes are those that can be reached. -/
theorem Computed.mem_visited_iff {s : Solver} {p : Progress} (h : s.Computed (fun _ => False) p)
    {n : NodeId} : n ∈ p.visited ↔ s.Reaches n := by
  refine ⟨fun hn => h.reached n (.inl hn), fun hn => ?_⟩
  induction hn with
  | refl => exact h.started.resolve_right id
  | tail _ hedge ih => exact (h.closed _ ih hedge.1 _ hedge.2).resolve_right id

theorem Computed.known_iff {s : Solver} {p : Progress} (h : s.Computed (fun _ => False) p)
    {n : NodeId} : (∃ value, p.general.get? n = some value) ↔ s.Reaches n := by
  rw [h.known, h.mem_visited_iff]
  constructor
  · rintro (hn | rfl)
    · exact hn
    · exact .refl
  · exact .inl

/-- When no node waits, the output recomputed for a node lies within what is stored. -/
theorem Computed.recompute {s : Solver} {p : Progress} (h : s.Computed (fun _ => False) p)
    {n : NodeId} (hn : s.Reaches n) (hsum : ¬ s.Summarized n) :
    ∃ output value, s.transfer p.general n (s.inputOf p.general n) = .ok output ∧
      p.general.get? n = some value ∧ output.isWithin value = true := by
  have hvisited := h.mem_visited_iff.mpr hn
  obtain ⟨input, output, value, hinput, houtput, hvalue, hwithin⟩ := h.covered n hvisited hsum
  rw [h.current n hvisited id] at hinput
  cases hinput
  exact ⟨output, value, houtput, hvalue, hwithin⟩

/-- A run that settles ends with nothing waiting. -/
theorem computed_of_settled {s : Solver} (hs : s.WellFormed) {visits : Nat} {p : Progress}
    (h : s.iterate visits s.initial = .settled p) : s.Computed (fun _ => False) p := by
  obtain ⟨hreachable, hpop⟩ := iterate_settled (.initial s) h
  have hempty : (· ∈ p.queue.queued) = fun _ => False := by
    funext n
    exact eq_false (hreachable.disciplined.queue.pop_none hpop n)
  have hcomputed := hreachable.computed hs
  rwa [hempty] at hcomputed

/-- Filing the lifetime touches no stored value. -/
theorem solution_general (s : Solver) (p : Progress) :
    (s.solution p).state.general = p.general := by
  have hpush (values : List Interval) (state : FlowState) :
      (values.foldl (fun state value => (state.pushDeclaration s.start value).1) state).general =
        state.general := by
    induction values generalizing state with
    | nil => rfl
    | cons value rest ih => exact ih _
  exact hpush _ _

end Solver

namespace Problem

theorem solver_wellFormed {problem : Problem} (h : problem.seed.WellFormed) :
    problem.solver.WellFormed :=
  ⟨h, problem.graph.wellFormed_lifetimes problem.name⟩

/-- Values flow on from every node but a target that lies on no cycle. -/
theorem propagates_iff {problem : Problem} {n : NodeId} : problem.solver.propagates n = true ↔
    ¬ (n = problem.target ∧ ¬ problem.graph.Cyclic problem.target) := by
  rw [Solver.propagates, Bool.or_eq_true, decide_eq_true_eq, decide_eq_true_eq]
  change n ≠ problem.target ∨ problem.target ∈ problem.graph.cyclicNodes ↔ _
  rw [Graph.mem_cyclicNodes, not_and_not_right, imp_iff_not_or]

/-- A node to which a path leads from the start, along edges that do not leave a target lying on no
cycle. -/
def Reaches (problem : Problem) : NodeId → Prop :=
  Relation.ReflTransGen (fun a b => b ∈ problem.graph.next a ∧
    ¬ (a = problem.target ∧ ¬ problem.graph.Cyclic problem.target)) problem.start

theorem reaches_iff {problem : Problem} {n : NodeId} :
    problem.solver.Reaches n ↔ problem.Reaches n := by
  have hedge : (fun a b => problem.solver.propagates a = true ∧ b ∈ problem.graph.next a) =
      fun a b => b ∈ problem.graph.next a ∧
        ¬ (a = problem.target ∧ ¬ problem.graph.Cyclic problem.target) := by
    funext a b
    rw [propagates_iff, and_comm]
  unfold Reaches
  rw [← hedge]
  rfl

/-- A problem that is solved was settled by its run. -/
theorem exists_settled_of_solve {problem : Problem} {limit : Option Nat} {solution : Solution}
    (h : problem.solve limit = .ok solution) :
    ∃ p, problem.solver.iterate (permittedVisits limit) problem.solver.initial = .settled p ∧
      solution = problem.solver.solution p := by
  simp only [solve] at h
  split at h
  · rename_i p hsettled
    cases h
    exact ⟨p, hsettled, rfl⟩
  · cases h
  · cases h

/-- The general part of a solution is that of the state in which its run settled. -/
theorem solve_eq_ok {problem : Problem} {limit : Option Nat} {solution : Solution}
    (h : problem.solve limit = .ok solution) :
    ∃ p, problem.solver.iterate (permittedVisits limit) problem.solver.initial = .settled p ∧
      solution.state.general = p.general := by
  obtain ⟨p, hsettled, rfl⟩ := exists_settled_of_solve h
  exact ⟨p, hsettled, Solver.solution_general problem.solver p⟩

/-- When a problem is solved, the nodes with a stored value are exactly those that can be reached,
and for each of them, `for` heads of integer problems apart, the output recomputed from the stored
values lies within what is stored. -/
theorem solve_post_fixpoint {problem : Problem} {limit : Option Nat} {solution : Solution}
    (hseed : problem.seed.WellFormed) (h : problem.solve limit = .ok solution) :
    (∀ n, (∃ value, solution.state.general.get? n = some value) ↔ problem.Reaches n) ∧
    ∀ n, problem.Reaches n → ¬ (problem.measure = .integer ∧ problem.graph.ForHead n) →
      ∃ output value,
        problem.solver.transfer solution.state.general n
          (problem.solver.inputOf solution.state.general n) = .ok output ∧
        solution.state.general.get? n = some value ∧ output.isWithin value = true := by
  obtain ⟨p, hsettled, hgeneral⟩ := solve_eq_ok h
  have hcomputed := Solver.computed_of_settled (solver_wellFormed hseed) hsettled
  rw [hgeneral]
  refine ⟨?_, ?_⟩
  · intro n
    exact hcomputed.known_iff.trans reaches_iff
  · intro n hn hsum
    exact hcomputed.recompute (reaches_iff.mpr hn) hsum

/-- The counting loop is solved, and its loop head is reached with a stable value. -/
theorem counting_post_fixpoint : ∃ solution, countingProblem.solve (some 100) = .ok solution ∧
    countingProblem.Reaches 5 ∧
    ∃ output value,
      countingProblem.solver.transfer solution.state.general 5
        (countingProblem.solver.inputOf solution.state.general 5) = .ok output ∧
      solution.state.general.get? 5 = some value ∧ output.isWithin value = true := by
  have hsolved : (countingProblem.solve (some 100)).toOption.any (fun solution =>
      (solution.state.general.get? 5).isSome) = true := by
    decide +kernel
  obtain ⟨solution, hsolve, hsome⟩ := exists_ok_of_any hsolved
  obtain ⟨hknown, hstable⟩ := solve_post_fixpoint (by decide) hsolve
  have hreaches : countingProblem.Reaches 5 := (hknown 5).mp (Option.isSome_iff_exists.mp hsome)
  refine ⟨solution, hsolve, hreaches, hstable 5 hreaches ?_⟩
  rintro ⟨-, initializer, condition, iteration, hkind⟩
  cases hkind

end Problem

end IntervalFlow
