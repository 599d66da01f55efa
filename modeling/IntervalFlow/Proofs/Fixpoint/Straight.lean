import IntervalFlow.Proofs.Effect.Monotone
import IntervalFlow.Proofs.Fixpoint.PostFixpoint

/-!
# Straight code

At a node that no loop leads to, nothing is widened or narrowed. Such a node may be visited several
times, with the values of some predecessors still missing, but what reaches it only grows, since its
effect and those before it are monotone. So each visit stores the output as it is (`Exact`), and
when no node waits, what is stored is the output for what reaches the node.
-/

namespace IntervalFlow

namespace Solver

/-! ## Inputs -/

theorem flowOf_isWithin {s : Solver} {general general' : Store NodeId} {source : NodeId}
    (h : (general.valueOf source).isWithin (general'.valueOf source) = true) (target : NodeId) :
    (s.flowOf general source target).isWithin (s.flowOf general' source target) = true := by
  unfold flowOf
  split
  · split
    · exact Measure.branch_isWithin s.measure h source _
    · exact h
  · rfl

/-- Where more is stored before a node, more reaches it. -/
theorem inputOf_isWithin {s : Solver} (hs : s.WellFormed) {general general' : Store NodeId}
    (hg : general.WellFormed) (hg' : general'.WellFormed) {node : NodeId}
    (h : ∀ source ∈ s.graph.prev node,
      (general.valueOf source).isWithin (general'.valueOf source) = true) :
    (s.inputOf general node).isWithin (s.inputOf general' node) = true := by
  have hinitial := hs.initialInput node
  have hflow (source : NodeId) := s.wellFormed_flowOf hg source node
  have hflow' (source : NodeId) := s.wellFormed_flowOf hg' source node
  obtain ⟨hfirst, hall, -⟩ := Interval.foldl_join hflow' (s.graph.prev node) hinitial
  obtain ⟨-, -, hleast⟩ := Interval.foldl_join hflow (s.graph.prev node) hinitial
  rw [inputOf_eq_foldl, inputOf_eq_foldl]
  refine hleast _ hfirst fun source hsource => ?_
  exact Interval.isWithin_trans (flowOf_isWithin (h source hsource) node) (hall source hsource)

/-- Where more reaches a node, more comes out of it. -/
theorem transfer_isWithin {s : Solver} (hs : s.WellFormed) {general general' : Store NodeId}
    {node : NodeId} (hsum : ¬ s.Summarized node) {input input' output output' : Interval}
    (hinput : input.isWithin input' = true) (h : s.transfer general node input = .ok output)
    (h' : s.transfer general' node input' = .ok output') : output.isWithin output' = true := by
  unfold transfer at h h'
  split at h
  · cases h
    exact Interval.bottom_isWithin _
  · rename_i hflows
    have hflows' : ¬ (node ≠ s.start ∧ input' = .bottom) := by
      rintro ⟨hne, rfl⟩
      refine hflows ⟨hne, ?_⟩
      by_contra hsome
      exact Interval.ne_bottom_of_isWithin hinput hsome rfl
    rw [if_neg hflows'] at h'
    have hfor : s.measure = .integer → ¬ s.graph.ForHead node := fun hm hf => hsum ⟨hm, hf⟩
    exact Measure.effect_below (Store.isBelow_refl hs.lifetimes) hinput hfor output output' h h'

/-! ## Straight nodes -/

/-- No node that is reached and leads to `n` is a loop head or lies on a cycle. -/
def Straight (s : Solver) (n : NodeId) : Prop :=
  ∀ m, s.Reaches m → s.graph.Path m n → s.graph.isLoopHead m = false ∧ ¬ s.graph.Cyclic m

theorem Straight.of_mem_next {s : Solver} {n m : NodeId} (h : s.Straight m)
    (hm : m ∈ s.graph.next n) : s.Straight n :=
  fun k hk hpath => h k hk (hpath.tail hm)

theorem Straight.not_mem_prev {s : Solver} {n : NodeId} (h : s.Straight n) (hn : s.Reaches n) :
    n ∉ s.graph.prev n :=
  fun hmem => (h n hn .refl).2 (.single (Draft.mem_prev.mp hmem))

theorem Straight.not_summarized {s : Solver} {n : NodeId} (h : s.Straight n) (hn : s.Reaches n) :
    ¬ s.Summarized n := by
  rintro ⟨-, initializer, condition, iteration, hkind⟩
  have hhead := (h n hn .refl).1
  rw [Graph.isLoopHead, hkind] at hhead
  cases hhead

/-- At straight nodes the output for the recorded input is stored, and more than the recorded input
may have reached the node since, but not less. -/
structure Exact (s : Solver) (p : Progress) : Prop where
  statuses : ∀ n, s.Straight n → p.statusOf n = .unvisited ∨ p.statusOf n = .done
  stored : ∀ n ∈ p.visited, s.Straight n → ∃ input value,
    p.incoming.get? n = some input ∧ p.general.get? n = some value ∧
      s.transfer p.general n input = .ok value ∧ input.isWithin (s.inputOf p.general n) = true

theorem Exact.initial (s : Solver) : s.Exact s.initial :=
  ⟨fun _ _ => .inl rfl, fun _ hn => absurd hn List.not_mem_nil⟩

theorem Exact.settle {s : Solver} {p q : Progress} (h : s.Exact p) (hsettles : s.Settles p q) :
    s.Exact q := by
  refine ⟨fun n hn => ?_, ?_⟩
  · rcases hsettles.settled n with hsame | ⟨hdone, -⟩
    · rw [hsame]
      exact h.statuses n hn
    · exact .inr hdone
  · rw [hsettles.visited, hsettles.incoming, hsettles.general]
    exact h.stored

/-! ## Steps at straight nodes -/

/-- A straight node is visited as if for the first time: when it was done, more reaches it now. -/
theorem Exact.resume {s : Solver} {p : Progress} {node : NodeId} {status : Status}
    (h : s.Exact p) (hcyclic : node ∉ s.cyclic) (hdone : p.statusOf node = .done → node ∈ p.visited)
    (hnode : s.Straight node)
    (hresume : s.resume? p node (s.inputOf p.general node) = some status) :
    status = .unvisited := by
  unfold resume? at hresume
  split at hresume
  · rename_i hstatus
    obtain ⟨last, -, hlast, -, -, hwithin⟩ := h.stored node (hdone hstatus) hnode
    simp only [hlast] at hresume
    split at hresume
    · cases hresume
    · rename_i hdiffers
      have hgrown : ¬ (s.inputOf p.general node).isWithin last = true := fun hback =>
        hdiffers (Interval.isWithin_antisymm hwithin hback)
      rw [if_neg hgrown] at hresume
      cases hresume
      rfl
  · rename_i hstatus
    cases hresume
    exact (h.statuses node hnode).resolve_right hstatus

theorem step_unvisited (s : Solver) (p : Progress) (node : NodeId) (output : Interval) :
    s.step p node .unvisited output =
      s.plainStep p node .unvisited (p.general.get? node) output := by
  rfl

theorem plainStep_status {s : Solver} {p : Progress} {node : NodeId} {stored : Option Interval}
    {output : Interval} (h : ∀ changed, s.startsWidening p node changed = false) (n : NodeId) :
    (s.plainStep p node .unvisited stored output).progress.statusOf n = p.statusOf n ∨
      (s.plainStep p node .unvisited stored output).progress.statusOf n = .done := by
  simp only [plainStep, h, if_true, Bool.false_eq_true, if_false]
  split
  · rw [Progress.statusOf_setStatus, Function.update_apply]
    split
    · exact .inr rfl
    · exact .inl rfl
  · exact .inl rfl

/-! ## Visits -/

/-- The start is visited first. -/
theorem Reachable.started {s : Solver} {p : Progress} (h : s.Reachable p) :
    p = s.initial ∨ s.start ∈ p.visited := by
  refine Reachable.induction (motive := fun p => p = s.initial ∨ s.start ∈ p.visited) (.inl rfl)
    (fun p node q _ hp hvisits => .inr ?_) h
  obtain ⟨queue, hpop, hvisit⟩ := hvisits
  rcases visit_cases hvisit with ⟨hdone, -, hsettles⟩ | ⟨status, o, output, hopens, -, hpropagates⟩
  · rw [hsettles.visited]
    rcases hp with rfl | hp
    · cases hdone
    · exact hp
  · rw [hpropagates.visited, (hopens.advances output).visited, hopens.visited]
    rcases hp with rfl | hp
    · cases hpop
      exact .inl rfl
    · exact .inr hp

section Visit

variable {s : Solver} {p q : Progress} {node : NodeId} {waiting : NodeId → Prop}

/-- What a straight node stores grows from visit to visit, once the start was visited. -/
theorem Exact.grows (hs : s.WellFormed) (h : s.Exact p) (hcomputed : s.Computed waiting p)
    (hstart : s.start ∈ p.visited) (hnode : s.Straight node) (hreaches : s.Reaches node)
    {output : Interval}
    (houtput : s.transfer p.general node (s.inputOf p.general node) = .ok output) :
    (p.general.valueOf node).isWithin output = true := by
  by_cases hvisited : node ∈ p.visited
  · obtain ⟨input, value, -, hvalue, htransfer, hwithin⟩ := h.stored node hvisited hnode
    rw [Store.valueOf, hvalue]
    exact transfer_isWithin hs (hnode.not_summarized hreaches) hwithin htransfer houtput
  · have hunknown : ¬ ∃ value, p.general.get? node = some value := by
      rw [hcomputed.known, not_or]
      refine ⟨hvisited, ?_⟩
      rintro rfl
      exact hvisited hstart
    rw [Store.valueOf_eq_bottom hunknown]
    exact Interval.bottom_isWithin _

/-- What is known of a straight node stays true while its own record and value stay and more may
reach it. -/
theorem Exact.keep (h : s.Exact p) (hcomputed : s.Computed waiting p) {n : NodeId}
    (hvisited : n ∈ p.visited) (hn : s.Straight n)
    (hrecord : q.incoming.get? n = p.incoming.get? n)
    (hvalue : q.general.get? n = p.general.get? n)
    (hgrows : (s.inputOf p.general n).isWithin (s.inputOf q.general n) = true) :
    ∃ input value, q.incoming.get? n = some input ∧ q.general.get? n = some value ∧
      s.transfer q.general n input = .ok value ∧ input.isWithin (s.inputOf q.general n) = true := by
  obtain ⟨input, value, hinput, hstored, htransfer, hwithin⟩ := h.stored n hvisited hn
  refine ⟨input, value, hrecord.trans hinput, hvalue.trans hstored, ?_,
    Interval.isWithin_trans hwithin hgrows⟩
  rw [transfer_congr (hn.not_summarized (hcomputed.reached n (.inl hvisited))), htransfer]

/-- A step at a node that is not straight concerns no straight node. -/
theorem Exact.step_elsewhere (hs : s.WellFormed) (h : s.Exact p) (hcomputed : s.Computed waiting p)
    (hnode : ¬ s.Straight node) {status : Status} {o : Progress} {output : Interval}
    (hopens : s.Opens p node status o)
    (hpropagates : s.Propagates node (s.step o node status output) q)
    (hvalues : ∀ n, n ≠ node → q.general.get? n = p.general.get? n) : s.Exact q := by
  have hne {n : NodeId} (hn : s.Straight n) : n ≠ node := by
    rintro rfl
    exact hnode hn
  have hadvances := hopens.advances output
  refine ⟨fun n hn => ?_, fun n hvisited hn => ?_⟩
  · rw [hpropagates.statusOf]
    rcases hadvances.others n (hne hn) with hsame | ⟨hnext, -, -⟩
    · rw [hsame, hopens.others (hne hn)]
      exact h.statuses n hn
    · exact absurd (hn.of_mem_next hnext) hnode
  · rw [hpropagates.visited, hadvances.visited, hopens.visited, or_iff_right (hne hn)] at hvisited
    refine h.keep hcomputed hvisited hn ?_ (hvalues n (hne hn)) ?_
    · rw [hpropagates.incoming, hadvances.incoming, hopens.recorded, Table.get?_set,
        if_neg (hne hn)]
    · have hsame : s.inputOf q.general n = s.inputOf p.general n := by
        refine inputOf_congr fun source hsource _ => hvalues source ?_
        exact hne (hn.of_mem_next (Draft.mem_prev.mp hsource))
      rw [hsame]
      exact Interval.isWithin_refl (hs.inputOf hcomputed.wellFormed n)

/-- No status that calls for widening comes near a straight node. -/
theorem Straight.startsWidening_eq_false {o : Progress} (hnode : s.Straight node)
    (hreaches : s.Reaches node) (hcyclic : node ∉ s.cyclic)
    (hstatuses : ∀ n, s.Straight n → o.statusOf n = .unvisited ∨ o.statusOf n = .done)
    (changed : Bool) : s.startsWidening o node changed = false := by
  have hprev : (s.graph.prev node).any (o.statusOf · = .widening) = false := by
    rw [List.any_eq_false]
    intro source hsource hwidening
    have hstraight := hnode.of_mem_next (Draft.mem_prev.mp hsource)
    rcases hstatuses source hstraight with hstatus | hstatus <;> simp [hstatus] at hwidening
  simp [startsWidening, (hnode node hreaches .refl).1, hprev, hcyclic]

theorem Exact.opened (h : s.Exact p) {o : Progress} (hopens : s.Opens p node .unvisited o) :
    ∀ n, s.Straight n → o.statusOf n = .unvisited ∨ o.statusOf n = .done := by
  intro n hn
  by_cases hne : n = node
  · rw [hne, hopens.status_eq]
    exact .inl rfl
  · rw [hopens.others hne]
    exact h.statuses n hn

/-- A step at a straight node stores its output, which is no less than was stored. -/
theorem Exact.step_straight (hs : s.WellFormed) (h : s.Exact p) (hcomputed : s.Computed waiting p)
    (hstart : p.visited = [] ∨ s.start ∈ p.visited) (hcyclic : node ∉ s.cyclic)
    (hnode : s.Straight node) (hreaches : s.Reaches node) {o : Progress} {output : Interval}
    (hopens : s.Opens p node .unvisited o)
    (houtput : s.transfer p.general node (s.inputOf p.general node) = .ok output)
    (hpropagates : s.Propagates node (s.step o node .unvisited output) q) : s.Exact q := by
  have hout := hs.transfer (hs.inputOf hcomputed.wellFormed node) houtput
  have hadvances := hopens.advances output
  rw [step_unvisited] at hpropagates hadvances
  have hstores : Stores o node output
      (s.plainStep o node .unvisited (o.general.get? node) output) output :=
    plainStep_stores rfl hout .unvisited
  have hgeneral (n : NodeId) :
      q.general.get? n = if n = node then some output else p.general.get? n := by
    rw [hpropagates.general, hstores.general, hopens.general]
  have hrecords (n : NodeId) : q.incoming.get? n =
      if n = node then some (s.inputOf p.general node) else p.incoming.get? n := by
    rw [hpropagates.incoming, hadvances.incoming, hopens.recorded, Table.get?_set]
  refine ⟨fun n hn => ?_, fun n hvisited hn => ?_⟩
  · rw [hpropagates.statusOf]
    have hstatuses := h.opened hopens
    have hwiden := hnode.startsWidening_eq_false hreaches hcyclic hstatuses
    rcases plainStep_status hwiden n with hsame | hdone
    · rw [hsame]
      exact hstatuses n hn
    · exact .inr hdone
  · rw [hpropagates.visited, hadvances.visited, hopens.visited] at hvisited
    by_cases hne : n = node
    · subst hne
      -- the node is none of its own predecessors
      have hsame : s.inputOf q.general n = s.inputOf p.general n := by
        refine inputOf_congr fun source hsource _ => ?_
        rw [hgeneral, if_neg]
        rintro rfl
        exact hn.not_mem_prev hreaches hsource
      refine ⟨_, output, by rw [hrecords, if_pos rfl], by rw [hgeneral, if_pos rfl], ?_, ?_⟩
      · rw [transfer_congr (hn.not_summarized hreaches), houtput]
      · rw [hsame]
        exact Interval.isWithin_refl (hs.inputOf hcomputed.wellFormed n)
    · have hvisited := hvisited.resolve_left hne
      have hstarted : s.start ∈ p.visited := by
        rcases hstart with hnone | hstart
        · rw [hnone] at hvisited
          cases hvisited
        · exact hstart
      have hgrown := h.grows hs hcomputed hstarted hnode hreaches houtput
      refine h.keep hcomputed hvisited hn ?_ ?_ (inputOf_isWithin hs hcomputed.wellFormed ?_ ?_)
      · rw [hrecords, if_neg hne]
      · rw [hgeneral, if_neg hne]
      · intro m value hvalue
        rw [hgeneral] at hvalue
        split at hvalue
        · cases hvalue
          exact hout
        · exact hcomputed.wellFormed m value hvalue
      · intro source _
        by_cases hsource : source = node
        · rw [hsource, Store.valueOf.eq_1 q.general, hgeneral, if_pos rfl]
          exact hgrown
        · rw [Store.valueOf.eq_1 q.general, hgeneral, if_neg hsource]
          exact Interval.isWithin_refl (hcomputed.wellFormed.valueOf source)

theorem Exact.visit (hs : s.WellFormed) (h : s.Exact p) (hcomputed : s.Computed waiting p)
    (hdisciplined : s.Disciplined p) (hstart : p.visited = [] ∨ s.start ∈ p.visited)
    (hcyclic : ∀ n ∈ s.cyclic, s.graph.Cyclic n) (hreaches : s.Reaches node)
    (hvisit : s.visit p node = .ok q) : s.Exact q := by
  rcases visit_cases hvisit with ⟨-, -, hsettles⟩ |
    ⟨status, o, output, hopens, houtput, hpropagates⟩
  · exact h.settle hsettles
  · by_cases hnode : s.Straight node
    · have hacyclic : node ∉ s.cyclic := fun hmem =>
        (hnode node hreaches .refl).2 (hcyclic node hmem)
      obtain rfl := h.resume hacyclic (hdisciplined.visited node) hnode hopens.resumes
      exact h.step_straight hs hcomputed hstart hacyclic hnode hreaches hopens houtput hpropagates
    · refine h.step_elsewhere hs hcomputed hnode hopens hpropagates fun n hne => ?_
      have hout := hs.transfer (hs.inputOf hcomputed.wellFormed node) houtput
      have hwf (stored : Interval) (hstored : o.general.get? node = some stored) :
          stored.WellFormed := hcomputed.wellFormed node stored (hopens.general ▸ hstored)
      obtain ⟨value, hstores⟩ := step_stores (s := s) hopens.status_eq hopens.status_ne
        hwf hout
      rw [hpropagates.general, hstores.general, if_neg hne, hopens.general]

end Visit

/-! ## All visits -/

theorem Reachable.exact {s : Solver} (hs : s.WellFormed)
    (hcyclic : ∀ n ∈ s.cyclic, s.graph.Cyclic n) {p : Progress} (h : s.Reachable p) :
    s.Exact p := by
  refine h.induction (Exact.initial s) fun p node q hp hexact hvisits => ?_
  obtain ⟨queue, hpop, hvisit⟩ := hvisits
  have hcomputed := hp.computed hs
  have hwaits : node ∈ p.queue.queued :=
    ((hp.disciplined.queue.pop hpop).2.2.1 node).mpr (.inl rfl)
  have hpopped : s.Exact { p with queue, visits := p.visits + 1 } := ⟨hexact.1, hexact.2⟩
  refine hpopped.visit hs (hcomputed.requeue queue (p.visits + 1))
    (hp.disciplined.pop hpop (p.visits + 1)).1 ?_ hcyclic
    (hcomputed.reached node (.inr hwaits)) hvisit
  rcases hp.started with rfl | hstart
  · exact .inl rfl
  · exact .inr hstart

/-- When no node waits, what is stored at a straight node is the output for what reaches it. -/
theorem recompute_straight {s : Solver} (hs : s.WellFormed)
    (hcyclic : ∀ n ∈ s.cyclic, s.graph.Cyclic n) {visits : Nat} {p : Progress}
    (h : s.iterate visits s.initial = .settled p) {n : NodeId} (hn : s.Straight n)
    (hreaches : s.Reaches n) : ∃ value, p.general.get? n = some value ∧
      s.transfer p.general n (s.inputOf p.general n) = .ok value := by
  have hcomputed := computed_of_settled hs h
  have hexact := (iterate_settled (.initial s) h).1.exact hs hcyclic
  have hvisited := hcomputed.mem_visited_iff.mpr hreaches
  obtain ⟨input, value, hinput, hvalue, htransfer, -⟩ := hexact.stored n hvisited hn
  rw [hcomputed.current n hvisited id] at hinput
  cases hinput
  exact ⟨value, hvalue, htransfer⟩

end Solver

end IntervalFlow
