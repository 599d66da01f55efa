import IntervalFlow.Proofs.Effect.Length
import IntervalFlow.Proofs.Evaluation
import IntervalFlow.Proofs.Fixpoint.Straight
import Mathlib.Tactic.IntervalCases

/-!
# Lengths of arrays

Widening opens the lower end of a length when it moves down, and narrowing closes it again where the
outputs allow. At the end of a run an open end is one that the output of its node still has
(`Tight`), and a node that does not give the array a new length has it from a node before it. So
an open end stays only behind a cycle on which the array keeps its length. It was opened only if
lengths with different lower ends come around this cycle (`Mixed`): an end that all lengths have in
common stays what it is under join, widening and narrowing (`Accounted`). All other stored lengths
are not negative.
-/

namespace IntervalFlow

/-! ## Open ends at the end of a run -/

namespace Solver

/-- Where a stored value has no lower end, the output for the recorded input has none, unless the
node waits to be narrowed. -/
def Tight (s : Solver) (waiting : NodeId → Prop) (p : Progress) : Prop :=
  ∀ n ∈ p.visited, ¬ s.Summarized n → p.statusOf n = .narrowing ∧ waiting n ∨
    ∃ input output value, p.incoming.get? n = some input ∧
      s.transfer p.general n input = .ok output ∧ p.general.get? n = some value ∧
        (value.UnboundedBelow → output.UnboundedBelow)

theorem Tight.settle {s : Solver} {p q : Progress} {node : NodeId}
    (h : s.Tight (fun n => n = node ∨ n ∈ p.queue.queued) p) (hdone : p.statusOf node = .done)
    (hsettles : s.Settles p q) : s.Tight (· ∈ q.queue.queued) q := by
  intro n hvisited hsum
  rw [hsettles.visited] at hvisited
  rw [hsettles.incoming, hsettles.general, hsettles.queue]
  refine (h n hvisited hsum).imp_left fun ⟨hnarrowing, hwaits⟩ => ?_
  have hqueued : n ∈ p.queue.queued := by
    rcases hwaits with rfl | hqueued
    · rw [hdone] at hnarrowing
      cases hnarrowing
    · exact hqueued
  rcases hsettles.settled n with hsame | ⟨-, -, -, hfree⟩
  · exact ⟨hsame.trans hnarrowing, hqueued⟩
  · exact absurd hqueued hfree

theorem Tight.update {s : Solver} {p q : Progress} {node : NodeId} {value : Interval}
    (h : s.Tight (fun n => n = node ∨ n ∈ p.queue.queued) p) (hupdates : s.Updates p node value q)
    (hrecords : ∀ n, q.incoming.get? n =
      if n = node then some (s.inputOf p.general node) else p.incoming.get? n) :
    s.Tight (· ∈ q.queue.queued) q := by
  intro n hvisited hsum
  by_cases hne : n = node
  · subst hne
    obtain ⟨output, houtput, -⟩ := hupdates.covers
    by_cases hwaits : q.statusOf n = .narrowing ∧ n ∈ q.queue.queued
    · exact .inl hwaits
    · refine .inr ⟨_, output, value, by rw [hrecords, if_pos rfl], ?_, ?_, fun hopen => ?_⟩
      · rw [transfer_congr hsum, houtput]
      · rw [hupdates.general, if_pos rfl]
      · exact (hupdates.tightens hopen output houtput).resolve_right hwaits
  · have hvisited := ((hupdates.visited n).mp hvisited).resolve_left hne
    rcases h n hvisited hsum with ⟨hnarrowing, hwaits⟩ |
      ⟨input, output, stored, hinput, houtput, hstored, htight⟩
    · exact .inl ⟨hupdates.narrowing n hne hnarrowing, hupdates.waits n (hwaits.resolve_left hne)⟩
    · refine .inr ⟨input, output, stored, by rw [hrecords, if_neg hne, hinput], ?_, ?_, htight⟩
      · rw [transfer_congr hsum, houtput]
      · rw [hupdates.general, if_neg hne, hstored]

theorem Reachable.tight {s : Solver} (hs : s.WellFormed) {p : Progress} (h : s.Reachable p) :
    s.Tight (· ∈ p.queue.queued) p := by
  refine Reachable.induction (motive := fun p => s.Tight (· ∈ p.queue.queued) p) ?_ ?_ h
  · intro n hn
    cases hn
  · intro p node q hp htight hvisits
    obtain ⟨queue, hpop, hvisit⟩ := hvisits
    obtain ⟨-, -, hqueued, -⟩ := hp.disciplined.queue.pop hpop
    have hpopped : s.Tight (fun n => n = node ∨ n ∈ queue.queued)
        { p with queue, visits := p.visits + 1 } := by
      intro n hvisited hsum
      refine (htight n hvisited hsum).imp_left fun ⟨hnarrowing, hwaits⟩ => ?_
      exact ⟨hnarrowing, (hqueued n).mp hwaits⟩
    rcases visit_updates hs ((hp.computed hs).requeue queue (p.visits + 1)).wellFormed hvisit with
      ⟨hdone, -, hsettles⟩ | ⟨value, hupdates⟩
    · exact hpopped.settle hdone hsettles
    · exact hpopped.update hupdates (visit_records hvisit)

/-- When no node waits, a stored value without a lower end comes from an output without one. -/
theorem recompute_tight {s : Solver} (hs : s.WellFormed) {visits : Nat} {p : Progress}
    (h : s.iterate visits s.initial = .settled p) {n : NodeId} (hn : s.Reaches n)
    (hsum : ¬ s.Summarized n) : ∃ output value,
      s.transfer p.general n (s.inputOf p.general n) = .ok output ∧
      p.general.get? n = some value ∧ (value.UnboundedBelow → output.UnboundedBelow) := by
  obtain ⟨hreachable, hpop⟩ := iterate_settled (.initial s) h
  have hcomputed := computed_of_settled hs h
  have hvisited := hcomputed.mem_visited_iff.mpr hn
  rcases hreachable.tight hs n hvisited hsum with ⟨-, hwaits⟩ |
    ⟨input, output, value, hinput, houtput, hvalue, htight⟩
  · exact absurd hwaits (hreachable.disciplined.queue.pop_none hpop n)
  · rw [hcomputed.current n hvisited id] at hinput
    cases hinput
    exact ⟨output, value, houtput, hvalue, htight⟩

/-! ## Runs on lengths -/

/-- What holds of an output, and is kept by widening and narrowing, holds of all that is stored after
a visit if it did before. -/
theorem Visits.stored {s : Solver} (hs : s.WellFormed) {P : NodeId → Interval → Prop}
    {p q : Progress} {node : NodeId} (hvisits : s.Visits p node q) (hp : s.Reachable p)
    (hall : ∀ n, P n (p.general.valueOf n))
    (hout : ∀ output, s.transfer p.general node (s.inputOf p.general node) = .ok output →
      P node output)
    (hwiden : ∀ old output, old.WellFormed → output.WellFormed → P node old → P node output →
      P node (old.widen (old.join output)))
    (hnarrow : ∀ old output, P node old → P node output → P node (old.narrow output)) :
    ∀ n, P n (q.general.valueOf n) := by
  obtain ⟨queue, hpop, hvisit⟩ := hvisits
  have hwf := ((hp.computed hs).requeue queue (p.visits + 1)).wellFormed
  rcases visit_updates hs hwf hvisit with ⟨-, -, hsettles⟩ | ⟨value, hupdates⟩
  · rw [hsettles.general]
    exact hall
  · obtain ⟨output, houtput, -⟩ := hupdates.covers
    have houtwf := hs.transfer (hs.inputOf hwf node) houtput
    have hold {old : Interval} (h : p.general.get? node = some old) : P node old := by
      have hnode := hall node
      rwa [Store.valueOf, h] at hnode
    have hvalue : P node value := by
      cases hupdates.revises output houtput with
      | takes => exact hout _ houtput
      | keeps h => exact hold h
      | widens h => exact hwiden _ output (hwf _ _ h) houtwf (hold h) (hout output houtput)
      | narrows h _ => exact hnarrow _ output (hold h) (hout output houtput)
    intro n
    rw [Store.valueOf, hupdates.general]
    split
    · rename_i hnode
      rw [hnode]
      exact hvalue
    · exact hall n

section Lengths

variable {s : Solver} (hmeasure : s.measure = .arrayLength)

include hmeasure

/-- Conditions say nothing about lengths. -/
theorem flowOf_arrayLength (general : Store NodeId) (source target : NodeId) :
    s.flowOf general source target =
      if s.propagates source then general.valueOf source else .bottom := by
  unfold flowOf
  rw [hmeasure]
  split
  · split <;> rfl
  · rfl

theorem not_summarized_arrayLength (n : NodeId) : ¬ s.Summarized n := by
  rintro ⟨hinteger, -⟩
  rw [hmeasure] at hinteger
  cases hinteger

theorem isLength_inputOf (hseed : s.seed.IsLength) {general : Store NodeId}
    (h : ∀ n, (general.valueOf n).IsLength) (node : NodeId) :
    (s.inputOf general node).IsLength := by
  rw [inputOf_eq_foldl]
  refine List.foldlRecOn _ _ ?_ fun input hinput source _ => hinput.join ?_
  · unfold initialInput
    split
    · exact hseed
    · trivial
  · rw [flowOf_arrayLength hmeasure]
    split
    · exact h source
    · trivial

theorem inputOf_not_negative (hseed : s.seed.isWithin (.atLeast 0) = true)
    {general : Store NodeId} (hwf : general.WellFormed) {node : NodeId}
    (h : ∀ source ∈ s.graph.prev node, s.propagates source = true →
      (general.valueOf source).isWithin (.atLeast 0) = true) :
    (s.inputOf general node).isWithin (.atLeast 0) = true := by
  have hinitial : (s.initialInput node).isWithin (.atLeast 0) = true := by
    unfold initialInput
    split
    · exact hseed
    · exact Interval.bottom_isWithin _
  rw [inputOf_eq_foldl]
  refine (Interval.foldl_join (fun source => s.wellFormed_flowOf hwf source node) _
    (Interval.wellFormed_of_isWithin hinitial)).2.2 _ hinitial fun source hsource => ?_
  rw [flowOf_arrayLength hmeasure]
  split
  · rename_i hprop
    exact h source hsource hprop
  · exact Interval.bottom_isWithin _

theorem transfer_of_keeps {general : Store NodeId} {node : NodeId} {input output : Interval}
    (hkeeps : s.graph.allocates s.name node = false)
    (h : s.transfer general node input = .ok output) : output = input := by
  unfold transfer at h
  split at h
  · rename_i hnothing
    cases h
    exact hnothing.2.symm
  · rw [hmeasure] at h
    have heffect := (s.context general).lengthEffect_of_keeps hkeeps input
    exact Except.ok.inj (h.symm.trans heffect)

/-- Something comes out of a node that gives the array a length only if something reaches it, and
then it is this length. -/
theorem transfer_of_allocates {general : Store NodeId} {node : NodeId} {input output : Interval}
    (hallocates : s.graph.allocates s.name node = true)
    (h : s.transfer general node input = .ok output) (hsome : output ≠ .bottom) :
    (node = s.start ∨ input ≠ .bottom) ∧
      (s.context .empty).lengthEffect .top node = .ok output := by
  rw [transfer_congr (not_summarized_arrayLength hmeasure node) general .empty] at h
  unfold transfer at h
  split at h
  · cases h
    exact absurd rfl hsome
  · rename_i hflows
    rw [hmeasure] at h
    refine ⟨by tauto, ?_⟩
    rw [(s.context .empty).lengthEffect_congr hallocates .top input]
    exact h

theorem transfer_isWithin_of_allocates (hs : s.WellFormed) (hlists : s.graph.ListsFit)
    {general : Store NodeId} {node : NodeId} {input output : Interval}
    (hallocates : s.graph.allocates s.name node = true)
    (h : s.transfer general node input = .ok output) : output.isWithin (.atLeast 0) = true := by
  by_cases hsome : output = .bottom
  · rw [hsome]
    exact Interval.bottom_isWithin _
  · obtain ⟨-, heffect⟩ := transfer_of_allocates hmeasure hallocates h hsome
    have hdecls : (s.context .empty).declarations.WellFormed := hs.lifetimes
    exact Context.lengthEffect_isWithin hdecls hlists hallocates heffect

variable (hs : s.WellFormed) (hlists : s.graph.ListsFit)

include hs hlists

/-- No stored length has a negative end. -/
theorem Reachable.lengths (hseed : s.seed.IsLength) {p : Progress} (h : s.Reachable p) :
    ∀ n, (p.general.valueOf n).IsLength := by
  refine Reachable.induction (motive := fun p => ∀ n, (p.general.valueOf n).IsLength) ?_ ?_ h
  · intro n
    rw [Store.valueOf, get?_initial]
    split
    · exact hseed
    · trivial
  · intro p node q hp hlengths hvisits
    refine hvisits.stored hs hp hlengths (fun output houtput => ?_)
      (fun _ _ _ _ hold hout => hold.widen (hold.join hout)) (fun _ _ hold hout => hold.narrow hout)
    cases hallocates : s.graph.allocates s.name node with
    | true =>
      exact .of_isWithin (transfer_isWithin_of_allocates hmeasure hs hlists hallocates houtput)
    | false =>
      rw [transfer_of_keeps hmeasure hallocates houtput]
      exact isLength_inputOf hmeasure hseed hlengths node

variable (hseed : s.seed.isWithin (.atLeast 0) = true) {visits : Nat} {p : Progress}
variable (hsettled : s.iterate visits s.initial = .settled p)

include hseed hsettled

/-- A node stores no negative length at the end if its output is not negative. -/
theorem valueOf_isWithin {n : NodeId} (hn : s.Reaches n)
    (hout : ∀ output, s.transfer p.general n (s.inputOf p.general n) = .ok output →
      output.isWithin (.atLeast 0) = true) :
    (p.general.valueOf n).isWithin (.atLeast 0) = true := by
  obtain ⟨output, value, houtput, hvalue, htight⟩ :=
    recompute_tight hs hsettled hn (not_summarized_arrayLength hmeasure n)
  have hlength := (iterate_settled (.initial s) hsettled).1.lengths hmeasure hs hlists
    (.of_isWithin hseed) n
  have hwf := (computed_of_settled hs hsettled).wellFormed.valueOf n
  rw [Store.valueOf, hvalue] at hlength hwf ⊢
  refine hlength.isWithin hwf fun hopen => ?_
  exact Interval.not_unboundedBelow_of_isWithin (hout output houtput) (htight hopen)

end Lengths

/-- What is stored after the first visit is the output for what reaches the start. -/
theorem first_visit {s : Solver} (hs : s.WellFormed) {node : NodeId} {q : Progress}
    (h : s.Visits s.initial node q) : node = s.start ∧ ∃ output,
      s.transfer s.initial.general s.start (s.inputOf s.initial.general s.start) = .ok output ∧
      ∀ n, q.general.get? n = if n = s.start then some output else none := by
  have hinitial := Computed.initial hs
  obtain ⟨queue, hpop, hvisit⟩ := h
  obtain ⟨-, -, hqueued, -⟩ := (Reachable.initial s).disciplined.queue.pop hpop
  have hnode : node = s.start := mem_queued_initial.mp ((hqueued node).mpr (.inl rfl))
  subst hnode
  refine ⟨rfl, ?_⟩
  rcases visit_cases hvisit with ⟨hdone, -⟩ | ⟨status, o, output, hopens, houtput, hpropagates⟩
  · cases hdone
  · obtain rfl : status = .unvisited := by
      have := hopens.resumes
      cases this
      rfl
    have hout := hs.transfer (hs.inputOf hinitial.wellFormed _) houtput
    refine ⟨output, houtput, fun n => ?_⟩
    rw [hpropagates.general, step_unvisited, (plainStep_stores rfl hout _).general, hopens.general]
    split
    · rfl
    · rename_i hne
      exact (s.get?_initial n).trans (if_neg hne)

end Solver

namespace Problem

/-! ## Lower ends along paths -/

/-- Values flow from `a` to `b`. They end at a target that lies on no cycle. -/
def Flows (problem : Problem) (a b : NodeId) : Prop :=
  b ∈ problem.graph.next a ∧ ¬ (a = problem.target ∧ ¬ problem.graph.Cyclic problem.target)

/-- Values flow from `a` to `b`, and both leave the length of the array as it is. -/
def Carries (problem : Problem) (a b : NodeId) : Prop :=
  problem.Flows a b ∧ problem.graph.allocates problem.name a = false ∧
    problem.graph.allocates problem.name b = false

/-- The length of the array after a node that gives it one. -/
def allocation (problem : Problem) (n : NodeId) : Except Error Interval :=
  (problem.solver.context .empty).lengthEffect .top n

/-- After some path from the start to the node, the lengths of the array begin at the bound: they
are those of the seed, or those that the last node on the path to give it a length gave it. -/
inductive LengthsFrom (problem : Problem) : Bound → NodeId → Prop
  | seed {l u : Bound} (hkeeps : problem.graph.allocates problem.name problem.start = false)
      (hseed : problem.seed = .bounded l u) : LengthsFrom problem l problem.start
  | first {l u : Bound}
      (hallocates : problem.graph.allocates problem.name problem.start = true)
      (hlength : problem.allocation problem.start = .ok (.bounded l u)) :
      LengthsFrom problem l problem.start
  | replaced {l l' u : Bound} {a b : NodeId} (h : LengthsFrom problem l' a)
      (hflows : problem.Flows a b) (hallocates : problem.graph.allocates problem.name b = true)
      (hlength : problem.allocation b = .ok (.bounded l u)) : LengthsFrom problem l b
  | kept {l : Bound} {a b : NodeId} (h : LengthsFrom problem l a) (hflows : problem.Flows a b)
      (hkeeps : problem.graph.allocates problem.name b = false) : LengthsFrom problem l b

/-- Lengths with different lower ends leave the node. -/
def Mixed (problem : Problem) (n : NodeId) : Prop :=
  ∃ l l', l ≠ l' ∧ problem.LengthsFrom l n ∧ problem.LengthsFrom l' n

/-- The lower end of a value is one with which lengths leave the node, unless these differ. -/
def Accounted (problem : Problem) (n : NodeId) (value : Interval) : Prop :=
  ∀ l u, value = .bounded l u → problem.LengthsFrom l n ∨ problem.Mixed n

section LowerEnds

variable {problem : Problem}

theorem flows_iff {a b : NodeId} : problem.Flows a b ↔
    problem.solver.propagates a = true ∧ b ∈ problem.graph.next a := by
  rw [propagates_iff, and_comm]
  rfl

theorem LengthsFrom.reaches {l : Bound} {n : NodeId} (h : problem.LengthsFrom l n) :
    problem.solver.Reaches n := by
  induction h with
  | seed => exact .refl
  | first => exact .refl
  | replaced _ hflows _ _ ih => exact ih.tail (flows_iff.mp hflows)
  | kept _ hflows _ ih => exact ih.tail (flows_iff.mp hflows)

theorem LengthsFrom.allocation_eq {l : Bound} {n : NodeId} (h : problem.LengthsFrom l n)
    (hallocates : problem.graph.allocates problem.name n = true) :
    ∃ u, problem.allocation n = .ok (.bounded l u) := by
  cases h with
  | seed hkeeps | kept _ _ hkeeps =>
    rw [hallocates] at hkeeps
    cases hkeeps
  | first _ hlength | replaced _ _ _ hlength => exact ⟨_, hlength⟩

theorem Mixed.reaches {n : NodeId} (h : problem.Mixed n) : problem.solver.Reaches n := by
  obtain ⟨l, -, -, hl, -⟩ := h
  exact hl.reaches

/-- A node that gives the array a length gives it one lower end. -/
theorem Mixed.keeps {n : NodeId} (h : problem.Mixed n) :
    problem.graph.allocates problem.name n = false := by
  obtain ⟨l, l', hne, hl, hl'⟩ := h
  by_contra hallocates
  obtain ⟨u, hlength⟩ := hl.allocation_eq (Bool.eq_true_of_not_eq_false hallocates)
  obtain ⟨u', hlength'⟩ := hl'.allocation_eq (Bool.eq_true_of_not_eq_false hallocates)
  rw [hlength] at hlength'
  cases hlength'
  exact hne rfl

theorem Mixed.kept {a b : NodeId} (h : problem.Mixed a) (hflows : problem.Flows a b)
    (hkeeps : problem.graph.allocates problem.name b = false) : problem.Mixed b := by
  obtain ⟨l, l', hne, hl, hl'⟩ := h
  exact ⟨l, l', hne, hl.kept hflows hkeeps, hl'.kept hflows hkeeps⟩

theorem Accounted.bottom (n : NodeId) : problem.Accounted n .bottom := by
  intro l u h
  cases h

theorem Accounted.kept {a b : NodeId} {value : Interval} (h : problem.Accounted a value)
    (hflows : problem.Flows a b) (hkeeps : problem.graph.allocates problem.name b = false) :
    problem.Accounted b value := by
  intro l u hvalue
  exact (h l u hvalue).imp (·.kept hflows hkeeps) (·.kept hflows hkeeps)

/-- Where a value is stored, lengths leave the node. -/
theorem Accounted.exists_lengthsFrom {n : NodeId} {value : Interval} (h : problem.Accounted n value)
    (hsome : value ≠ .bottom) : ∃ l, problem.LengthsFrom l n := by
  cases value with
  | bottom => exact absurd rfl hsome
  | bounded l u =>
    rcases h l u rfl with hl | ⟨l', -, -, hl', -⟩
    · exact ⟨l, hl⟩
    · exact ⟨l', hl'⟩

theorem Accounted.join {n : NodeId} {a b : Interval} (ha : problem.Accounted n a)
    (hb : problem.Accounted n b) (hwfa : a.WellFormed) (hwfb : b.WellFormed) :
    problem.Accounted n (a.join b) := by
  cases a with
  | bottom => exact hb
  | bounded l u =>
    cases b with
    | bottom => exact ha
    | bounded l' u' =>
      rw [Interval.join_of_wellFormed hwfa hwfb]
      intro lower upper h
      cases h
      rcases min_choice l l' with hmin | hmin
      · rw [hmin]
        exact ha l u rfl
      · rw [hmin]
        exact hb l' u' rfl

/-- An end is opened only where two different ones have come. -/
theorem Accounted.widen {n : NodeId} {a b : Interval} (ha : problem.Accounted n a)
    (hb : problem.Accounted n b) : problem.Accounted n (a.widen b) := by
  cases a with
  | bottom => exact hb
  | bounded l u =>
    cases b with
    | bottom => exact ha
    | bounded l' u' =>
      intro lower upper h
      cases h
      split
      · rename_i hless
        rcases ha l u rfl, hb l' u' rfl with ⟨hl | hmixed, hl' | hmixed'⟩
        · exact .inr ⟨l', l, hless.ne, hl', hl⟩
        · exact .inr hmixed'
        · exact .inr hmixed
        · exact .inr hmixed
      · exact ha l u rfl

theorem Accounted.narrow {n : NodeId} {a b : Interval} (ha : problem.Accounted n a)
    (hb : problem.Accounted n b) : problem.Accounted n (a.narrow b) := by
  cases a with
  | bottom => exact .bottom n
  | bounded l u =>
    cases b with
    | bottom => exact .bottom n
    | bounded l' u' =>
      have hlower : problem.LengthsFrom (if l = .negInf then l' else l) n ∨ problem.Mixed n := by
        split
        · exact hb l' u' rfl
        · exact ha l u rfl
      simp only [Interval.narrow]
      generalize (if l = .negInf then l' else l) = lower at hlower ⊢
      generalize (if u = .posInf then u' else u) = upper
      split
      · exact .bottom n
      · intro l'' u'' h
        cases h
        exact hlower

/-- The lower ends of lengths are not negative. -/
theorem LengthsFrom.nonneg (hseed : problem.seed.isWithin (.atLeast 0) = true)
    (hlists : problem.graph.ListsFit) {l : Bound} {n : NodeId} (h : problem.LengthsFrom l n) :
    .fin 0 ≤ l := by
  have hs := solver_wellFormed (Interval.wellFormed_of_isWithin hseed)
  have hallocation {n : NodeId} {u : Bound}
      (hallocates : problem.graph.allocates problem.name n = true)
      (hlength : problem.allocation n = .ok (.bounded l u)) : .fin 0 ≤ l := by
    have hdecls : (problem.solver.context .empty).declarations.WellFormed := hs.lifetimes
    have hwithin := Context.lengthEffect_isWithin hdecls hlists hallocates hlength
    exact (Interval.bounded_isWithin_bounded.mp hwithin).2.2.1
  induction h with
  | seed _ h =>
    rw [h] at hseed
    exact (Interval.bounded_isWithin_bounded.mp hseed).2.2.1
  | first hallocates hlength => exact hallocation hallocates hlength
  | replaced _ _ hallocates hlength => exact hallocation hallocates hlength
  | kept _ _ _ ih => exact ih hallocation

/-! ## Lower ends of stored lengths -/

variable (hmeasure : problem.measure = .arrayLength)

include hmeasure

/-- What reaches a node other than the start comes from a node at which something is stored. -/
theorem exists_flows_of_inputOf {general : Store NodeId} {n : NodeId} (hne : n ≠ problem.start)
    (h : problem.solver.inputOf general n ≠ .bottom) :
    ∃ a, problem.Flows a n ∧ general.valueOf a ≠ .bottom := by
  by_contra hnone
  refine h ?_
  rw [Solver.inputOf_eq_foldl]
  refine List.foldlRecOn (motive := (· = Interval.bottom)) _ _ (if_neg hne)
    fun input hinput source hsource => ?_
  rw [hinput]
  change problem.solver.flowOf general source n = .bottom
  rw [Solver.flowOf_arrayLength hmeasure]
  split
  · rename_i hpropagates
    by_contra hsome
    exact hnone ⟨source, flows_iff.mpr ⟨hpropagates, Draft.mem_prev.mp hsource⟩, hsome⟩
  · rfl

variable (hseed : problem.seed.WellFormed)

include hseed

theorem accounted_inputOf {general : Store NodeId} (hwf : general.WellFormed)
    (hall : ∀ m, problem.Accounted m (general.valueOf m)) {n : NodeId}
    (hkeeps : problem.graph.allocates problem.name n = false) :
    problem.Accounted n (problem.solver.inputOf general n) := by
  have hinitial : problem.Accounted n (problem.solver.initialInput n) := by
    unfold Solver.initialInput
    split
    · rename_i hstart
      intro l u hvalue
      subst hstart
      exact .inl (.seed hkeeps hvalue)
    · exact .bottom n
  have hflow (source : NodeId) (hsource : source ∈ problem.graph.prev n) :
      problem.Accounted n (problem.solver.flowOf general source n) := by
    rw [Solver.flowOf_arrayLength hmeasure]
    split
    · rename_i hpropagates
      exact (hall source).kept (flows_iff.mpr ⟨hpropagates, Draft.mem_prev.mp hsource⟩) hkeeps
    · exact .bottom n
  rw [Solver.inputOf_eq_foldl]
  refine (List.foldlRecOn (motive := fun input => input.WellFormed ∧ problem.Accounted n input) _ _
    ⟨(solver_wellFormed hseed).initialInput n, hinitial⟩ fun input hinput source hsource => ?_).2
  have hflowed := problem.solver.wellFormed_flowOf hwf source n
  exact ⟨Interval.wellFormed_join hinput.1 hflowed,
    hinput.2.join (hflow source hsource) hinput.1 hflowed⟩

theorem accounted_transfer {general : Store NodeId} (hwf : general.WellFormed)
    (hall : ∀ m, problem.Accounted m (general.valueOf m)) {n : NodeId} {output : Interval}
    (h : problem.solver.transfer general n (problem.solver.inputOf general n) = .ok output) :
    problem.Accounted n output := by
  cases hallocates : problem.graph.allocates problem.name n with
  | true =>
    rintro l u rfl
    obtain ⟨hlive, hlength⟩ := Solver.transfer_of_allocates hmeasure hallocates h (by simp)
    by_cases hstart : n = problem.start
    · subst hstart
      exact .inl (.first hallocates hlength)
    · obtain ⟨a, hflows, hsome⟩ :=
        exists_flows_of_inputOf hmeasure hstart (hlive.resolve_left hstart)
      obtain ⟨l', hl'⟩ := (hall a).exists_lengthsFrom hsome
      exact .inl (hl'.replaced hflows hallocates hlength)
  | false =>
    rw [Solver.transfer_of_keeps hmeasure hallocates h]
    exact accounted_inputOf hmeasure hseed hwf hall hallocates

/-- Once a start that gives the array a length has been visited, all stored values are accounted
for. -/
theorem accounted_of_reachable {p : Progress} (h : problem.solver.Reachable p) :
    problem.graph.allocates problem.name problem.start = true ∧ p = problem.solver.initial ∨
      ∀ n, problem.Accounted n (p.general.valueOf n) := by
  have hs := solver_wellFormed hseed
  refine Solver.Reachable.induction (motive := fun p =>
    problem.graph.allocates problem.name problem.start = true ∧ p = problem.solver.initial ∨
      ∀ n, problem.Accounted n (p.general.valueOf n)) ?_ ?_ h
  · cases hallocates : problem.graph.allocates problem.name problem.start with
    | true => exact .inl ⟨rfl, rfl⟩
    | false =>
      refine .inr fun n => ?_
      rw [Store.valueOf, Solver.get?_initial]
      split
      · rename_i hstart
        intro l u hvalue
        subst hstart
        exact .inl (.seed hallocates hvalue)
      · exact .bottom n
  · rintro p node q hp (⟨hallocates, rfl⟩ | hall) hvisits
    · -- the seed, which need not be a length of the array, is replaced
      obtain ⟨-, output, houtput, hstored⟩ := Solver.first_visit hs hvisits
      refine .inr fun n => ?_
      rw [Store.valueOf, hstored]
      split
      · rename_i hstart
        subst hstart
        rintro l u rfl
        obtain ⟨-, hlength⟩ := Solver.transfer_of_allocates hmeasure hallocates houtput (by simp)
        exact .inl (.first hallocates hlength)
      · exact .bottom n
    · have hwf := (hp.computed hs).wellFormed
      refine .inr (hvisits.stored hs hp hall (fun output houtput => ?_) ?_ ?_)
      · exact accounted_transfer hmeasure hseed hwf hall houtput
      · intro old output holdwf houtwf hold hout
        exact hold.widen (hold.join hout holdwf houtwf)
      · exact fun old output hold hout => hold.narrow hout

end LowerEnds

/-! ## Results of runs on lengths -/

section Results

variable {problem : Problem} (hmeasure : problem.measure = .arrayLength)
variable (hlists : problem.graph.ListsFit) (hseed : problem.seed.isWithin (.atLeast 0) = true)
variable {visits : Nat} {p : Progress}
variable (hsettled : problem.solver.iterate visits problem.solver.initial = .settled p)

include hmeasure hlists hseed hsettled

/-- Where lengths leave with one lower end only, nothing negative is stored at the end. -/
theorem valueOf_isWithin_of_not_mixed {n : NodeId} (hn : ¬ problem.Mixed n) :
    (p.general.valueOf n).isWithin (.atLeast 0) = true := by
  have hwf := Interval.wellFormed_of_isWithin hseed
  have hcomputed := Solver.computed_of_settled (solver_wellFormed hwf) hsettled
  obtain ⟨hreachable, hpop⟩ := Solver.iterate_settled (.initial _) hsettled
  rcases accounted_of_reachable hmeasure hwf hreachable with ⟨-, rfl⟩ | hall
  · cases hpop
  · cases hvalue : p.general.valueOf n with
    | bottom => exact Interval.bottom_isWithin _
    | bounded l u =>
      have hl := ((hall n l u hvalue).resolve_right hn).nonneg hseed hlists
      have hlu := hcomputed.wellFormed.valueOf n
      rw [hvalue] at hlu
      exact Interval.bounded_isWithin_bounded.mpr ⟨hlu, Bound.le_posInf _, hl, Bound.le_posInf u⟩

/-- If no cycle of nodes that keep the length, with different lengths coming around it, leads to `n`
through such nodes, nothing negative is stored at `n`. -/
theorem valueOf_isWithin_of_no_mixed_cycle {n : NodeId}
    (hcycle : ¬ ∃ m, problem.Mixed m ∧ Relation.TransGen problem.Carries m m ∧
      Relation.ReflTransGen problem.Carries m n) :
    (p.general.valueOf n).isWithin (.atLeast 0) = true := by
  have hs := solver_wellFormed (Interval.wellFormed_of_isWithin hseed)
  have hcomputed := Solver.computed_of_settled hs hsettled
  have hunmixed {m : NodeId} (hm : ¬ problem.Mixed m) :
      (p.general.valueOf m).isWithin (.atLeast 0) = true :=
    valueOf_isWithin_of_not_mixed hmeasure hlists hseed hsettled hm
  -- going back from `n` along nodes that different lengths leave comes to an end
  let r (a b : NodeId) : Prop := problem.Mixed a ∧ problem.Carries a b ∧
    Relation.ReflTransGen problem.Carries b n
  have hwf : WellFounded r := by
    have hedges (a b : NodeId) (hab : r a b) : b ∈ problem.graph.next a := hab.2.1.1.1
    refine Graph.wellFounded_of_edges hedges fun m hm => ?_
    obtain ⟨b, ⟨hmixed, hedge, hpath⟩, -⟩ := Relation.TransGen.head'_iff.mp hm
    have hcarries : r ≤ problem.Carries := fun a b hab => hab.2.1
    exact hcycle ⟨m, hmixed, Relation.TransGen.mono hcarries m m hm, .head hedge hpath⟩
  have hall (m : NodeId) (hpath : Relation.ReflTransGen problem.Carries m n) :
      (p.general.valueOf m).isWithin (.atLeast 0) = true := by
    induction m using hwf.induction with
    | _ m ih =>
      by_cases hmixed : problem.Mixed m
      · refine Solver.valueOf_isWithin hmeasure hs hlists hseed hsettled hmixed.reaches
          fun output houtput => ?_
        rw [Solver.transfer_of_keeps hmeasure hmixed.keeps houtput]
        refine Solver.inputOf_not_negative hmeasure hseed hcomputed.wellFormed
          fun source hsource hpropagates => ?_
        by_cases hsourceMixed : problem.Mixed source
        · have hflows := flows_iff.mpr ⟨hpropagates, Draft.mem_prev.mp hsource⟩
          have hedge : problem.Carries source m := ⟨hflows, hsourceMixed.keeps, hmixed.keeps⟩
          exact ih source ⟨hsourceMixed, hedge, hpath⟩ (.head hedge hpath)
        · exact hunmixed hsourceMixed
      · exact hunmixed hmixed
  exact hall n .refl

end Results

/-- Stored lengths have no negative ends. Where a lower end is open, lengths with different lower
ends come around a cycle of nodes that keep the length of the array, and this cycle leads to the
node through more such nodes; all other stored lengths are not negative. What is stored at the
target is what an evaluation answers with. -/
theorem solve_lengths {problem : Problem} {limit : Option Nat} {solution : Solution}
    (hmeasure : problem.measure = .arrayLength) (hlists : problem.graph.ListsFit)
    (hseed : problem.seed.isWithin (.atLeast 0) = true) (h : problem.solve limit = .ok solution) :
    (∀ n, (solution.state.intervalOf n).IsLength ∧
      ((¬ ∃ m, problem.Mixed m ∧ Relation.TransGen problem.Carries m m ∧
          Relation.ReflTransGen problem.Carries m n) →
        (solution.state.intervalOf n).isWithin (.atLeast 0) = true)) ∧
    ∀ e, Evaluation.run problem limit = .ok e →
      e.value = solution.state.intervalOf problem.target := by
  obtain ⟨p, hsettled, hgeneral⟩ := solve_eq_ok h
  have hs := solver_wellFormed (Interval.wellFormed_of_isWithin hseed)
  have hreachable := (Solver.iterate_settled (.initial _) hsettled).1
  refine ⟨fun n => ?_, fun e he => ?_⟩
  · rw [FlowState.intervalOf, hgeneral]
    exact ⟨hreachable.lengths hmeasure hs hlists (.of_isWithin hseed) n,
      valueOf_isWithin_of_no_mixed_cycle hmeasure hlists hseed hsettled⟩
  · obtain ⟨solution', hsolve, rfl⟩ := Evaluation.exists_solution_of_run he
    rw [h] at hsolve
    cases hsolve
    rfl

/-! ## Two loops that may give an array a new length

`int[] a = {1, 2, 3}; while (f()) { if (g()) a = new int[3]; } a` -/

def refilling : Graph where
  kinds := #[.literal (some 1), .literal (some 2), .literal (some 3), .initializerList [0, 1, 2],
    .declaration "a" "int[]" (some 3), .call "f" [], .whileLoop 5, .call "g" [], .branch 7,
    .reference "a" "int[]" (some 4), .literal (some 3), .arrayCreation (some 10),
    .assignment .assign 9 11, .reference "a" "int[]" (some 4)]
  edges := [⟨4, 5, none⟩, ⟨5, 6, none⟩, ⟨6, 7, none⟩, ⟨7, 8, none⟩, ⟨8, 12, none⟩, ⟨8, 5, none⟩,
    ⟨12, 5, none⟩, ⟨6, 13, none⟩]
  faultless := by decide +kernel

def refillingProblem : Problem := ⟨refilling, .arrayLength, "a", 4, 13, .bottom⟩

theorem refilling_listsFit : refilling.ListsFit := by
  intro n elements hkind
  have hn : n < 14 := (Array.getElem?_eq_some_iff.mp hkind).1
  interval_cases n <;> cases hkind
  decide

theorem refilling_lengthsFrom {l : Bound} {n : NodeId} (h : refillingProblem.LengthsFrom l n) :
    l = .fin 3 := by
  have hallocation {n : NodeId} {l u : Bound} (hallocates : refilling.allocates "a" n = true)
      (hlength : refillingProblem.allocation n = .ok (.bounded l u)) : l = .fin 3 := by
    have hn : n < 14 := by
      by_contra hn
      have hkind : refilling.kind? n = none := Array.getElem?_eq_none (not_lt.mp hn)
      rw [Graph.allocates, hkind] at hallocates
      cases hallocates
    have hlengths : ∀ n < 14, refilling.allocates "a" n = true →
        (refillingProblem.allocation n).toOption = some (.constant 3) := by
      decide +kernel
    have hthree := hlengths n hn hallocates
    rw [hlength] at hthree
    cases hthree
    rfl
  induction h with
  | seed _ hseed => cases hseed
  | first hallocates hlength => exact hallocation hallocates hlength
  | replaced _ _ hallocates hlength _ => exact hallocation hallocates hlength
  | kept _ _ _ ih => exact ih

/-- The array keeps its length on a way around the loop, but all lengths begin at the same end. -/
theorem refilling_length : Relation.TransGen refillingProblem.Carries 5 5 ∧
    ∃ solution, refillingProblem.solve none = .ok solution ∧
      solution.state.intervalOf 13 = .constant 3 ∧
      (solution.state.intervalOf 13).isWithin (.atLeast 0) = true := by
  have hcarries {a b : NodeId} (hedge : b ∈ refilling.next a) (hne : a ≠ 13)
      (ha : refilling.allocates "a" a = false) (hb : refilling.allocates "a" b = false) :
      refillingProblem.Carries a b := ⟨⟨hedge, fun h => hne h.1⟩, ha, hb⟩
  have hsolved : (refillingProblem.solve none).toOption.any (fun solution =>
      solution.state.intervalOf 13 = .constant 3) = true := by
    decide +kernel
  obtain ⟨solution, hsolve, hvalue⟩ := exists_ok_of_any hsolved
  obtain ⟨hlengths, -⟩ := solve_lengths rfl refilling_listsFit (by decide) hsolve
  refine ⟨?_, solution, hsolve, of_decide_eq_true hvalue, (hlengths 13).2 ?_⟩
  · have h₁ := hcarries (a := 5) (b := 6) (by decide) (by decide) (by decide) (by decide)
    have h₂ := hcarries (a := 6) (b := 7) (by decide) (by decide) (by decide) (by decide)
    have h₃ := hcarries (a := 7) (b := 8) (by decide) (by decide) (by decide) (by decide)
    have h₄ := hcarries (a := 8) (b := 5) (by decide) (by decide) (by decide) (by decide)
    exact .tail (.tail (.tail (.single h₁) h₂) h₃) h₄
  · rintro ⟨m, ⟨l, l', hne, hl, hl'⟩, -⟩
    exact hne ((refilling_lengthsFrom hl).trans (refilling_lengthsFrom hl').symm)

/-! `int[] a = new int[5]; while (f()) { if (g()) a = new int[3]; } a` -/

def shrinking : Graph where
  kinds := #[.literal (some 5), .arrayCreation (some 0), .declaration "a" "int[]" (some 1),
    .call "f" [], .whileLoop 3, .call "g" [], .branch 5, .reference "a" "int[]" (some 2),
    .literal (some 3), .arrayCreation (some 8), .assignment .assign 7 9,
    .reference "a" "int[]" (some 2)]
  edges := [⟨2, 3, none⟩, ⟨3, 4, none⟩, ⟨4, 5, none⟩, ⟨5, 6, none⟩, ⟨6, 10, none⟩, ⟨6, 3, none⟩,
    ⟨10, 3, none⟩, ⟨4, 11, none⟩]
  faultless := by decide +kernel

def shrinkingProblem : Problem := ⟨shrinking, .arrayLength, "a", 2, 11, .bottom⟩

/-- The way around the loop that keeps the length keeps the open end, too. -/
theorem shrinking_open_end : shrinkingProblem.seed.isWithin (.atLeast 0) = true ∧
    ∃ e, Evaluation.run shrinkingProblem none = .ok e ∧ e.value = .atMost 5 ∧
      e.value.isWithin (.atLeast 0) = false := by
  have hran : (Evaluation.run shrinkingProblem none).toOption.any
      (fun e => e.value = .atMost 5) = true := by
    decide +kernel
  obtain ⟨e, hrun, hvalue⟩ := exists_ok_of_any hran
  have hvalue := of_decide_eq_true hvalue
  refine ⟨by decide, e, hrun, hvalue, ?_⟩
  rw [hvalue]
  decide

end Problem

end IntervalFlow
