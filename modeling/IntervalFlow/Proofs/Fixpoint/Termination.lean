import IntervalFlow.Proofs.Effect.CountedLoop
import IntervalFlow.Proofs.Fixpoint.Limit
import IntervalFlow.Proofs.Fixpoint.PostFixpoint
import Mathlib.Algebra.BigOperators.Ring.Finset
import Mathlib.Algebra.Order.BigOperators.Group.Finset

/-!
# Termination

On a graph without cycles every run ends, loop heads or not. A node that waits is visited at most
twice until something new reaches it: a first visit leaves a value that covers the output, and if it
lines the node up again, then only to be narrowed, after which it no longer waits (`turns`). What a
visit costs in turns of successors, the weight of its node pays for, so that the `load` of all
waiting nodes falls with every visit.
-/

namespace IntervalFlow

/-! ## Weights -/

namespace Graph

variable {g : Graph} {n m : NodeId}

/-- One more than two times the weights of all successors, as far as `depth` edges lead. -/
def weightWithin (g : Graph) : (depth : Nat) → NodeId → Nat
  | 0, _ => 1
  | depth + 1, n => 1 + 2 * ∑ m ∈ (g.next n).toFinset, g.weightWithin depth m

/-- The weight along all paths, none of which is longer than the graph is large if there are no
cycles. -/
def weight (g : Graph) (n : NodeId) : Nat := g.weightWithin g.size n

theorem nodup_reach (g : Graph) (step : NodeId → List NodeId) (n : NodeId) :
    (g.reach step n).Nodup := List.nodup_range.filter _

/-- Fewer nodes can be reached after an edge than before it. -/
theorem length_reach_lt (hn : ¬ g.Cyclic n) (hedge : m ∈ g.next n) :
    (g.reach g.next m).length < (g.reach g.next n).length := by
  have hnodup : (n :: g.reach g.next m).Nodup := by
    refine List.nodup_cons.mpr ⟨fun hback => ?_, nodup_reach g g.next m⟩
    exact hn (Relation.TransGen.head' hedge (mem_reach_next.mp hback).2)
  have hsub : n :: g.reach g.next m ⊆ g.reach g.next n := by
    intro k hk
    rcases List.mem_cons.mp hk with rfl | hk
    · exact mem_reach_next.mpr ⟨(lt_size_of_mem_next hedge).1, .refl⟩
    · obtain ⟨hsize, hpath⟩ := mem_reach_next.mp hk
      exact mem_reach_next.mpr ⟨hsize, .head hedge hpath⟩
  exact (List.subperm_of_subset hnodup hsub).length_le

/-- Once `depth` edges lead as far as possible, more of them make no difference. -/
theorem weightWithin_succ (hacyclic : ∀ n, ¬ g.Cyclic n) {depth : Nat}
    (h : (g.reach g.next n).length ≤ depth) :
    g.weightWithin (depth + 1) n = g.weightWithin depth n := by
  induction depth generalizing n with
  | zero =>
    have hnone : g.next n = [] := by
      rw [List.eq_nil_iff_forall_not_mem]
      intro m hedge
      have hlt := length_reach_lt (hacyclic n) hedge
      omega
    simp only [weightWithin, hnone, List.toFinset_nil, Finset.sum_empty, Nat.mul_zero]
  | succ depth ih =>
    rw [weightWithin, weightWithin]
    congr 2
    refine Finset.sum_congr rfl fun m hm => ih ?_
    have hlt := length_reach_lt (hacyclic n) (List.mem_toFinset.mp hm)
    omega

theorem weight_eq (hacyclic : ∀ n, ¬ g.Cyclic n) (n : NodeId) :
    g.weight n = 1 + 2 * ∑ m ∈ (g.next n).toFinset, g.weight m := by
  have hlength : (g.reach g.next n).length ≤ g.size :=
    (List.length_filter_le _ _).trans List.length_range.le
  exact (weightWithin_succ hacyclic hlength).symm

end Graph

namespace Solver

variable {s : Solver}

/-! ## Turns -/

/-- On a node that lies on no cycle there is no counted loop, so its output depends on its input
only. -/
theorem transfer_congr_of_not_cyclic {node : NodeId} (h : ¬ s.graph.Cyclic node)
    (general general' : Store NodeId) (input : Interval) :
    s.transfer general node input = s.transfer general' node input := by
  by_cases hsum : s.Summarized node
  · obtain ⟨hinteger, initializer, condition, iteration, hkind⟩ := hsum
    have hnone : CountedLoop.find? s.graph s.name node = none := by
      rw [Option.eq_none_iff_forall_ne_some]
      exact fun loop hloop => h (CountedLoop.cyclic_of_find? hloop)
    have heffect (general : Store NodeId) :
        s.measure.effect (s.context general) input node = .ok input := by
      rw [hinteger, Measure.effect, Context.integerEffect,
        show (s.context general).graph.kind? node = _ from hkind]
      simp only [context, hnone]
    rw [transfer, transfer, heffect, heffect]
  · exact transfer_congr hsum general general' input

/-- Whether the output of a node lies within what is stored. -/
def covers (s : Solver) (general : Store NodeId) (n : NodeId) : Bool :=
  (s.transfer general n (s.inputOf general n)).toOption.any (·.isWithin (general.valueOf n))

/-- The node is to be narrowed and its output lies within what is stored, so that a visit does not
line it up again. -/
def LastTurn (s : Solver) (p : Progress) (n : NodeId) : Prop :=
  p.statusOf n = .narrowing ∧ s.covers p.general n = true

instance (s : Solver) (p : Progress) (n : NodeId) : Decidable (s.LastTurn p n) :=
  inferInstanceAs (Decidable (_ ∧ _))

/-- How often a node can be visited before something new reaches it. -/
def turns (s : Solver) (p : Progress) (n : NodeId) : Nat :=
  if n ∉ p.queue.queued then 0
  else if s.LastTurn p n then 1
  else 2

theorem turns_le_two (p : Progress) (n : NodeId) : s.turns p n ≤ 2 := by
  unfold turns
  split_ifs <;> omega

theorem turns_of_not_mem {p : Progress} {n : NodeId} (h : n ∉ p.queue.queued) :
    s.turns p n = 0 := if_pos h

theorem turns_pos {p : Progress} {n : NodeId} (h : n ∈ p.queue.queued) : 0 < s.turns p n := by
  unfold turns
  rw [if_neg (not_not.mpr h)]
  split_ifs <;> omega

theorem turns_eq_two {p : Progress} {n : NodeId} (hqueued : n ∈ p.queue.queued)
    (h : ¬ s.LastTurn p n) : s.turns p n = 2 := by
  unfold turns
  rw [if_neg (not_not.mpr hqueued), if_neg h]

theorem turns_le_one {p : Progress} {n : NodeId} (h : s.LastTurn p n) : s.turns p n ≤ 1 := by
  unfold turns
  rw [if_pos h]
  split_ifs <;> omega

/-- Turns do not grow as long as the node is not lined up anew and its last turn stays the last. -/
theorem turns_le {p q : Progress} {n : NodeId} (hqueued : n ∈ q.queue.queued → n ∈ p.queue.queued)
    (hlast : n ∈ q.queue.queued → s.LastTurn p n → s.LastTurn q n) :
    s.turns q n ≤ s.turns p n := by
  by_cases hn : n ∈ q.queue.queued
  · by_cases hp : s.LastTurn p n
    · exact (turns_le_one (hlast hn hp)).trans (turns_pos (hqueued hn))
    · rw [turns_eq_two (hqueued hn) hp]
      exact turns_le_two q n
  · rw [turns_of_not_mem hn]
    exact Nat.zero_le _

/-! ## One visit -/

theorem covers_congr {general general' : Store NodeId} {n : NodeId} (hn : ¬ s.graph.Cyclic n)
    (hvalue : general.get? n = general'.get? n)
    (hprev : ∀ source ∈ s.graph.prev n, general.get? source = general'.get? source) :
    s.covers general n = s.covers general' n := by
  rw [covers, covers, inputOf_congr fun source hsource _ => hprev source hsource,
    transfer_congr_of_not_cyclic hn general general', Store.valueOf, Store.valueOf, hvalue]

/-- A node that is to be narrowed is not lined up again if its output lies within what is stored. -/
theorem step_queue {p : Progress} {node : NodeId} {output : Interval}
    (h : output.isWithin (p.general.valueOf node) = true) :
    (s.step p node .narrowing output).progress.queue = p.queue := by
  have hfinish (p : Progress) : (s.finish p node).queue = p.queue := by
    unfold finish
    split <;> rfl
  have hplain (stored : Option Interval) :
      (s.plainStep p node .narrowing stored output).progress.queue = p.queue := by
    simp only [plainStep, reduceCtorEq, if_false]
    split
    · exact hfinish _
    · rfl
  cases hstored : p.general.get? node with
  | none =>
    simp only [step, hstored]
    exact hplain none
  | some stored =>
    rw [Store.valueOf, hstored, Option.getD_some] at h
    cases stored with
    | bottom =>
      simp only [step, hstored]
      exact hplain _
    | bounded lower upper =>
      simp only [step, hstored, narrowStep, h, if_true]
      split
      · exact promoteAll_queue ..
      · exact hfinish p

/-- A visit lines its own node up again only to narrow it, and only if it was not the last turn. -/
theorem visit_requeues {p q : Progress} {node : NodeId} (hself : node ∉ s.graph.next node)
    (hfresh : node ∉ p.queue.queued) (hvisit : s.visit p node = .ok q)
    (hqueued : node ∈ q.queue.queued) : q.statusOf node = .narrowing ∧ ¬ s.LastTurn p node := by
  rcases visit_cases hvisit with ⟨-, -, hsettles⟩ |
    ⟨status, o, output, hopens, houtput, hpropagates⟩
  · rw [hsettles.queue] at hqueued
    exact absurd hqueued hfresh
  · have hlined : node ∈ (s.step o node status output).progress.queue.queued := by
      rcases (hpropagates.queued node).mp hqueued with hlined | ⟨-, hnext, -⟩
      · exact hlined
      · exact absurd hnext hself
    constructor
    · rw [hpropagates.statusOf]
      rcases (hopens.advances output).queue with hsame | ⟨-, hstatus⟩
      · rw [hsame, hopens.queue] at hlined
        exact absurd hlined hfresh
      · exact hstatus
    · rintro ⟨hnarrowing, hcovers⟩
      have hstatus : status = .narrowing := by
        rw [← hopens.status_eq]
        rcases hopens.reopened with hsame | ⟨hdone, -, -⟩
        · rw [hsame, hnarrowing]
        · rw [hdone] at hnarrowing
          cases hnarrowing
      rw [covers, houtput] at hcovers
      rw [hstatus, step_queue (hopens.general ▸ hcovers), hopens.queue] at hlined
      exact hfresh hlined

section Visit

variable (hs : s.WellFormed) (hacyclic : ∀ n, ¬ s.graph.Cyclic n)
variable {p q : Progress} {node : NodeId} (hp : s.Reachable p) (hvisits : s.Visits p node q)

include hs hacyclic hp hvisits

/-- A visit takes a turn from its node. -/
theorem turns_lt_of_visits : s.turns q node < s.turns p node := by
  obtain ⟨queue, hpop, hvisit⟩ := hvisits
  obtain ⟨-, hfresh, hqueued, -⟩ := hp.disciplined.queue.pop hpop
  have hpopped := (hp.computed hs).requeue queue (p.visits + 1)
  have hwaits : node ∈ p.queue.queued := (hqueued node).mpr (.inl rfl)
  by_cases hagain : node ∈ q.queue.queued
  · have hself : node ∉ s.graph.next node := fun hedge => hacyclic node (.single hedge)
    obtain ⟨hstatus, hlast⟩ := visit_requeues hself hfresh hvisit hagain
    have hcovers : s.covers q.general node = true := by
      rcases visit_updates hs hpopped.wellFormed hvisit with
        ⟨-, -, hsettles⟩ | ⟨value, hupdates⟩
      · rw [hsettles.queue] at hagain
        exact absurd hagain hfresh
      · obtain ⟨output, houtput, hwithin⟩ := hupdates.covers
        -- the value of the node does not flow back to it
        have hinput : s.inputOf q.general node = s.inputOf p.general node := by
          refine inputOf_congr fun source hsource _ => ?_
          rw [hupdates.general, if_neg]
          rintro rfl
          exact hself (Draft.mem_prev.mp hsource)
        rw [covers, hinput, transfer_congr_of_not_cyclic (hacyclic node) q.general p.general,
          houtput, Store.valueOf, hupdates.general, if_pos rfl]
        exact hwithin
    rw [turns_eq_two hwaits hlast]
    exact Nat.lt_succ_of_le (turns_le_one ⟨hstatus, hcovers⟩)
  · rw [turns_of_not_mem hagain]
    exact turns_pos hwaits

/-- Only nodes that come next gain turns in a visit. -/
theorem turns_le_of_visits {n : NodeId} (hne : n ≠ node) (hnext : n ∉ s.graph.next node) :
    s.turns q n ≤ s.turns p n := by
  obtain ⟨queue, hpop, hvisit⟩ := hvisits
  obtain ⟨-, -, hqueued, -⟩ := hp.disciplined.queue.pop hpop
  have hpopped := (hp.computed hs).requeue queue (p.visits + 1)
  rcases visit_updates hs hpopped.wellFormed hvisit with
    ⟨-, -, hsettles⟩ | ⟨value, hupdates⟩
  · have hold : n ∈ q.queue.queued → n ∈ queue.queued := by
      rw [hsettles.queue]
      exact id
    refine turns_le (fun hn => (hqueued n).mpr (.inr (hold hn))) fun hn hlast => ?_
    rcases hsettles.settled n with hsame | ⟨-, -, -, hfree⟩
    · exact ⟨hsame.trans hlast.1, hsettles.general ▸ hlast.2⟩
    · exact absurd (hold hn) hfree
  · have hold (hn : n ∈ q.queue.queued) : n ∈ queue.queued := by
      rcases hupdates.lined n hn with hn | hn | ⟨-, hn⟩
      · exact hn
      · exact absurd hn hne
      · exact absurd hn hnext
    have hother {m : NodeId} (hm : m ≠ node) : q.general.get? m = p.general.get? m := by
      rw [hupdates.general, if_neg hm]
    have hsame : s.covers q.general n = s.covers p.general n := by
      refine covers_congr (hacyclic n) (hother hne) fun source hsource => hother ?_
      rintro rfl
      exact hnext (Draft.mem_prev.mp hsource)
    refine turns_le (fun hn => (hqueued n).mpr (.inr (hold hn))) fun hn hlast => ?_
    exact ⟨hupdates.narrowing n hne hlast.1, hsame ▸ hlast.2⟩

/-- In one visit, its node loses a turn and only nodes that come next gain any, at most two. -/
theorem turns_add_le_of_visits (n : NodeId) :
    s.turns q n + (if n = node then 1 else 0) ≤
      s.turns p n + (if n ∈ s.graph.next node then 2 else 0) := by
  by_cases hne : n = node
  · rw [if_pos hne, hne]
    exact (turns_lt_of_visits hs hacyclic hp hvisits).trans_le (Nat.le_add_right _ _)
  · rw [if_neg hne, Nat.add_zero]
    by_cases hnext : n ∈ s.graph.next node
    · rw [if_pos hnext]
      exact (turns_le_two q n).trans (Nat.le_add_left _ _)
    · rw [if_neg hnext, Nat.add_zero]
      exact turns_le_of_visits hs hacyclic hp hvisits hne hnext

end Visit

/-! ## Loads -/

/-- The nodes that can ever wait. -/
def carrier (s : Solver) : Finset NodeId := insert s.start (Finset.range s.graph.size)

/-- The turns of all nodes, by weight. -/
def load (s : Solver) (p : Progress) : Nat :=
  ∑ n ∈ s.carrier, s.turns p n * s.graph.weight n

theorem Reaches.mem_carrier {n : NodeId} (h : s.Reaches n) : n ∈ s.carrier := by
  rw [carrier, Finset.mem_insert, Finset.mem_range]
  cases h with
  | refl => exact .inl rfl
  | tail _ hedge => exact .inr (Graph.lt_size_of_mem_next hedge.2).2

theorem mem_carrier_of_pop (hs : s.WellFormed) {p : Progress} {node : NodeId} {queue : Queue}
    (hp : s.Reachable p) (hpop : p.queue.pop? = some (node, queue)) :
    node ∈ p.queue.queued ∧ node ∈ s.carrier := by
  have hwaits := ((hp.disciplined.queue.pop hpop).2.2.1 node).mpr (.inl rfl)
  exact ⟨hwaits, ((hp.computed hs).reached node (.inr hwaits)).mem_carrier⟩

theorem load_initial : s.load s.initial ≤ 2 * s.graph.weight s.start := by
  have hothers : ∀ n ∈ s.carrier, n ≠ s.start →
      s.turns s.initial n * s.graph.weight n = 0 := by
    intro n _ hn
    rw [turns_of_not_mem fun hqueued => hn (mem_queued_initial.mp hqueued), Nat.zero_mul]
  have hstart : s.start ∈ s.carrier := Finset.mem_insert_self _ _
  rw [load, Finset.sum_eq_single_of_mem s.start hstart hothers]
  exact Nat.mul_le_mul_right _ (turns_le_two ..)

section Acyclic

variable (hs : s.WellFormed) (hacyclic : ∀ n, ¬ s.graph.Cyclic n)
variable {p q : Progress} {node : NodeId} (hp : s.Reachable p)

include hs hacyclic hp

theorem load_pos {queue : Queue} (hpop : p.queue.pop? = some (node, queue)) : 0 < s.load p := by
  obtain ⟨hwaits, hmem⟩ := mem_carrier_of_pop hs hp hpop
  have hweight : 0 < s.graph.weight node := by
    rw [Graph.weight_eq hacyclic]
    omega
  calc 0 < s.turns p node * s.graph.weight node := Nat.mul_pos (turns_pos hwaits) hweight
    _ ≤ s.load p :=
      Finset.single_le_sum (f := fun n => s.turns p n * s.graph.weight n)
        (fun _ _ => Nat.zero_le _) hmem

/-- The weight of the visited node is more than what its successors gain. -/
theorem load_lt_of_visits (hvisits : s.Visits p node q) : s.load q < s.load p := by
  have hmem : node ∈ s.carrier := by
    obtain ⟨queue, hpop, -⟩ := hvisits
    exact (mem_carrier_of_pop hs hp hpop).2
  have hgained : ∑ n ∈ s.carrier, (if n ∈ s.graph.next node then 2 * s.graph.weight n else 0) ≤
      2 * ∑ n ∈ (s.graph.next node).toFinset, s.graph.weight n := by
    rw [← Finset.sum_filter, Finset.mul_sum]
    refine Finset.sum_le_sum_of_subset fun n hn => ?_
    exact List.mem_toFinset.mpr (Finset.mem_filter.mp hn).2
  have hsum : s.load q + s.graph.weight node ≤
      s.load p + ∑ n ∈ s.carrier, (if n ∈ s.graph.next node then 2 * s.graph.weight n else 0) := by
    have hall := Finset.sum_le_sum fun n (_ : n ∈ s.carrier) =>
      Nat.mul_le_mul_right (s.graph.weight n) (turns_add_le_of_visits hs hacyclic hp hvisits n)
    simpa only [load, Nat.add_mul, ite_mul, Nat.one_mul, Nat.zero_mul, Finset.sum_add_distrib,
      Finset.sum_ite_eq', hmem, if_true] using hall
  rw [Graph.weight_eq hacyclic node] at hsum
  omega

/-! ## Whole runs -/

/-- As many visits as the load are enough. -/
theorem iterate_ne_exhausted {visits : Nat} (h : s.load p ≤ visits) :
    s.iterate visits p ≠ .exhausted := by
  induction visits generalizing p with
  | zero =>
    cases hpop : p.queue.pop? with
    | none =>
      rw [iterate_of_pop_none hpop]
      nofun
    | some next =>
      have hpos := load_pos hs hacyclic hp hpop
      omega
  | succ visits ih =>
    cases hpop : p.queue.pop? with
    | none =>
      rw [iterate_of_pop_none hpop]
      nofun
    | some next =>
      obtain ⟨node, queue⟩ := next
      cases hvisit : s.visit { p with queue, visits := p.visits + 1 } node with
      | error cause =>
        rw [iterate_of_error hpop hvisit]
        nofun
      | ok q =>
        have hvisits : s.Visits p node q := ⟨queue, hpop, hvisit⟩
        have hlt := load_lt_of_visits hs hacyclic hp hvisits
        rw [iterate_of_visits hvisits]
        exact ih (hp.visit hvisits) (by omega)

end Acyclic

end Solver

namespace Problem

/-- On a graph without cycles, whether it has loop heads or not, every run ends. The number of its
visits is bounded by the weight of the start, an error is one of the effect of a node, and the
answer is the same under every limit that permits as many visits. -/
theorem solve_terminates {problem : Problem} (hacyclic : ∀ n, ¬ problem.graph.Cyclic n)
    (hseed : problem.seed.WellFormed) :
    ∃ n answer, n ≤ 2 * problem.graph.weight problem.start ∧ problem.Concludes n answer ∧
      (∀ cause, answer = .error cause → ∃ general input node,
        problem.measure.effect (problem.solver.context general) input node = .error cause) ∧
      ∀ limit, n ≤ permittedVisits limit → problem.solve limit = answer := by
  have hs := solver_wellFormed hseed
  have hrun := Solver.iterate_ne_exhausted hs hacyclic (.initial problem.solver) le_rfl
  obtain ⟨n, hn, answer, hconcludes⟩ := exists_concludes_of_iterate hrun
  refine ⟨n, answer, hn.trans Solver.load_initial, hconcludes, ?_, fun limit hlimit => ?_⟩
  · rintro cause rfl
    exact hconcludes.effect_error
  · rw [hconcludes.solve_eq limit, if_pos hlimit]

/-! ### A loop that is left in its first trip

`int x; if (x < 3) { x = 1; x++; } while (x < 3) { x++; break; } x` -/

def leaving : Graph where
  kinds := #[.declaration "x" "int" none, .reference "x" "int" (some 0), .literal (some 3),
    .binary .lt 1 2, .branch 3, .literal (some 1), .assignment .assign 1 5, .unary .increment 1,
    .whileLoop 3, .unary .increment 1, .reference "x" "int" (some 0)]
  edges := [⟨0, 3, none⟩, ⟨3, 4, none⟩, ⟨4, 6, none⟩, ⟨4, 8, none⟩, ⟨6, 7, none⟩, ⟨7, 8, none⟩,
    ⟨8, 9, none⟩, ⟨8, 10, none⟩, ⟨9, 10, none⟩]
  faultless := by decide +kernel

def leavingProblem : Problem := ⟨leaving, .integer, "x", 0, 10, .bottom⟩

/-- What follows the branch is visited three times, since the loop head is widened when the longer
way arrives and narrowed afterwards. -/
theorem leaving_terminates : leaving.isLoopHead 8 = true ∧ leaving.weight 0 = 391 ∧
    ∃ solution, leavingProblem.solve none = .ok solution ∧ solution.visits = 14 ∧
      14 ≤ 2 * leaving.weight 0 ∧ leavingProblem.Concludes 14 (.ok solution) := by
  have hacyclic (n : NodeId) : ¬ leavingProblem.graph.Cyclic n := by
    have hnone : leavingProblem.graph.cyclicNodes = [] := by decide +kernel
    rw [← Graph.mem_cyclicNodes, hnone]
    exact List.not_mem_nil
  have hweight : leaving.weight 0 = 391 := by decide +kernel
  obtain ⟨n, answer, hn, hconcludes, -, hanswer⟩ :=
    solve_terminates hacyclic (show leavingProblem.seed.WellFormed from trivial)
  change n ≤ 2 * leaving.weight 0 at hn
  have hnone : leavingProblem.solve none = answer := by
    refine hanswer none (hn.trans ?_)
    rw [hweight]
    decide
  have hsolved : (leavingProblem.solve none).toOption.any (fun solution =>
      solution.visits = 14) = true := by
    decide +kernel
  obtain ⟨solution, hsolve, hvisits⟩ := exists_ok_of_any hsolved
  obtain rfl : answer = .ok solution := hnone.symm.trans hsolve
  obtain rfl : n = 14 := hconcludes.visits.symm.trans (of_decide_eq_true hvisits)
  exact ⟨by decide +kernel, hweight, solution, hsolve, hconcludes.visits, hn, hconcludes⟩

end Problem

end IntervalFlow
