import IntervalFlow.Fixpoint.Solver
import IntervalFlow.Proofs.Fixpoint.Progress
import IntervalFlow.Proofs.Interval.Lattice

/-!
# Steps — what a step of the solver can do

A step stores a value that covers the output of its node (`Stores`) and moves statuses up
(`Advances`). These two descriptions are all that the invariants of a run use of the three kinds of
steps.
-/

namespace IntervalFlow.Solver

/-- How a step comes to the value it leaves behind: it takes the output, or what was stored, as it
is or widened or narrowed by the output. -/
inductive Revises (stored : Option Interval) (output : Interval) : Interval → Prop where
  | takes : Revises stored output output
  | keeps {old : Interval} (h : stored = some old) : Revises stored output old
  | widens {old : Interval} (h : stored = some old) :
    Revises stored output (old.widen (old.join output))
  | narrows {old : Interval} (h : stored = some old) (hwithin : output.isWithin old = true) :
    Revises stored output (old.narrow output)

/-- `value` is what the step leaves behind for its node; all other values stay. -/
structure Stores (p : Progress) (node : NodeId) (output : Interval) (r : Step) (value : Interval) :
    Prop where
  general : ∀ n, r.progress.general.get? n = if n = node then some value else p.general.get? n
  unchanged : r.changed = false → p.general.get? node = some value
  revises : Revises (p.general.get? node) output value
  covers : output.isWithin value = true
  wellFormed : value.WellFormed
  /-- A lower end that the output has is given up only for a node that will be narrowed. -/
  tightens : value.UnboundedBelow → output.UnboundedBelow ∨
    r.progress.statusOf node = .narrowing ∧ node ∈ r.progress.queue.queued

/-- How a step moves statuses and what it lines up: nodes move up only, a node that is not the
step's own moves only if it comes next and then never becomes done nor leaves `narrowing`, a loop
head never becomes done, and only the step's own node may be lined up, to be narrowed. -/
structure Advances (s : Solver) (p : Progress) (node : NodeId) (q : Progress) : Prop where
  raised : Status.Raised p.statusOf q.statusOf
  others : ∀ n, n ≠ node → q.statusOf n = p.statusOf n ∨
    n ∈ s.graph.next node ∧ p.statusOf n < .narrowing ∧ q.statusOf n ≠ .done
  finished : q.statusOf node = .done → s.graph.isLoopHead node = false
  queue : q.queue = p.queue ∨
    q.queue = p.queue.push node true ∧ q.statusOf node = .narrowing
  incoming : q.incoming = p.incoming
  visited : q.visited = p.visited

/-! ## Moves of single nodes -/

theorem Advances.refl {s : Solver} {p q : Progress} {node : NodeId} (h : p.statusOf node ≠ .done)
    (hstatuses : q.statuses = p.statuses) (hqueue : q.queue = p.queue)
    (hincoming : q.incoming = p.incoming) (hvisited : q.visited = p.visited) :
    s.Advances p node q := by
  have hstatus : q.statusOf = p.statusOf := by
    funext n
    rw [Progress.statusOf, hstatuses, Progress.statusOf]
  refine ⟨hstatus ▸ .refl, fun n _ => .inl (by rw [hstatus]), fun hdone => ?_, .inl hqueue,
    hincoming, hvisited⟩
  rw [hstatus] at hdone
  exact absurd hdone h

theorem Advances.setStatus {s : Solver} {p : Progress} {node : NodeId} {st : Status}
    (h : p.statusOf node < st) (hst : st = .done → s.graph.isLoopHead node = false) :
    s.Advances p node (p.setStatus node st) := by
  refine ⟨Progress.raised_setStatus (.inl h), fun n hn => .inl ?_, fun hdone => hst ?_, .inl rfl,
    rfl, rfl⟩
  · rw [Progress.statusOf_setStatus, Function.update_of_ne hn]
  · rw [Progress.statusOf_setStatus, Function.update_self] at hdone
    exact hdone

theorem Advances.finish {s : Solver} {p : Progress} {node : NodeId} (h : p.statusOf node ≠ .done) :
    s.Advances p node (s.finish p node) := by
  unfold Solver.finish
  split
  · exact .refl h rfl rfl rfl rfl
  · rename_i hhead
    exact .setStatus (Status.lt_done_iff.mpr h) fun _ => Bool.eq_false_iff.mpr hhead

theorem Advances.trans {s : Solver} {p q r : Progress} {node : NodeId} (hpq : s.Advances p node q)
    (hqr : s.Advances q node r) (hqueue : q.queue = p.queue) : s.Advances p node r := by
  refine ⟨hpq.raised.trans hqr.raised, fun n hn => ?_, hqr.finished, ?_,
    hqr.incoming.trans hpq.incoming, hqr.visited.trans hpq.visited⟩
  · rcases hpq.others n hn with hsame | ⟨hnext, hlt, hdone⟩
    · rw [← hsame]
      exact hqr.others n hn
    · rcases hqr.others n hn with hsame | ⟨-, -, hdone'⟩
      · exact .inr ⟨hnext, hlt, hsame ▸ hdone⟩
      · exact .inr ⟨hnext, hlt, hdone'⟩
  · rw [← hqueue]
    exact hqr.queue

theorem Advances.promoteAll {s : Solver} {p : Progress} {node : NodeId} {st : Status}
    (h : p.statusOf node ≠ .done) (hst : st = .widening ∨ st = .narrowing) {nodes : List NodeId}
    (hnodes : nodes ⊆ s.graph.next node) : s.Advances p node (p.promoteAll st nodes).1 := by
  obtain ⟨statuses, heq, hraised, hstatus⟩ := p.promoteAll_spec st nodes
  rw [heq]
  have hlt {a : Status} (ha : a < st) : a < .narrowing := by
    revert ha
    rcases hst with rfl | rfl <;> cases a <;> decide
  have hnd : st ≠ .done := by
    rcases hst with rfl | rfl <;> decide
  refine ⟨hraised, fun n _ => ?_, fun hdone => ?_, .inl rfl, rfl, rfl⟩
  · rcases hstatus n with hsame | ⟨hmem, hn, hnow⟩
    · exact .inl hsame
    · exact .inr ⟨hnodes hmem, hlt hn, hnow ▸ hnd⟩
  · rcases hstatus node with hsame | ⟨-, -, hnow⟩
    · exact absurd (hsame.symm.trans hdone) h
    · exact absurd (hnow.symm.trans hdone) hnd

theorem Advances.enqueue {s : Solver} {p q : Progress} {node : NodeId} (h : s.Advances p node q)
    (hqueue : q.queue = p.queue) (hstatus : q.statusOf node = .narrowing) :
    s.Advances p node (q.enqueue node) := by
  refine ⟨h.raised, h.others, h.finished, .inr ⟨?_, hstatus⟩, h.incoming, h.visited⟩
  simp only [Progress.enqueue, hqueue, hstatus, decide_true]

/-! ## The three kinds of steps -/

theorem finish_general (s : Solver) (p : Progress) (node : NodeId) :
    (s.finish p node).general = p.general := by
  unfold finish
  split <;> rfl

theorem promoteAll_general (p : Progress) (st : Status) (nodes : List NodeId) :
    (p.promoteAll st nodes).1.general = p.general := by
  obtain ⟨statuses, heq, -, -⟩ := p.promoteAll_spec st nodes
  rw [heq]

theorem promoteAll_queue (p : Progress) (st : Status) (nodes : List NodeId) :
    (p.promoteAll st nodes).1.queue = p.queue := by
  obtain ⟨statuses, heq, -, -⟩ := p.promoteAll_spec st nodes
  rw [heq]

theorem plainStep_advances {s : Solver} {p : Progress} {node : NodeId} {status : Status}
    (hstatus : p.statusOf node = status) (hopen : status ≠ .done) (stored : Option Interval)
    (output : Interval) : s.Advances p node (s.plainStep p node status stored output).progress := by
  have hnd : p.statusOf node ≠ .done := hstatus ▸ hopen
  have hset : s.Advances p node (p.setGeneral node output) := .refl hnd rfl rfl rfl rfl
  simp only [plainStep]
  split
  · rename_i hun
    have hlt (st : Status) (h : st ≠ .unvisited) :
        (p.setGeneral node output).statusOf node < st := by
      rw [Progress.statusOf_setGeneral, hstatus, hun]
      revert h
      cases st <;> decide
    split
    · exact hset.trans (.setStatus (hlt _ (by decide)) (by simp)) rfl
    · split
      · rename_i hwiden _
        -- a loop head would have started to widen
        refine hset.trans (.setStatus (hlt _ (by decide)) fun _ => ?_) rfl
        by_contra hhead
        rw [Bool.not_eq_false] at hhead
        exact hwiden (by rw [startsWidening, hhead, Bool.true_or, Bool.true_or])
      · exact hset
  · split
    · exact hset.trans (.finish hnd) rfl
    · exact hset

theorem plainStep_stores {s : Solver} {p : Progress} {node : NodeId} {stored : Option Interval}
    {output : Interval} (hstored : p.general.get? node = stored) (hout : output.WellFormed)
    (status : Status) : Stores p node output (s.plainStep p node status stored output) output := by
  refine ⟨fun n => ?_, fun hchanged => ?_, .takes, Interval.isWithin_refl hout, hout, .inl⟩
  · have hgeneral : (s.plainStep p node status stored output).progress.general =
        p.general.set node output := by
      simp only [plainStep]
      split_ifs <;> first | rfl | rw [finish_general]; rfl
    rw [hgeneral, Table.get?_set]
  · rw [hstored]
    exact not_not.mp (of_decide_eq_false hchanged)

/-- Nothing was stored: the value at `node` is what it was, and it covers the output. -/
theorem Stores.same {p q : Progress} {node : NodeId} {stored output : Interval}
    (hstored : p.general.get? node = some stored) (hgeneral : q.general = p.general)
    (hcovers : output.isWithin stored = true) (hwf : stored.WellFormed)
    (htightens : stored.UnboundedBelow → output.UnboundedBelow ∨
      q.statusOf node = .narrowing ∧ node ∈ q.queue.queued) (promoted : List NodeId) :
    Stores p node output ⟨q, false, promoted⟩ stored := by
  refine ⟨fun n => ?_, fun _ => hstored, .keeps hstored, hcovers, hwf, htightens⟩
  rw [hgeneral]
  split
  · rename_i hn
    rw [hn, hstored]
  · rfl

theorem Stores.fresh {p q : Progress} {node : NodeId} {value output : Interval}
    (hgeneral : q.general = p.general.set node value)
    (hrevises : Revises (p.general.get? node) output value) (hcovers : output.isWithin value = true)
    (hwf : value.WellFormed)
    (htightens : value.UnboundedBelow → output.UnboundedBelow ∨
      q.statusOf node = .narrowing ∧ node ∈ q.queue.queued) (promoted : List NodeId) :
    Stores p node output ⟨q, true, promoted⟩ value := by
  refine ⟨fun n => ?_, fun h => Bool.noConfusion h, hrevises, hcovers, hwf, htightens⟩
  rw [hgeneral, Table.get?_set]

theorem widenStep_advances {s : Solver} {p : Progress} {node : NodeId}
    (hstatus : p.statusOf node = .widening) (stored output : Interval) :
    s.Advances p node (s.widenStep p node stored output).progress := by
  have hnd : p.statusOf node ≠ .done := by
    rw [hstatus]
    decide
  simp only [widenStep]
  split
  · set q := p.setGeneral node (stored.widen (stored.join output))
    set inside := (s.graph.next node).filter fun n => !s.graph.isLoopEnd n
    have hset : s.Advances p node q := .refl hnd rfl rfl rfl rfl
    have hpromoted : s.Advances p node (q.promoteAll .widening inside).1 :=
      hset.trans (.promoteAll (p := q) hnd (.inl rfl) (List.filter_subset_self _)) rfl
    have hqueue : (q.promoteAll .widening inside).1.queue = p.queue := promoteAll_queue ..
    -- a promotion to `widening` leaves the node itself where it is
    have hown : (q.promoteAll .widening inside).1.statusOf node < .narrowing := by
      obtain ⟨statuses, heq, -, hown⟩ := q.promoteAll_spec .widening inside
      rw [heq]
      rcases hown node with h | ⟨-, -, h⟩
      · rw [h, Progress.statusOf_setGeneral, hstatus]
        decide
      · rw [h]
        decide
    refine (hpromoted.trans (.setStatus hown (by simp)) hqueue).enqueue hqueue ?_
    rw [Progress.statusOf_setStatus, Function.update_self]
  · split
    · have hlt : p.statusOf node < .narrowing := by
        rw [hstatus]
        decide
      refine (Advances.setStatus hlt (by simp)).enqueue rfl ?_
      rw [Progress.statusOf_setStatus, Function.update_self]
    · exact .finish hnd

/-- A node that is moved to `narrowing` and lined up waits to be narrowed. -/
theorem narrowed_next (p : Progress) (node : NodeId) :
    ((p.setStatus node .narrowing).enqueue node).statusOf node = .narrowing ∧
      node ∈ ((p.setStatus node .narrowing).enqueue node).queue.queued := by
  refine ⟨?_, Queue.mem_queued_push.mpr (.inl rfl)⟩
  change (p.setStatus node .narrowing).statusOf node = .narrowing
  rw [Progress.statusOf_setStatus, Function.update_self]

theorem widenStep_stores {s : Solver} {p : Progress} {node : NodeId} {stored output : Interval}
    (hstored : p.general.get? node = some stored) (hwf : stored.WellFormed)
    (hout : output.WellFormed) :
    ∃ value, Stores p node output (s.widenStep p node stored output) value := by
  have hcovers := Interval.isWithin_widen_join hwf hout
  have hwidened := Interval.wellFormed_widen hwf (Interval.wellFormed_join hwf hout)
  simp only [widenStep]
  split
  · exact ⟨_, .fresh (promoteAll_general ..) (.widens hstored) hcovers hwidened
      (fun _ => .inr (narrowed_next _ node)) _⟩
  · rename_i hsame
    rw [not_not.mp hsame] at hcovers
    split
    · refine ⟨stored, .same hstored ?_ hcovers hwf (fun _ => .inr (narrowed_next p node)) _⟩
      rfl
    · rename_i houtput
      rw [not_not.mp houtput]
      rw [not_not.mp houtput] at hcovers
      exact ⟨stored, .same hstored (finish_general ..) hcovers hwf .inl _⟩

theorem narrowStep_advances {s : Solver} {p : Progress} {node : NodeId}
    (hstatus : p.statusOf node = .narrowing) (stored output : Interval) :
    s.Advances p node (s.narrowStep p node stored output).progress := by
  have hnd : p.statusOf node ≠ .done := by
    rw [hstatus]
    decide
  have hset (value : Interval) : s.Advances p node (p.setGeneral node value) :=
    .refl hnd rfl rfl rfl rfl
  simp only [narrowStep]
  split
  · split
    · exact (hset (stored.narrow output)).trans
        (.promoteAll (p := p.setGeneral node (stored.narrow output)) hnd (.inr rfl)
          (List.Subset.refl _)) rfl
    · exact .finish hnd
  · exact (hset _).enqueue rfl hstatus

theorem narrowStep_stores {s : Solver} {p : Progress} {node : NodeId} {stored output : Interval}
    (hstatus : p.statusOf node = .narrowing) (hstored : p.general.get? node = some stored)
    (hwf : stored.WellFormed) (hout : output.WellFormed) :
    ∃ value, Stores p node output (s.narrowStep p node stored output) value := by
  simp only [narrowStep]
  split
  · rename_i hwithin
    split
    · exact ⟨_, .fresh (promoteAll_general ..) (.narrows hstored hwithin)
        (Interval.isWithin_narrow hwithin) (Interval.wellFormed_narrow _ _)
        (fun hopen => .inl hopen.of_narrow) _⟩
    · rename_i hsame
      refine ⟨stored, .same hstored (finish_general ..) hwithin hwf (fun hopen => .inl ?_) _⟩
      rw [← not_not.mp hsame] at hopen
      exact hopen.of_narrow
  · refine ⟨_, .fresh rfl (.widens hstored) (Interval.isWithin_widen_join hwf hout)
      (Interval.wellFormed_widen hwf (Interval.wellFormed_join hwf hout)) (fun _ => .inr ?_) _⟩
    exact ⟨hstatus, Queue.mem_queued_push.mpr (.inl rfl)⟩

/-! ## Steps -/

theorem step_advances {s : Solver} {p : Progress} {node : NodeId} {status : Status}
    (hstatus : p.statusOf node = status) (hopen : status ≠ .done) (output : Interval) :
    s.Advances p node (s.step p node status output).progress := by
  unfold step
  split
  · exact plainStep_advances hstatus hopen _ output
  · exact plainStep_advances hstatus hopen _ output
  · exact plainStep_advances hstatus hopen _ output
  · exact widenStep_advances hstatus _ output
  · rename_i hun hwiden _
    refine narrowStep_advances ?_ _ output
    rw [hstatus]
    exact Status.eq_narrowing hun hwiden hopen

theorem step_stores {s : Solver} {p : Progress} {node : NodeId} {status : Status}
    {output : Interval} (hstatus : p.statusOf node = status) (hopen : status ≠ .done)
    (hwf : ∀ stored, p.general.get? node = some stored → stored.WellFormed)
    (hout : output.WellFormed) :
    ∃ value, Stores p node output (s.step p node status output) value := by
  unfold step
  split
  · exact ⟨output, plainStep_stores rfl hout _⟩
  · rename_i hstored
    exact ⟨output, plainStep_stores hstored hout _⟩
  · rename_i hstored
    exact ⟨output, plainStep_stores hstored hout _⟩
  · rename_i hstored
    exact widenStep_stores hstored (hwf _ hstored) hout
  · rename_i hun hwiden hstored
    refine narrowStep_stores ?_ hstored (hwf _ hstored) hout
    rw [hstatus]
    exact Status.eq_narrowing hun hwiden hopen

end IntervalFlow.Solver
