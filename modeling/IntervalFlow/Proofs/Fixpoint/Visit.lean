import IntervalFlow.Proofs.Fixpoint.Step
import IntervalFlow.Proofs.Interval.Arithmetic

/-!
# Visits — one turn of the solver

A visit either finds its node done with nothing new and settles its successors (`Settles`), or it
reopens the node if need be, carries out a step and lines up successors (`visit_cases`).
`Reachable` are the states between visits, and `Reachable.induction` is how invariants are proved.
-/

namespace IntervalFlow.Solver

/-! ## Settling successors -/

/-- Successors of a node that is done become done: only statuses change, and only those of visited
nodes that do not wait and are no loop heads. -/
structure Settles (s : Solver) (p q : Progress) : Prop where
  incoming : q.incoming = p.incoming
  visited : q.visited = p.visited
  queue : q.queue = p.queue
  general : q.general = p.general
  raised : Status.Raised p.statusOf q.statusOf
  settled : ∀ n, q.statusOf n = p.statusOf n ∨
    q.statusOf n = .done ∧ s.graph.isLoopHead n = false ∧ n ∈ p.visited ∧ n ∉ p.queue.queued

theorem Settles.refl (s : Solver) (p : Progress) : s.Settles p p :=
  ⟨rfl, rfl, rfl, rfl, .refl, fun _ => .inl rfl⟩

theorem Settles.trans {s : Solver} {p q r : Progress} (hpq : s.Settles p q) (hqr : s.Settles q r) :
    s.Settles p r := by
  refine ⟨hqr.incoming.trans hpq.incoming, hqr.visited.trans hpq.visited,
    hqr.queue.trans hpq.queue, hqr.general.trans hpq.general, hpq.raised.trans hqr.raised,
    fun n => ?_⟩
  rcases hqr.settled n with hsame | ⟨hdone, hhead, hvisited, hqueued⟩
  · rw [hsame]
    exact hpq.settled n
  · rw [hpq.visited] at hvisited
    rw [hpq.queue] at hqueued
    exact .inr ⟨hdone, hhead, hvisited, hqueued⟩

theorem settleSuccessor_settles (s : Solver) (p : Progress) (node : NodeId) :
    s.Settles p (s.settleSuccessor p node) := by
  simp only [settleSuccessor]
  split
  · rename_i hcond
    simp only [Bool.and_eq_true, Bool.not_eq_true', decide_eq_true_eq] at hcond
    obtain ⟨⟨⟨hhead, hvisited⟩, hqueued⟩, -⟩ := hcond
    refine ⟨rfl, rfl, rfl, rfl, Progress.raised_setStatus ?_, fun n => ?_⟩
    · by_cases hdone : p.statusOf node = .done
      · exact .inr hdone
      · exact .inl (Status.lt_done_iff.mpr hdone)
    · rw [Progress.statusOf_setStatus]
      by_cases hn : n = node
      · subst hn
        rw [Function.update_self]
        exact .inr ⟨rfl, hhead, hvisited, hqueued⟩
      · rw [Function.update_of_ne hn]
        exact .inl rfl
  · exact .refl s p

theorem settleSuccessors_settles (s : Solver) (p : Progress) (node : NodeId) :
    s.Settles p (s.settleSuccessors p node) := by
  unfold settleSuccessors
  induction s.graph.next node generalizing p with
  | nil => exact .refl s p
  | cons n rest ih =>
    rw [List.foldl_cons]
    exact (settleSuccessor_settles s p n).trans (ih _)

/-! ## Lining up successors -/

/-- Only the queue changes when nodes are lined up, and a node that is to be narrowed joins the
nodes that descend. -/
theorem foldl_enqueue (changed : Bool) (promoted nodes : List NodeId) (p : Progress) :
    ∃ queue, nodes.foldl (fun p n =>
        if changed || n ∈ promoted || n ∉ p.visited then p.enqueue n else p) p = { p with queue } ∧
      (p.queue.Consistent → queue.Consistent) ∧
      (∀ m, m ∈ queue.queued ↔
        m ∈ p.queue.queued ∨ m ∈ nodes ∧ (changed = true ∨ m ∈ promoted ∨ m ∉ p.visited)) ∧
      ∀ m ∈ queue.descending, m ∈ p.queue.descending ∨ p.statusOf m = .narrowing := by
  induction nodes generalizing p with
  | nil =>
    refine ⟨p.queue, rfl, id, fun m => ?_, fun m hm => .inl hm⟩
    simp only [List.not_mem_nil, false_and, or_false]
  | cons n rest ih =>
    rw [List.foldl_cons]
    by_cases hn : changed = true ∨ n ∈ promoted ∨ n ∉ p.visited
    · rw [if_pos (by simpa [or_assoc] using hn)]
      obtain ⟨queue, heq, hcons, hmem, hdesc⟩ := ih (p.enqueue n)
      refine ⟨queue, heq, fun h => hcons (h.push _ _), fun m => ?_, fun m hm => ?_⟩
      · rw [hmem, List.mem_cons]
        simp only [Progress.enqueue, Queue.mem_queued_push]
        constructor
        · rintro ((rfl | hm) | ⟨hm, hcond⟩)
          · exact .inr ⟨.inl rfl, hn⟩
          · exact .inl hm
          · exact .inr ⟨.inr hm, hcond⟩
        · rintro (hm | ⟨rfl | hm, hcond⟩)
          · exact .inl (.inr hm)
          · exact .inl (.inl rfl)
          · exact .inr ⟨hm, hcond⟩
      · rcases hdesc m hm with hm | hm
        · rcases Queue.mem_descending_push hm with hm | ⟨rfl, hnarrow⟩
          · exact .inl hm
          · exact .inr (of_decide_eq_true hnarrow)
        · exact .inr hm
    · rw [if_neg (by simpa [or_assoc] using hn)]
      obtain ⟨queue, heq, hcons, hmem, hdesc⟩ := ih p
      refine ⟨queue, heq, hcons, fun m => ?_, hdesc⟩
      rw [hmem, List.mem_cons]
      constructor
      · rintro (hm | ⟨hm, hcond⟩)
        · exact .inl hm
        · exact .inr ⟨.inr hm, hcond⟩
      · rintro (hm | ⟨rfl | hm, hcond⟩)
        · exact .inl hm
        · exact absurd hcond hn
        · exact .inr ⟨hm, hcond⟩

/-- What becomes of the progress of a step: its node counts as visited, and successors are lined
up. -/
structure Propagates (s : Solver) (node : NodeId) (r : Step) (q : Progress) : Prop where
  statuses : q.statuses = r.progress.statuses
  incoming : q.incoming = r.progress.incoming
  general : q.general = r.progress.general
  visited : ∀ n, n ∈ q.visited ↔ n = node ∨ n ∈ r.progress.visited
  consistent : r.progress.queue.Consistent → q.queue.Consistent
  queued : ∀ n, n ∈ q.queue.queued ↔ n ∈ r.progress.queue.queued ∨ s.propagates node = true ∧
    n ∈ s.graph.next node ∧ (r.changed = true ∨ n ∈ r.promoted ∨ n ∉ r.progress.visited)
  descending : ∀ n ∈ q.queue.descending,
    n ∈ r.progress.queue.descending ∨ r.progress.statusOf n = .narrowing

theorem Propagates.statusOf {s : Solver} {node : NodeId} {r : Step} {q : Progress}
    (h : s.Propagates node r q) : q.statusOf = r.progress.statusOf := by
  funext n
  rw [Progress.statusOf, h.statuses, Progress.statusOf]

theorem propagate_propagates (s : Solver) (node : NodeId) (r : Step) :
    s.Propagates node r (s.propagate node r) := by
  simp only [propagate]
  split
  · rename_i hprop
    obtain ⟨queue, heq, hcons, hmem, hdesc⟩ :=
      foldl_enqueue r.changed r.promoted (s.graph.next node) r.progress
    rw [heq]
    obtain ⟨hst, hinc, hqueue, hgen⟩ :=
      Progress.markVisited_frame { r.progress with queue } node
    refine ⟨hst, hinc, hgen, fun n => Progress.mem_markVisited, ?_, fun n => ?_, ?_⟩
    · rw [hqueue]
      exact hcons
    · rw [hqueue, hmem]
      simp only [hprop, true_and]
    · rw [hqueue]
      exact hdesc
  · rename_i hprop
    obtain ⟨hst, hinc, hqueue, hgen⟩ := Progress.markVisited_frame r.progress node
    refine ⟨hst, hinc, hgen, fun n => Progress.mem_markVisited, ?_, fun n => ?_, fun n hn => ?_⟩
    · rw [hqueue]
      exact id
    · rw [hqueue]
      simp only [hprop, false_and, or_false, Bool.false_eq_true]
    · rw [hqueue] at hn
      exact .inl hn

/-! ## Visits -/

theorem resume?_eq_none {s : Solver} {p : Progress} {node : NodeId} {input : Interval}
    (h : s.resume? p node input = none) :
    p.statusOf node = .done ∧ p.incoming.get? node = some input := by
  unfold resume? at h
  split at h
  · rename_i hdone
    refine ⟨hdone, ?_⟩
    split at h
    · rename_i last hlast
      split at h
      · rename_i hsame
        rw [hlast, hsame]
      · split at h
        · cases h
        · split at h <;> cases h
    · split at h <;> cases h
  · cases h

theorem resume?_eq_some {s : Solver} {p : Progress} {node : NodeId} {input : Interval}
    {status : Status} (h : s.resume? p node input = some status) :
    status ≠ .done ∧ (p.statusOf node = status ∨
      p.statusOf node = .done ∧ p.incoming.get? node ≠ some input) := by
  unfold resume? at h
  split at h
  · rename_i hdone
    split at h
    · rename_i last hlast
      split at h
      · cases h
      · rename_i hdiffers
        have hincoming : p.incoming.get? node ≠ some input := by
          intro hsame
          rw [hlast, Option.some.injEq] at hsame
          exact hdiffers hsame
        refine ⟨?_, .inr ⟨hdone, hincoming⟩⟩
        split at h
        · cases h
          decide
        · split at h <;> cases h <;> decide
    · rename_i hnone
      refine ⟨?_, .inr ⟨hdone, by simp [hnone]⟩⟩
      split at h <;> cases h <;> decide
  · rename_i hnd
    cases h
    exact ⟨hnd, .inl rfl⟩

/-- `o` is `p` made ready for a step at `node`: the input is on record, and if the node was done, it
was reopened because its input differs from the recorded one. -/
structure Opens (s : Solver) (p : Progress) (node : NodeId) (status : Status) (o : Progress) :
    Prop where
  visited : o.visited = p.visited
  queue : o.queue = p.queue
  general : o.general = p.general
  recorded : o.incoming = p.incoming.set node (s.inputOf p.general node)
  resumes : s.resume? p node (s.inputOf p.general node) = some status
  status_eq : o.statusOf node = status
  status_ne : status ≠ .done
  reopened : o.statusOf = p.statusOf ∨ p.statusOf node = .done ∧
    p.incoming.get? node ≠ some (s.inputOf p.general node) ∧
      o.statusOf = Function.update p.statusOf node status

theorem Opens.others {s : Solver} {p o : Progress} {node : NodeId} {status : Status}
    (h : s.Opens p node status o) {n : NodeId} (hn : n ≠ node) : o.statusOf n = p.statusOf n := by
  rcases h.reopened with hsame | ⟨-, -, hupdate⟩
  · rw [hsame]
  · rw [hupdate, Function.update_of_ne hn]

theorem Opens.recorded_node {s : Solver} {p o : Progress} {node : NodeId} {status : Status}
    (h : s.Opens p node status o) :
    o.incoming.get? node = some (s.inputOf p.general node) := by
  rw [h.recorded, Table.get?_set, if_pos rfl]

theorem Opens.advances {s : Solver} {p o : Progress} {node : NodeId} {status : Status}
    (h : s.Opens p node status o) (output : Interval) :
    s.Advances o node (s.step o node status output).progress :=
  step_advances h.status_eq h.status_ne output

theorem visit_cases {s : Solver} {p q : Progress} {node : NodeId} (h : s.visit p node = .ok q) :
    (p.statusOf node = .done ∧ p.incoming.get? node = some (s.inputOf p.general node) ∧
      s.Settles p q) ∨
    ∃ status o output, s.Opens p node status o ∧
      s.transfer p.general node (s.inputOf p.general node) = .ok output ∧
      s.Propagates node (s.step o node status output) q := by
  simp only [visit] at h
  split at h
  · rename_i hresume
    obtain ⟨hdone, hsame⟩ := resume?_eq_none hresume
    cases h
    exact .inl ⟨hdone, hsame, settleSuccessors_settles s p node⟩
  · rename_i status hresume
    obtain ⟨hopen, hstatus⟩ := resume?_eq_some hresume
    obtain ⟨output, houtput, hq⟩ := bind_eq_ok_iff.mp h
    cases hq
    refine .inr ⟨status, _, output, ?_, houtput, propagate_propagates s node _⟩
    rcases hstatus with hsame | ⟨hdone, hdiffers⟩
    · rw [if_neg (hsame ▸ hopen)]
      exact ⟨rfl, rfl, rfl, rfl, hresume, hsame, hopen, .inl rfl⟩
    · rw [if_pos hdone]
      have hupdate := Progress.statusOf_setStatus p node status
      refine ⟨rfl, rfl, rfl, rfl, hresume, ?_, hopen, .inr ⟨hdone, hdiffers, hupdate⟩⟩
      rw [Progress.statusOf_setIncoming, hupdate, Function.update_self]

/-- A visit fails only where the effect of its node does. -/
theorem visit_eq_error {s : Solver} {p : Progress} {node : NodeId} {cause : Error}
    (h : s.visit p node = .error cause) :
    s.measure.effect (s.context p.general) (s.inputOf p.general node) node = .error cause := by
  simp only [visit] at h
  split at h
  · cases h
  · rcases bind_eq_error_iff.mp h with h | ⟨output, -, h⟩
    · unfold transfer at h
      split at h
      · cases h
      · exact h
    · cases h

/-! ## Reachable states -/

/-- The node next in line is taken from the queue and visited. -/
def Visits (s : Solver) (p : Progress) (node : NodeId) (q : Progress) : Prop :=
  ∃ queue, p.queue.pop? = some (node, queue) ∧
    s.visit { p with queue, visits := p.visits + 1 } node = .ok q

/-- The states between visits. -/
def Reachable (s : Solver) : Progress → Prop :=
  Relation.ReflTransGen (fun p q => ∃ node, s.Visits p node q) s.initial

theorem Reachable.initial (s : Solver) : s.Reachable s.initial := .refl

theorem Reachable.visit {s : Solver} {p q : Progress} {node : NodeId} (hp : s.Reachable p)
    (h : s.Visits p node q) : s.Reachable q := hp.tail ⟨node, h⟩

/-- What holds initially and is kept by every visit holds of all reachable states. -/
theorem Reachable.induction {s : Solver} {motive : Progress → Prop} (hinit : motive s.initial)
    (hvisit : ∀ p node q, s.Reachable p → motive p → s.Visits p node q → motive q) {p : Progress}
    (h : s.Reachable p) : motive p := by
  induction h with
  | refl => exact hinit
  | tail hp hstep ih =>
    obtain ⟨node, hnode⟩ := hstep
    exact hvisit _ node _ hp ih hnode

/-- A run that settles ends in a reachable state in which no node waits. -/
theorem iterate_settled {s : Solver} {visits : Nat} {p q : Progress} (hp : s.Reachable p)
    (h : s.iterate visits p = .settled q) : s.Reachable q ∧ q.queue.pop? = none := by
  induction visits generalizing p with
  | zero =>
    rw [iterate] at h
    split at h
    · rename_i hpop
      cases h
      exact ⟨hp, hpop⟩
    · cases h
  | succ visits ih =>
    rw [iterate] at h
    split at h
    · rename_i hpop
      cases h
      exact ⟨hp, hpop⟩
    · rename_i node queue hpop
      simp only at h
      split at h
      · rename_i next hnext
        exact ih (hp.visit ⟨queue, hpop, hnext⟩) h
      · cases h

end IntervalFlow.Solver
