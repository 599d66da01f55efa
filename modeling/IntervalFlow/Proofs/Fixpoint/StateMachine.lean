import IntervalFlow.Proofs.Fixpoint.Visit

/-!
# The state machine of the solver

`Disciplined` holds in every reachable state: the queue is consistent, waiting nodes that descend
are to be narrowed, loop heads are never done, and nodes that are done were visited. In a visit,
statuses move up one node at a time, after at most one move back: that of the visited node, when it
was done and its input is not the recorded one (`Moves`).
-/

namespace IntervalFlow.Solver

structure Disciplined (s : Solver) (p : Progress) : Prop where
  queue : p.queue.Consistent
  descending : ∀ n ∈ p.queue.descending, p.statusOf n = .narrowing
  heads : ∀ n, s.graph.isLoopHead n = true → p.statusOf n ≠ .done
  visited : ∀ n, p.statusOf n = .done → n ∈ p.visited
  recorded : ∀ n ∈ p.visited, ∃ input, p.incoming.get? n = some input

/-- How a visit of `node` changes statuses and records: statuses move up one at a time, after `node`
was reopened if it was done and its input is not the one recorded, and the input is recorded. -/
structure Moves (s : Solver) (p : Progress) (node : NodeId) (q : Progress) : Prop where
  statuses : ∃ opened, Status.Raised opened q.statusOf ∧
    (opened = p.statusOf ∨
      p.statusOf node = .done ∧
      (∃ last, p.incoming.get? node = some last ∧ last ≠ s.inputOf p.general node) ∧
      ∃ status, status < .done ∧ opened = Function.update p.statusOf node status)
  records : ∀ n, q.incoming.get? n =
    if n = node then some (s.inputOf p.general node) else p.incoming.get? n

/-! ## One visit -/

theorem Disciplined.initial (s : Solver) : s.Disciplined s.initial := by
  have hstatus (n : NodeId) : s.initial.statusOf n = .unvisited := rfl
  refine ⟨Queue.Consistent.empty.push s.start false, fun n hn => ?_, fun n _ => ?_, fun n hn => ?_,
    fun n hn => ?_⟩
  · rcases Queue.mem_descending_push hn with hn | ⟨-, hn⟩
    · cases hn
    · cases hn
  · rw [hstatus]
    decide
  · rw [hstatus] at hn
    cases hn
  · cases hn

/-- Taking a node from the queue changes nothing else. -/
theorem Disciplined.pop {s : Solver} {p : Progress} {node : NodeId} {queue : Queue}
    (h : s.Disciplined p) (hpop : p.queue.pop? = some (node, queue)) (visits : Nat) :
    s.Disciplined { p with queue, visits } ∧ node ∉ queue.queued := by
  obtain ⟨hcons, hfresh, -, hdesc⟩ := h.queue.pop hpop
  exact ⟨⟨hcons, fun n hn => h.descending n (hdesc n hn), h.heads, h.visited, h.recorded⟩, hfresh⟩

theorem Disciplined.settle {s : Solver} {p q : Progress} (h : s.Disciplined p)
    (hsettles : s.Settles p q) : s.Disciplined q := by
  constructor
  case queue => exact hsettles.queue ▸ h.queue
  case descending =>
    intro n hn
    rw [hsettles.queue] at hn
    rcases hsettles.settled n with hsame | ⟨-, -, -, hqueued⟩
    · rw [hsame]
      exact h.descending n hn
    · exact absurd (h.queue.mem_queued_of_descending hn) hqueued
  case heads =>
    intro n hn
    rcases hsettles.settled n with hsame | ⟨-, hhead, -⟩
    · rw [hsame]
      exact h.heads n hn
    · rw [hn] at hhead
      cases hhead
  case visited =>
    intro n hn
    rw [hsettles.visited]
    rcases hsettles.settled n with hsame | ⟨-, -, hmem, -⟩
    · exact h.visited n (hsame ▸ hn)
    · exact hmem
  case recorded =>
    rw [hsettles.visited, hsettles.incoming]
    exact h.recorded

theorem Disciplined.open {s : Solver} {p o : Progress} {node : NodeId} {status : Status}
    (h : s.Disciplined p) (hfresh : node ∉ p.queue.queued) (hopens : s.Opens p node status o) :
    s.Disciplined o := by
  have hnode : o.statusOf node ≠ .done := hopens.status_eq ▸ hopens.status_ne
  constructor
  case queue => exact hopens.queue ▸ h.queue
  case descending =>
    intro n hn
    rw [hopens.queue] at hn
    have hne : n ≠ node := by
      rintro rfl
      exact hfresh (h.queue.mem_queued_of_descending hn)
    rw [hopens.others hne]
    exact h.descending n hn
  case heads =>
    intro n hn hdone
    by_cases hne : n = node
    · exact hnode (hne ▸ hdone)
    · exact h.heads n hn (hopens.others hne ▸ hdone)
  case visited =>
    intro n hdone
    by_cases hne : n = node
    · exact absurd (hne ▸ hdone) hnode
    · rw [hopens.visited]
      exact h.visited n (hopens.others hne ▸ hdone)
  case recorded =>
    intro n hn
    rw [hopens.recorded, Table.get?_set]
    split
    · exact ⟨_, rfl⟩
    · exact h.recorded n (hopens.visited ▸ hn)

/-- A step at a node that does not wait, whose input is on record. -/
theorem Disciplined.step {s : Solver} {o q : Progress} {node : NodeId} {r : Step}
    (h : s.Disciplined o) (hfresh : node ∉ o.queue.queued)
    (hrecorded : ∃ input, o.incoming.get? node = some input)
    (hadvances : s.Advances o node r.progress) (hpropagates : s.Propagates node r q) :
    s.Disciplined q := by
  have hstatus := hpropagates.statusOf
  -- other nodes are narrowed or done after the step only if they were before
  have hnarrowing {n : NodeId} (hne : n ≠ node) (hn : o.statusOf n = .narrowing) :
      r.progress.statusOf n = .narrowing := by
    rcases hadvances.others n hne with hsame | ⟨-, hlt, -⟩
    · rw [hsame, hn]
    · rw [hn] at hlt
      exact absurd hlt (by decide)
  have hdone {n : NodeId} (hne : n ≠ node) (hn : r.progress.statusOf n = .done) :
      o.statusOf n = .done := by
    rcases hadvances.others n hne with hsame | ⟨-, -, hnd⟩
    · rw [← hsame, hn]
    · exact absurd hn hnd
  have hold {n : NodeId} (hn : n ∈ o.queue.descending) : r.progress.statusOf n = .narrowing := by
    refine hnarrowing ?_ (h.descending n hn)
    rintro rfl
    exact hfresh (h.queue.mem_queued_of_descending hn)
  constructor
  case queue =>
    apply hpropagates.consistent
    rcases hadvances.queue with hsame | ⟨hpush, -⟩
    · exact hsame ▸ h.queue
    · exact hpush ▸ h.queue.push node true
  case descending =>
    intro n hn
    rw [hstatus]
    rcases hpropagates.descending n hn with hn | hn
    · rcases hadvances.queue with hsame | ⟨hpush, hown⟩
      · exact hold (hsame ▸ hn)
      · rw [hpush] at hn
        rcases Queue.mem_descending_push hn with hn | ⟨rfl, -⟩
        · exact hold hn
        · exact hown
    · exact hn
  case heads =>
    intro n hhead
    rw [hstatus]
    intro hn
    by_cases hne : n = node
    · subst hne
      rw [hadvances.finished hn] at hhead
      cases hhead
    · exact h.heads n hhead (hdone hne hn)
  case visited =>
    intro n hn
    rw [hpropagates.visited, hadvances.visited]
    by_cases hne : n = node
    · exact .inl hne
    · exact .inr (h.visited n (hdone hne (hstatus ▸ hn)))
  case recorded =>
    intro n hn
    rw [hpropagates.visited, hadvances.visited] at hn
    rw [hpropagates.incoming, hadvances.incoming]
    rcases hn with rfl | hn
    · exact hrecorded
    · exact h.recorded n hn

theorem Disciplined.visit {s : Solver} {p q : Progress} {node : NodeId} (h : s.Disciplined p)
    (hfresh : node ∉ p.queue.queued) (hvisit : s.visit p node = .ok q) : s.Disciplined q := by
  rcases visit_cases hvisit with ⟨-, -, hsettles⟩ | ⟨status, o, output, hopens, -, hpropagates⟩
  · exact h.settle hsettles
  · exact (h.open hfresh hopens).step (hopens.queue ▸ hfresh) ⟨_, hopens.recorded_node⟩
      (hopens.advances output) hpropagates

/-- After a visit, the record of a node is the input it was visited with. -/
theorem visit_records {s : Solver} {p q : Progress} {node : NodeId}
    (hvisit : s.visit p node = .ok q) (n : NodeId) : q.incoming.get? n =
      if n = node then some (s.inputOf p.general node) else p.incoming.get? n := by
  rcases visit_cases hvisit with ⟨-, hlast, hsettles⟩ | ⟨status, o, output, hopens, -, hpropagates⟩
  · rw [hsettles.incoming]
    split
    · rename_i hn
      rw [hn, hlast]
    · rfl
  · rw [hpropagates.incoming, (hopens.advances output).incoming, hopens.recorded, Table.get?_set]

theorem Disciplined.moves {s : Solver} {p q : Progress} {node : NodeId} (h : s.Disciplined p)
    (hvisit : s.visit p node = .ok q) : s.Moves p node q := by
  rcases visit_cases hvisit with ⟨-, -, hsettles⟩ | ⟨status, o, output, hopens, -, hpropagates⟩
  · exact ⟨⟨p.statusOf, hsettles.raised, .inl rfl⟩, visit_records hvisit⟩
  · refine ⟨⟨o.statusOf, hpropagates.statusOf ▸ (hopens.advances output).raised, ?_⟩,
      visit_records hvisit⟩
    rcases hopens.reopened with hsame | ⟨hdone, hdiffers, hupdate⟩
    · exact .inl hsame
    · obtain ⟨last, hlast⟩ := h.recorded node (h.visited node hdone)
      refine .inr ⟨hdone, ⟨last, hlast, ?_⟩, status, Status.lt_done_iff.mpr hopens.status_ne, hupdate⟩
      rintro rfl
      exact hdiffers hlast

/-! ## All visits -/

theorem Reachable.disciplined {s : Solver} {p : Progress} (h : s.Reachable p) :
    s.Disciplined p := by
  refine h.induction (Disciplined.initial s) fun p node q _ hp hvisits => ?_
  obtain ⟨queue, hpop, hvisit⟩ := hvisits
  obtain ⟨hpopped, hfresh⟩ := hp.pop hpop (p.visits + 1)
  exact hpopped.visit hfresh hvisit

theorem Reachable.moves {s : Solver} {p q : Progress} {node : NodeId} (h : s.Reachable p)
    (hvisits : s.Visits p node q) : s.Moves p node q := by
  obtain ⟨queue, hpop, hvisit⟩ := hvisits
  -- neither statuses nor inputs depend on the queue
  obtain ⟨hstatuses, hrecords⟩ := (h.disciplined.pop hpop (p.visits + 1)).1.moves hvisit
  exact ⟨hstatuses, hrecords⟩

/-- In every reachable state the queue and the statuses are in order, and whichever visit comes next
moves statuses as it should. -/
theorem Reachable.state_machine {s : Solver} {p : Progress} (h : s.Reachable p) :
    s.Disciplined p ∧ ∀ node q, s.Visits p node q → s.Moves p node q :=
  ⟨h.disciplined, fun _ _ => h.moves⟩

end IntervalFlow.Solver

namespace IntervalFlow

/-! ## A counting loop

`int x = 0; while (x < 3) x++; x` -/

def counting : Graph where
  kinds := #[.literal (some 0), .declaration "x" "int" (some 0), .reference "x" "int" (some 1),
    .literal (some 3), .binary .lt 2 3, .whileLoop 4, .unary .increment 2,
    .reference "x" "int" (some 1)]
  edges := [⟨1, 4, none⟩, ⟨4, 5, none⟩, ⟨5, 6, none⟩, ⟨6, 4, none⟩, ⟨5, 7, none⟩]
  faultless := by decide +kernel

def countingProblem : Problem := ⟨counting, .integer, "x", 1, 7, .top⟩

/-- The run settles with its loop head still to be narrowed, as loop heads are never done. -/
theorem counting_state_machine : ∃ p,
    countingProblem.solver.iterate 100 countingProblem.solver.initial = .settled p ∧
      p.statusOf 5 = .narrowing ∧ countingProblem.solver.Disciplined p := by
  have hrun : (match countingProblem.solver.iterate 100 countingProblem.solver.initial with
      | .settled p => decide (p.statusOf 5 = .narrowing)
      | _ => false) = true := by
    decide +kernel
  split at hrun
  · rename_i p hsettled
    have hreachable := (Solver.iterate_settled (.initial _) hsettled).1
    exact ⟨p, hsettled, of_decide_eq_true hrun, (Solver.Reachable.state_machine hreachable).1⟩
  · cases hrun

end IntervalFlow
