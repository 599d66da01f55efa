import IntervalFlow.Proofs.Fixpoint.StateMachine

/-!
# Limits — runs that are cut off

`Ends` describes how a run ends that may take as many visits as it needs. With a limited number of
visits the outcome is the same if they suffice, and otherwise the run is exhausted
(`Ends.iterate_eq`), so a limit never changes an answer.
-/

namespace IntervalFlow

namespace Solver

/-! ## Visits are counted once -/

theorem finish_visits (s : Solver) (p : Progress) (node : NodeId) :
    (s.finish p node).visits = p.visits := by
  unfold finish
  split <;> rfl

theorem promoteAll_visits (p : Progress) (st : Status) (nodes : List NodeId) :
    (p.promoteAll st nodes).1.visits = p.visits := by
  obtain ⟨statuses, heq, -, -⟩ := p.promoteAll_spec st nodes
  rw [heq]

theorem plainStep_visits (s : Solver) (p : Progress) (node : NodeId) (status : Status)
    (stored : Option Interval) (output : Interval) :
    (s.plainStep p node status stored output).progress.visits = p.visits := by
  simp only [plainStep]
  split_ifs
  · rfl
  · rfl
  · rfl
  · exact finish_visits ..
  · rfl

theorem widenStep_visits (s : Solver) (p : Progress) (node : NodeId) (stored output : Interval) :
    (s.widenStep p node stored output).progress.visits = p.visits := by
  simp only [widenStep]
  split_ifs
  · exact promoteAll_visits ..
  · rfl
  · exact finish_visits ..

theorem narrowStep_visits (s : Solver) (p : Progress) (node : NodeId) (stored output : Interval) :
    (s.narrowStep p node stored output).progress.visits = p.visits := by
  simp only [narrowStep]
  split_ifs
  · exact promoteAll_visits ..
  · exact finish_visits ..
  · rfl

theorem step_visits (s : Solver) (p : Progress) (node : NodeId) (status : Status)
    (output : Interval) : (s.step p node status output).progress.visits = p.visits := by
  unfold step
  split
  · exact plainStep_visits ..
  · exact plainStep_visits ..
  · exact plainStep_visits ..
  · exact widenStep_visits ..
  · exact narrowStep_visits ..

theorem settleSuccessors_visits (s : Solver) (p : Progress) (node : NodeId) :
    (s.settleSuccessors p node).visits = p.visits := by
  have hsettle (p : Progress) (n : NodeId) : (s.settleSuccessor p n).visits = p.visits := by
    simp only [settleSuccessor]
    split <;> rfl
  unfold settleSuccessors
  induction s.graph.next node generalizing p with
  | nil => rfl
  | cons n rest ih => exact (ih _).trans (hsettle p n)

theorem propagate_visits (s : Solver) (node : NodeId) (r : Step) :
    (s.propagate node r).visits = r.progress.visits := by
  have hmark (p : Progress) : (p.markVisited node).visits = p.visits := by
    unfold Progress.markVisited
    split <;> rfl
  rw [propagate, hmark]
  split
  · obtain ⟨queue, heq, -⟩ := foldl_enqueue r.changed r.promoted (s.graph.next node) r.progress
    rw [heq]
  · rfl

/-- The visit itself leaves the count alone. -/
theorem visit_visits {s : Solver} {p q : Progress} {node : NodeId} (h : s.visit p node = .ok q) :
    q.visits = p.visits := by
  simp only [visit] at h
  split at h
  · cases h
    exact settleSuccessors_visits s p node
  · obtain ⟨output, -, hq⟩ := bind_eq_ok_iff.mp h
    cases hq
    rw [propagate_visits, step_visits]
    split <;> rfl

theorem Visits.visits {s : Solver} {p q : Progress} {node : NodeId} (h : s.Visits p node q) :
    q.visits = p.visits + 1 := by
  obtain ⟨queue, -, hvisit⟩ := h
  exact visit_visits hvisit

/-! ## Runs without a limit -/

/-- How a run ends that nothing cuts off: it settles after `n` visits, or the `n`-th visit fails. -/
inductive Ends (s : Solver) : Progress → Nat → Outcome → Prop where
  | settled {p : Progress} (hpop : p.queue.pop? = none) : Ends s p 0 (.settled p)
  | failed {p : Progress} {node : NodeId} {queue : Queue} {cause : Error}
    (hpop : p.queue.pop? = some (node, queue))
    (hvisit : s.visit { p with queue, visits := p.visits + 1 } node = .error cause) :
    Ends s p 1 (.failed cause)
  | visit {p q : Progress} {node : NodeId} {n : Nat} {o : Outcome} (hvisits : s.Visits p node q)
    (hends : Ends s q n o) : Ends s p (n + 1) o

theorem iterate_of_pop_none {s : Solver} {p : Progress} (hpop : p.queue.pop? = none)
    (budget : Nat) : s.iterate budget p = .settled p := by
  rw [iterate, hpop]

theorem iterate_zero {s : Solver} {p : Progress} {next : NodeId × Queue}
    (hpop : p.queue.pop? = some next) : s.iterate 0 p = .exhausted := by
  rw [iterate, hpop]

theorem iterate_of_error {s : Solver} {p : Progress} {node : NodeId} {queue : Queue} {cause : Error}
    (hpop : p.queue.pop? = some (node, queue))
    (hvisit : s.visit { p with queue, visits := p.visits + 1 } node = .error cause)
    (budget : Nat) : s.iterate (budget + 1) p = .failed cause := by
  rw [iterate, hpop]
  simp only [hvisit]

theorem iterate_of_visits {s : Solver} {p q : Progress} {node : NodeId} (h : s.Visits p node q)
    (budget : Nat) : s.iterate (budget + 1) p = s.iterate budget q := by
  obtain ⟨queue, hpop, hvisit⟩ := h
  rw [iterate, hpop]
  simp only [hvisit]

/-- A limited run ends as the unlimited one does if it is permitted that many visits, and is
exhausted otherwise. -/
theorem Ends.iterate_eq {s : Solver} {p : Progress} {n : Nat} {o : Outcome} (h : s.Ends p n o)
    (budget : Nat) : s.iterate budget p = if n ≤ budget then o else .exhausted := by
  -- on the run; a visit takes one from what is left of both
  induction h generalizing budget with
  | settled hpop => rw [if_pos (Nat.zero_le budget), iterate_of_pop_none hpop]
  | failed hpop hvisit =>
    cases budget with
    | zero => exact iterate_zero hpop
    | succ budget => rw [if_pos (Nat.le_add_left 1 budget), iterate_of_error hpop hvisit]
  | @visit p q node n o hvisits hends ih =>
    cases budget with
    | zero =>
      obtain ⟨queue, hpop, -⟩ := hvisits
      rw [if_neg (Nat.not_succ_le_zero n), iterate_zero hpop]
    | succ budget =>
      rw [iterate_of_visits hvisits, ih]
      exact if_congr Nat.succ_le_succ_iff.symm rfl rfl

/-- A limited run that is not exhausted is a whole run. -/
theorem ends_of_iterate {s : Solver} {p : Progress} {budget : Nat}
    (h : s.iterate budget p ≠ .exhausted) : ∃ n ≤ budget, s.Ends p n (s.iterate budget p) := by
  induction budget generalizing p with
  | zero =>
    cases hpop : p.queue.pop? with
    | none =>
      rw [iterate_of_pop_none hpop]
      exact ⟨0, le_rfl, .settled hpop⟩
    | some next => exact absurd (iterate_zero hpop) h
  | succ budget ih =>
    cases hpop : p.queue.pop? with
    | none =>
      rw [iterate_of_pop_none hpop]
      exact ⟨0, Nat.zero_le _, .settled hpop⟩
    | some next =>
      obtain ⟨node, queue⟩ := next
      cases hvisit : s.visit { p with queue, visits := p.visits + 1 } node with
      | error cause =>
        rw [iterate_of_error hpop hvisit]
        exact ⟨1, Nat.le_add_left 1 budget, .failed hpop hvisit⟩
      | ok q =>
        have hvisits : s.Visits p node q := ⟨queue, hpop, hvisit⟩
        rw [iterate_of_visits hvisits] at h ⊢
        obtain ⟨n, hn, hends⟩ := ih h
        exact ⟨n + 1, Nat.succ_le_succ hn, .visit hvisits hends⟩

/-- The count of a settled run is the number of its visits. -/
theorem Ends.visits {s : Solver} {p q : Progress} {n : Nat} (h : s.Ends p n (.settled q)) :
    q.visits = p.visits + n := by
  generalize ho : Outcome.settled q = o at h
  induction h with
  | settled hpop =>
    cases ho
    rfl
  | failed hpop hvisit => cases ho
  | @visit p r node n o hvisits hends ih =>
    rw [ih ho, hvisits.visits, Nat.add_assoc, Nat.add_comm 1]

/-- A run that fails does so in the effect of a node. -/
theorem Ends.effect_error {s : Solver} {p : Progress} {n : Nat} {cause : Error}
    (h : s.Ends p n (.failed cause)) :
    ∃ general input node, s.measure.effect (s.context general) input node = .error cause := by
  generalize ho : Outcome.failed cause = o at h
  induction h with
  | settled hpop => cases ho
  | failed hpop hvisit =>
    cases ho
    exact ⟨_, _, _, visit_eq_error hvisit⟩
  | visit hvisits hends ih => exact ih ho

end Solver

namespace Problem

/-- Without a limit, the run for the problem takes `n` visits and ends with `answer`; if that is an
error, it is the last visit that fails. -/
inductive Concludes (problem : Problem) : Nat → Except Error Solution → Prop where
  | settled {n : Nat} {p : Progress}
    (h : problem.solver.Ends problem.solver.initial n (.settled p)) :
    Concludes problem n (.ok (problem.solver.solution p))
  | failed {n : Nat} {cause : Error}
    (h : problem.solver.Ends problem.solver.initial n (.failed cause)) :
    Concludes problem n (.error cause)

theorem Concludes.visits {problem : Problem} {n : Nat} {f : Solution}
    (h : problem.Concludes n (.ok f)) : f.visits = n := by
  cases h with
  | settled h => exact h.visits.trans (Nat.zero_add n)

theorem Concludes.effect_error {problem : Problem} {n : Nat} {cause : Error}
    (h : problem.Concludes n (.error cause)) : ∃ general input node,
      problem.measure.effect (problem.solver.context general) input node = .error cause := by
  cases h with
  | failed h => exact h.effect_error

/-- What a limit makes of a run. -/
theorem Concludes.solve_eq {problem : Problem} {n : Nat} {answer : Except Error Solution}
    (h : problem.Concludes n answer) (limit : Option Nat) :
    problem.solve limit =
      if n ≤ permittedVisits limit then answer
      else .error (.visitLimit (permittedVisits limit)) := by
  cases h with
  | settled h =>
    simp only [solve, h.iterate_eq]
    split_ifs <;> rfl
  | failed h =>
    simp only [solve, h.iterate_eq]
    split_ifs <;> rfl

/-- A limited run that is not exhausted gives the answer without a limit. -/
theorem exists_concludes_of_iterate {problem : Problem} {budget : Nat}
    (h : problem.solver.iterate budget problem.solver.initial ≠ .exhausted) :
    ∃ n ≤ budget, ∃ answer, problem.Concludes n answer := by
  obtain ⟨n, hn, hends⟩ := Solver.ends_of_iterate h
  refine ⟨n, hn, ?_⟩
  cases ho : problem.solver.iterate budget problem.solver.initial with
  | settled p =>
    rw [ho] at hends
    exact ⟨_, .settled hends⟩
  | failed cause =>
    rw [ho] at hends
    exact ⟨_, .failed hends⟩
  | exhausted => exact absurd ho h

/-- An answer other than that the limit is reached is the answer without a limit. -/
theorem exists_concludes {problem : Problem} {limit : Option Nat}
    (h : problem.solve limit ≠ .error (.visitLimit (permittedVisits limit))) :
    ∃ n ≤ permittedVisits limit, problem.Concludes n (problem.solve limit) := by
  have hrun : problem.solver.iterate (permittedVisits limit) problem.solver.initial ≠
      .exhausted := by
    intro hexhausted
    apply h
    simp only [solve, hexhausted]
  obtain ⟨n, hn, answer, hconcludes⟩ := exists_concludes_of_iterate hrun
  rw [hconcludes.solve_eq limit, if_pos hn]
  exact ⟨n, hn, hconcludes⟩

theorem concludes_of_solve {problem : Problem} {limit : Option Nat} {f : Solution}
    (h : problem.solve limit = .ok f) :
    f.visits ≤ permittedVisits limit ∧ problem.Concludes f.visits (.ok f) := by
  have hne : problem.solve limit ≠ .error (.visitLimit (permittedVisits limit)) := by
    rw [h]
    intro hreached
    cases hreached
  obtain ⟨n, hn, hconcludes⟩ := exists_concludes hne
  rw [h] at hconcludes
  rw [hconcludes.visits]
  exact ⟨hn, hconcludes⟩

theorem le_permittedVisits_none {n : Nat} : n ≤ permittedVisits none ↔ n < UInt64.size :=
  Nat.le_sub_one_iff_lt (by decide)

/-! ## The limit only cuts off -/

/-- A run that finishes within a limit took at most that many visits and ends the same under any
larger limit and under none. A run that finishes, or fails, without a limit ends so under every
limit that permits its visits and reaches every other limit. As long as visits can be counted, the
answer to a problem without a limit is the answer of such a run, and the other way round. -/
theorem solve_limit (problem : Problem) (limit : Nat) :
    (∀ f, problem.solve (some limit) = .ok f →
      f.visits ≤ limit ∧ (∀ larger, limit ≤ larger → problem.solve (some larger) = .ok f) ∧
      problem.Concludes f.visits (.ok f) ∧ (limit < UInt64.size → problem.solve none = .ok f)) ∧
    (∀ n f, problem.Concludes n (.ok f) → f.visits = n ∧
      problem.solve (some limit) =
        if f.visits ≤ limit then .ok f else .error (.visitLimit limit)) ∧
    (∀ k cause, problem.Concludes k (.error cause) →
      problem.solve (some limit) = if k ≤ limit then .error cause else .error (.visitLimit limit)) ∧
    (∀ n answer, problem.Concludes n answer → n < UInt64.size → problem.solve none = answer) ∧
    (problem.solve none ≠ .error (.visitLimit (permittedVisits none)) →
      ∃ n < UInt64.size, problem.Concludes n (problem.solve none)) := by
  refine ⟨fun f h => ?_, fun n f h => ?_, fun k cause h => h.solve_eq (some limit), ?_, ?_⟩
  · obtain ⟨hvisits, hconcludes⟩ := concludes_of_solve h
    refine ⟨hvisits, fun larger hlarger => ?_, hconcludes, fun hlimit => ?_⟩
    · rw [hconcludes.solve_eq (some larger)]
      exact if_pos (le_trans hvisits hlarger)
    · rw [hconcludes.solve_eq none]
      exact if_pos (le_permittedVisits_none.mpr (lt_of_le_of_lt hvisits hlimit))
  · refine ⟨h.visits, ?_⟩
    rw [h.visits]
    exact h.solve_eq (some limit)
  · intro n answer h hn
    rw [h.solve_eq none]
    exact if_pos (le_permittedVisits_none.mpr hn)
  · intro h
    obtain ⟨n, hn, hconcludes⟩ := exists_concludes h
    exact ⟨n, le_permittedVisits_none.mp hn, hconcludes⟩

/-! ### A quotient of infinities

`x; x /= x`, where `x` is at least 1 -/

def dividing : Graph where
  kinds := #[.reference "x" "int" none, .assignment .div 0 0]
  edges := [⟨0, 1, none⟩]
  faultless := by decide +kernel

def dividingProblem : Problem := ⟨dividing, .integer, "x", 0, 1, .atLeast 1⟩

/-- Counting to three takes 16 visits. The division fails at the second visit, so a limit of one is
reached before. -/
theorem counting_limit : (∃ f, countingProblem.solve none = .ok f ∧ f.visits = 16 ∧
      countingProblem.solve (some 16) = .ok f ∧
      countingProblem.solve (some 15) = .error (.visitLimit 15)) ∧
    dividingProblem.Concludes 2 (.error (.undefined (.quotient .posInf .posInf))) ∧
    dividingProblem.solve none = .error (.undefined (.quotient .posInf .posInf)) ∧
    dividingProblem.solve (some 1) = .error (.visitLimit 1) := by
  constructor
  · have hsolved : (countingProblem.solve (some 16)).toOption.any
        (fun f => f.visits = 16) = true := by
      decide +kernel
    obtain ⟨f, hsolve, hvisits⟩ := exists_ok_of_any hsolved
    have hvisits := of_decide_eq_true hvisits
    obtain ⟨-, -, hconcludes, hnone⟩ := (solve_limit countingProblem 16).1 f hsolve
    refine ⟨f, hnone (by decide), hvisits, hsolve, ?_⟩
    rw [((solve_limit countingProblem 15).2.1 _ f hconcludes).2, hvisits]
    rfl
  · have hfails : dividingProblem.Concludes 2 (.error (.undefined (.quotient .posInf .posInf))) :=
      .failed (.visit ⟨_, rfl, rfl⟩ (.failed rfl rfl))
    obtain ⟨-, -, hcut, hnone, -⟩ := solve_limit dividingProblem 1
    exact ⟨hfails, hnone 2 _ hfails (by decide), hcut 2 _ hfails⟩

end Problem

end IntervalFlow
