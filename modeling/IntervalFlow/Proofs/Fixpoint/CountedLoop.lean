import IntervalFlow.Proofs.Effect.CountedLoop
import IntervalFlow.Proofs.Fixpoint.PostFixpoint

/-!
# Counted loops at the end of a run

The summary of a counted loop reads what is stored at all nodes that enter the loop, but a change is
passed on to direct successors only. So the value stored at the head of a `for` loop is right for the
entry as it was read at the last visit of the head: it covers what is recomputed at the end, provided
that entrances which do not lead directly to the head have not let in anything new since. Without
the provision it need not.
-/

namespace IntervalFlow

namespace CountedLoop

/-! ## Summaries -/

theorem isWithin_entry {l : CountedLoop} {general : Store NodeId} (h : general.WellFormed)
    {node : NodeId} (hnode : node ∈ l.entrances) :
    (general.valueOf node).isWithin (l.entry general) = true :=
  (Interval.foldl_join h.valueOf l.entrances Interval.wellFormed_bottom).2.1 node hnode

theorem entry_isWithin {l : CountedLoop} {general : Store NodeId} (h : general.WellFormed)
    {bound : Interval}
    (hall : ∀ node ∈ l.entrances, (general.valueOf node).isWithin bound = true) :
    (l.entry general).isWithin bound = true :=
  (Interval.foldl_join h.valueOf l.entrances Interval.wellFormed_bottom).2.2 bound
    (Interval.bottom_isWithin _) hall

/-- The nodes that enter a counted loop lie outside of it. -/
theorem not_mem_entrances {g : Graph} {name : String} {head : NodeId} {l : CountedLoop}
    (hfor : g.ForHead head) (h : find? g name head = some l) : head ∉ l.entrances := by
  obtain ⟨initializer, condition, iteration, hkind⟩ := hfor
  have hsize : head < g.size := by
    obtain ⟨hlt, -⟩ := Array.getElem?_eq_some_iff.mp hkind
    exact hlt
  intro hmem
  exact ((mem_entrances h).mp hmem).1 (Graph.mem_cycleOf_self hsize)

theorem summary?_ok (l : CountedLoop) (general : Store NodeId) :
    ∃ summary, l.summary? general = .ok summary := by
  unfold summary?
  split
  · exact ⟨none, rfl⟩
  · split
    · exact ⟨none, rfl⟩
    · rename_i total _
      obtain ⟨value, hvalue⟩ := (l.entry general).add_range 0 total
      rw [hvalue]
      exact ⟨some value, rfl⟩

/-- The part of an input that a summary leaves. -/
def cut (input : Interval) : Option Interval → Interval
  | some summary => input.restrict summary
  | none => input

/-- A summary leaves less of an input if the loop is entered with less, as long as it is entered
at all. -/
theorem cut_mono {l : CountedLoop} {general general' : Store NodeId} {input : Interval}
    {summary summary' : Option Interval} (hinput : input.WellFormed)
    (hentry : (l.entry general').isWithin (l.entry general) = true)
    (hentered : l.entry general' = .bottom → l.entry general = .bottom)
    (h : l.summary? general = .ok summary) (h' : l.summary? general' = .ok summary') :
    (cut input summary').isWithin (cut input summary) = true := by
  unfold summary? at h h'
  by_cases hbottom : l.entry general' = .bottom
  · rw [if_pos hbottom] at h'
    rw [if_pos (hentered hbottom)] at h
    cases h
    cases h'
    exact Interval.isWithin_refl hinput
  · have hbottom' : l.entry general ≠ .bottom := by
      intro hnone
      rw [hnone] at hentry
      cases hvalue : l.entry general' with
      | bottom => exact hbottom hvalue
      | bounded lower upper =>
        rw [hvalue] at hentry
        cases hentry
    rw [if_neg hbottom] at h'
    rw [if_neg hbottom'] at h
    cases htotal : Word.mul? l.trips l.growth with
    | none =>
      rw [htotal] at h h'
      cases h
      cases h'
      exact Interval.isWithin_refl hinput
    | some total =>
      obtain ⟨sum, hsum⟩ := (l.entry general).add_range 0 total
      obtain ⟨sum', hsum'⟩ := (l.entry general').add_range 0 total
      simp only [htotal, hsum] at h
      simp only [htotal, hsum'] at h'
      cases h
      cases h'
      have hrange := Interval.isWithin_refl (Interval.wellFormed_between (.fin 0) (.fin total))
      exact Interval.restrict_mono (Interval.isWithin_refl hinput)
        (Interval.add_isWithin hentry hrange hsum' hsum)

end CountedLoop

namespace Solver

/-! ## Recomputing a head -/

/-- The output of a `for` head can always be computed: it is the input, cut by the summary of its
loop if there is one. -/
theorem transfer_forHead {s : Solver} (hinteger : s.measure = .integer) {head : NodeId}
    (hfor : s.graph.ForHead head) (general : Store NodeId) (input : Interval) :
    ∃ output, s.transfer general head input = .ok output ∧
      (head ≠ s.start ∧ input = .bottom ∧ output = .bottom ∨
        CountedLoop.find? s.graph s.name head = none ∧ output = input ∨
        ∃ loop summary, CountedLoop.find? s.graph s.name head = some loop ∧
          loop.summary? general = .ok summary ∧ output = CountedLoop.cut input summary) := by
  obtain ⟨initializer, condition, iteration, hkind⟩ := hfor
  unfold transfer
  split
  · rename_i hbottom
    exact ⟨.bottom, rfl, .inl ⟨hbottom.1, hbottom.2, rfl⟩⟩
  · have hcontext : (s.context general).graph.kind? head =
        some (.forLoop initializer condition iteration) := hkind
    simp only [hinteger, Measure.effect, Context.integerEffect, hcontext]
    cases hloop : CountedLoop.find? s.graph s.name head with
    | none =>
      refine ⟨input, ?_, .inr (.inl ⟨rfl, rfl⟩)⟩
      rw [show CountedLoop.find? (s.context general).graph (s.context general).name head = none from
        hloop]
    | some loop =>
      obtain ⟨summary, hsummary⟩ := loop.summary?_ok general
      refine ⟨CountedLoop.cut input summary, ?_, .inr (.inr ⟨loop, summary, rfl, hsummary, rfl⟩)⟩
      rw [show CountedLoop.find? (s.context general).graph (s.context general).name head = some loop
        from hloop]
      simp only [show (s.context general).general = general from rfl, hsummary]
      cases summary <;> rfl

/-- What enters the counted loop of `head` in `after` was seen in `before`: entrances that do not
lead directly to the head hold nothing beyond the entry of that time, and a loop that was entered
still is. -/
def EntrySeen (s : Solver) (head : NodeId) (before after : Store NodeId) : Prop :=
  ∀ loop, CountedLoop.find? s.graph s.name head = some loop →
    (∀ n ∈ loop.entrances, ¬ (s.propagates n = true ∧ head ∈ s.graph.next n) →
      (after.valueOf n).isWithin (loop.entry before) = true) ∧
    (loop.entry after = .bottom → loop.entry before = .bottom)

/-- If the entry was seen and direct entrances are as before, a head gives nothing new. -/
theorem transfer_forHead_mono {s : Solver} (hinteger : s.measure = .integer) {head : NodeId}
    (hfor : s.graph.ForHead head) {before after : Store NodeId} (hbefore : before.WellFormed)
    (hafter : after.WellFormed) (hseen : s.EntrySeen head before after)
    (hdirect : ∀ loop, CountedLoop.find? s.graph s.name head = some loop → ∀ n ∈ loop.entrances,
      s.propagates n = true → head ∈ s.graph.next n → after.get? n = before.get? n)
    {input old new : Interval} (hinput : input.WellFormed)
    (hold : s.transfer before head input = .ok old)
    (hnew : s.transfer after head input = .ok new) : new.isWithin old = true := by
  obtain ⟨old', hold', hcases⟩ := transfer_forHead hinteger hfor before input
  obtain ⟨new', hnew', hcases'⟩ := transfer_forHead hinteger hfor after input
  rw [hold] at hold'
  rw [hnew] at hnew'
  cases hold'
  cases hnew'
  by_cases hbottom : head ≠ s.start ∧ input = .bottom
  · rw [transfer, if_pos hbottom] at hnew
    cases hnew
    exact Interval.bottom_isWithin _
  · rcases hcases with ⟨hstart, hnone, -⟩ | ⟨hloop, rfl⟩ | ⟨loop, summary, hloop, hsummary, rfl⟩
    · exact absurd ⟨hstart, hnone⟩ hbottom
    · rcases hcases' with ⟨hstart, hnone, -⟩ | ⟨-, rfl⟩ | ⟨loop, summary, hloop', -, -⟩
      · exact absurd ⟨hstart, hnone⟩ hbottom
      · exact Interval.isWithin_refl hinput
      · rw [hloop] at hloop'
        cases hloop'
    · rcases hcases' with ⟨hstart, hnone, -⟩ | ⟨hloop', -⟩ | ⟨loop', summary', hloop', hsummary', rfl⟩
      · exact absurd ⟨hstart, hnone⟩ hbottom
      · rw [hloop] at hloop'
        cases hloop'
      · rw [hloop] at hloop'
        cases hloop'
        obtain ⟨hindirect, hentered⟩ := hseen loop hloop
        refine CountedLoop.cut_mono hinput (CountedLoop.entry_isWithin hafter ?_) hentered hsummary
          hsummary'
        intro n hn
        by_cases hedge : s.propagates n = true ∧ head ∈ s.graph.next n
        · have hsame : after.valueOf n = before.valueOf n := by
            rw [Store.valueOf, hdirect loop hloop n hn hedge.1 hedge.2, Store.valueOf]
          rw [hsame]
          exact CountedLoop.isWithin_entry hbefore hn
        · exact hindirect n hn hedge

/-! ## After the last visit of a head -/

/-- What a visit, with or without a step, leaves to the other nodes. -/
structure Touches (s : Solver) (p : Progress) (node : NodeId) (q : Progress) : Prop where
  others : ∀ n, n ≠ node → q.general.get? n = p.general.get? n
  visited : ∀ n ∈ q.visited, n = node ∨ n ∈ p.visited
  waits : ∀ n ∈ p.queue.queued, n ≠ node → n ∈ q.queue.queued
  concerned : s.propagates node = true → ∀ n ∈ s.graph.next node,
    q.general.get? node ≠ p.general.get? node → n ∈ q.queue.queued

theorem Reachable.touches {s : Solver} (hs : s.WellFormed) {p q : Progress} {node : NodeId}
    (hp : s.Reachable p) (hvisits : s.Visits p node q) : s.Touches p node q := by
  obtain ⟨queue, hpop, hvisit⟩ := hvisits
  obtain ⟨-, -, hqueued, -⟩ := hp.disciplined.queue.pop hpop
  rcases visit_updates (p := { p with queue, visits := p.visits + 1 }) hs
    (hp.computed hs).wellFormed hvisit with ⟨-, -, hsettles⟩ | ⟨value, hupdates⟩
  · obtain ⟨-, hvis, hqueue, hgeneral, -, -⟩ := hsettles
    refine ⟨?_, ?_, ?_, ?_⟩
    · intro n _
      rw [hgeneral]
    · intro n hn
      rw [hvis] at hn
      exact .inr hn
    · intro n hn hne
      rw [hqueue]
      exact ((hqueued n).mp hn).resolve_left hne
    · intro _ n _ hchanged
      rw [hgeneral] at hchanged
      exact absurd rfl hchanged
  · refine ⟨?_, ?_, ?_, ?_⟩
    · intro n hne
      rw [hupdates.general, if_neg hne]
    · intro n hn
      exact (hupdates.visited n).mp hn
    · intro n hn hne
      exact hupdates.waits n (((hqueued n).mp hn).resolve_left hne)
    · intro hprop n hn hchanged
      rw [hupdates.general, if_pos rfl] at hchanged
      exact hupdates.concerned hprop n hn (.inl hchanged.symm)

/-- Visits of nodes other than `head`. -/
def Continues (s : Solver) (head : NodeId) : Progress → Progress → Prop :=
  Relation.ReflTransGen fun p q => ∃ n, n ≠ head ∧ s.Visits p n q

theorem Reachable.continues {s : Solver} {head : NodeId} {p q : Progress} (hp : s.Reachable p)
    (h : s.Continues head p q) : s.Reachable q := by
  induction h with
  | refl => exact hp
  | tail _ hstep ih =>
    obtain ⟨n, -, hvisits⟩ := hstep
    exact ih.visit hvisits

/-- Every visited node was visited for the last time. -/
theorem Reachable.last_visit {s : Solver} (hs : s.WellFormed) {head : NodeId} {final : Progress}
    (h : s.Reachable final) (hvisited : head ∈ final.visited) :
    ∃ p q, s.Reachable p ∧ s.Visits p head q ∧ s.Continues head q final := by
  revert hvisited
  refine Reachable.induction (motive := fun final => head ∈ final.visited →
    ∃ p q, s.Reachable p ∧ s.Visits p head q ∧ s.Continues head q final) ?_ ?_ h
  · intro hvisited
    cases hvisited
  · intro p node q hp ih hvisits hvisited
    by_cases hne : node = head
    · subst hne
      exact ⟨p, q, hp, hvisits, .refl⟩
    · have hbefore := ((hp.touches hs hvisits).visited head hvisited).resolve_left (Ne.symm hne)
      obtain ⟨p', q', hp', hvisits', hcontinues⟩ := ih hbefore
      exact ⟨p', q', hp', hvisits', hcontinues.tail ⟨node, hne, hvisits⟩⟩

/-- While the head is not visited, its value and its record stay. -/
theorem Continues.head_stays {s : Solver} (hs : s.WellFormed) {head : NodeId} {p q : Progress}
    (hp : s.Reachable p) (h : s.Continues head p q) :
    q.general.get? head = p.general.get? head ∧ q.incoming.get? head = p.incoming.get? head := by
  induction h with
  | refl => exact ⟨rfl, rfl⟩
  | tail hcontinues hstep ih =>
    obtain ⟨n, hne, hvisits⟩ := hstep
    have hreachable := hp.continues hcontinues
    have htouches := hreachable.touches hs hvisits
    have hrecords := (hreachable.moves hvisits).records head
    rw [if_neg (Ne.symm hne)] at hrecords
    exact ⟨(htouches.others head (Ne.symm hne)).trans ih.1, hrecords.trans ih.2⟩

/-- While the head is not visited and does not wait, its propagating predecessors stay. -/
theorem Continues.source_stays {s : Solver} (hs : s.WellFormed) {head source : NodeId}
    {p q : Progress} (hp : s.Reachable p) (h : s.Continues head p q)
    (hfree : head ∉ q.queue.queued) (hprop : s.propagates source = true)
    (hedge : head ∈ s.graph.next source) : q.general.get? source = p.general.get? source := by
  induction h with
  | refl => rfl
  | tail hcontinues hstep ih =>
    obtain ⟨n, hne, hvisits⟩ := hstep
    have htouches := (hp.continues hcontinues).touches hs hvisits
    -- a head that waits keeps waiting until it is visited
    have hbefore := ih fun hwaits => hfree (htouches.waits head hwaits (Ne.symm hne))
    rw [← hbefore]
    by_cases hsource : source = n
    · subst hsource
      by_contra hchanged
      exact hfree (htouches.concerned hprop head hedge hchanged)
    · exact htouches.others source hsource

/-! ## Heads at the end of a run -/

/-- `before` is what was stored when `head` was visited for the last time, in a run that ends with
`after` stored. -/
def LastSeen (s : Solver) (head : NodeId) (before after : Store NodeId) : Prop :=
  ∃ p q final, s.Reachable p ∧ s.Visits p head q ∧ s.Continues head q final ∧
    final.queue.pop? = none ∧ p.general = before ∧ final.general = after

/-- The value of a head covers what is recomputed from the values stored at the end, provided that
the entry of its loop was seen at its last visit. -/
theorem Reachable.head_covered {s : Solver} (hs : s.WellFormed) (hinteger : s.measure = .integer)
    {head : NodeId} (hfor : s.graph.ForHead head) {p q final : Progress} (hp : s.Reachable p)
    (hvisits : s.Visits p head q) (hcontinues : s.Continues head q final)
    (hend : final.queue.pop? = none) (hvisited : head ∈ final.visited)
    (hseen : s.EntrySeen head p.general final.general)
    {output value : Interval} (hvalue : final.general.get? head = some value)
    (houtput : s.transfer final.general head (s.inputOf final.general head) = .ok output) :
    output.isWithin value = true := by
  have hq : s.Reachable q := hp.visit hvisits
  have hfinal : s.Reachable final := hq.continues hcontinues
  have hfree : head ∉ final.queue.queued := hfinal.disciplined.queue.pop_none hend head
  obtain ⟨hstays, hrecord⟩ := hcontinues.head_stays hs hq
  have hloop : s.graph.isLoopHead head = true := by
    obtain ⟨initializer, condition, iteration, hkind⟩ := hfor
    rw [Graph.isLoopHead, hkind]
    rfl
  -- the last visit recorded the input of the end
  have hinput : s.inputOf final.general head = s.inputOf p.general head := by
    have hlast := (hp.moves hvisits).records head
    rw [if_pos rfl, ← hrecord] at hlast
    rw [(hfinal.computed hs).current head hvisited hfree] at hlast
    exact Option.some.inj hlast
  rw [hinput] at houtput
  have hwf := (hp.computed hs).wellFormed
  obtain ⟨queue, -, hvisit⟩ := hvisits
  rcases visit_updates (p := { p with queue, visits := p.visits + 1 }) hs hwf hvisit with
    ⟨hdone, -, -⟩ | ⟨stored, hupdates⟩
  · exact absurd hdone (hp.disciplined.heads head hloop)
  · obtain ⟨old, hold, hwithin⟩ := hupdates.covers
    rw [hvalue, hupdates.general, if_pos rfl] at hstays
    cases hstays
    refine Interval.isWithin_trans ?_ hwithin
    refine transfer_forHead_mono hinteger hfor hwf (hfinal.computed hs).wellFormed hseen ?_
      (hs.inputOf hwf head) hold houtput
    intro loop hfind n hn hprop hedge
    have hne : n ≠ head := by
      rintro rfl
      exact CountedLoop.not_mem_entrances hfor hfind hn
    rw [hcontinues.source_stays hs hq hfree hprop hedge, hupdates.general, if_neg hne]

end Solver

namespace Problem

/-- At the end of a run, the output of every `for` head can be recomputed from what is stored, and it
lies within the value of the head if the entry of the loop was seen at the last visit of the head. -/
theorem solve_counted_loop {problem : Problem} {limit : Option Nat} {solution : Solution}
    (hseed : problem.seed.WellFormed) (hinteger : problem.measure = .integer)
    (h : problem.solve limit = .ok solution) {head : NodeId} {value : Interval}
    (hfor : problem.graph.ForHead head) (hvalue : solution.state.general.get? head = some value) :
    ∃ output,
      problem.solver.transfer solution.state.general head
        (problem.solver.inputOf solution.state.general head) = .ok output ∧
      ∃ before, problem.solver.LastSeen head before solution.state.general ∧
        (problem.solver.EntrySeen head before solution.state.general →
          output.isWithin value = true) := by
  obtain ⟨final, hsettled, hgeneral⟩ := solve_eq_ok h
  rw [hgeneral] at hvalue ⊢
  have hs := solver_wellFormed hseed
  have hcomputed := Solver.computed_of_settled hs hsettled
  obtain ⟨hfinal, hend⟩ := Solver.iterate_settled (.initial _) hsettled
  have hvisited : head ∈ final.visited :=
    hcomputed.mem_visited_iff.mpr (hcomputed.known_iff.mp ⟨value, hvalue⟩)
  obtain ⟨output, houtput, -⟩ := Solver.transfer_forHead (s := problem.solver) hinteger hfor
    final.general (problem.solver.inputOf final.general head)
  obtain ⟨p, q, hp, hvisits, hcontinues⟩ := hfinal.last_visit hs hvisited
  refine ⟨output, houtput, p.general, ⟨p, q, final, hp, hvisits, hcontinues, hend, rfl, rfl⟩, ?_⟩
  intro hseen
  exact hp.head_covered hs hinteger hfor hvisits hcontinues hend hvisited hseen hvalue houtput

/-- `int x = 0; for (int c = 0; c < 1; c++) x++; x`, where the declaration of `c` leads directly to
the head of the loop. -/
def directEntry : Graph where
  kinds := #[.literal (some 0), .declaration "x" "int" (some 0), .declaration "c" "int" (some 0),
    .reference "c" "int" (some 2), .literal (some 1), .binary .lt 3 4, .unary .increment 3,
    .forLoop (some 2) (some 5) (some 6), .reference "x" "int" (some 1), .unary .increment 8,
    .reference "x" "int" (some 1)]
  edges := [⟨1, 2, none⟩, ⟨2, 7, none⟩, ⟨7, 9, none⟩, ⟨9, 6, none⟩, ⟨6, 5, none⟩, ⟨5, 7, none⟩,
    ⟨7, 10, none⟩]
  faultless := by decide +kernel

def directEntryProblem : Problem := ⟨directEntry, .integer, "x", 1, 10, .bottom⟩

/-- The only entrance leads directly to the head, so the entry was seen, whatever it was. -/
theorem direct_entry_covered : ∃ solution output value,
    directEntryProblem.solve none = .ok solution ∧
      directEntryProblem.solver.transfer solution.state.general 7
        (directEntryProblem.solver.inputOf solution.state.general 7) = .ok output ∧
      solution.state.general.get? 7 = some value ∧ output.isWithin value = true := by
  have hloop : CountedLoop.find? directEntry "x" 7 = some ⟨1, 1, [2]⟩ := by decide +kernel
  have hrun : (directEntryProblem.solve none).toOption.any (fun solution =>
      (solution.state.general.get? 7).isSome &&
        decide (CountedLoop.entry ⟨1, 1, [2]⟩ solution.state.general ≠ .bottom)) = true := by
    decide +kernel
  obtain ⟨solution, hsolve, hfinal⟩ := exists_ok_of_any hrun
  obtain ⟨hsome, hentered⟩ := Bool.and_eq_true_iff.mp hfinal
  obtain ⟨value, hvalue⟩ := Option.isSome_iff_exists.mp hsome
  obtain ⟨output, houtput, before, -, hcovered⟩ :=
    solve_counted_loop (by decide) rfl hsolve ⟨_, _, _, rfl⟩ hvalue
  refine ⟨solution, output, value, hsolve, houtput, hvalue, hcovered ?_⟩
  intro loop hfind
  cases hloop.symm.trans hfind
  constructor
  · intro n hn hindirect
    rw [List.mem_singleton.mp hn] at hindirect
    exact absurd (by decide +kernel) hindirect
  · intro hbottom
    exact absurd hbottom (of_decide_eq_true hentered)

/-! ## A late entry

`int x = 0; if (f()) while (x <= 3) { x -= 2; while (f()) x++; } for (int c = 0; c < 1; c++) x++; x`

Values above `3` leave the first loop only late. They reach the declaration of `c`, which enters the
counted loop, after the head of that loop was visited for the last time, and the condition between
the two was widened before, so that the change ends there. -/

def lateEntry : Graph where
  kinds := #[.literal (some 0), .declaration "x" "int" (some 0), .call "f" [], .branch 2,
    .reference "x" "int" (some 1), .literal (some 3), .binary .le 4 5, .whileLoop 6,
    .literal (some 2), .assignment .sub 4 8, .call "f" [], .whileLoop 10, .unary .increment 4,
    .declaration "c" "int" (some 0), .reference "c" "int" (some 13), .literal (some 1),
    .binary .lt 14 15, .unary .increment 14, .forLoop (some 13) (some 16) (some 17),
    .unary .increment 4, .reference "x" "int" (some 1)]
  edges := [⟨1, 2, none⟩, ⟨2, 3, none⟩, ⟨3, 4, none⟩, ⟨4, 6, none⟩, ⟨6, 7, none⟩, ⟨7, 9, none⟩,
    ⟨9, 10, none⟩, ⟨10, 11, none⟩, ⟨11, 12, none⟩, ⟨12, 10, none⟩, ⟨11, 4, none⟩, ⟨7, 13, none⟩,
    ⟨3, 13, none⟩, ⟨13, 16, none⟩, ⟨16, 18, none⟩, ⟨18, 19, none⟩, ⟨19, 17, none⟩, ⟨17, 16, none⟩,
    ⟨18, 20, none⟩]
  faultless := by decide +kernel

def lateEntryProblem : Problem := ⟨lateEntry, .integer, "x", 1, 20, .bottom⟩

/-- The head of the counted loop ends with `[0, 1]`, although its entry has grown to `[0, +∞]`. -/
theorem late_entry_not_covered : ∃ solution output,
    lateEntryProblem.solve none = .ok solution ∧ lateEntryProblem.graph.ForHead 18 ∧
      solution.state.general.get? 18 = some (.bounded (.fin 0) (.fin 1)) ∧
      lateEntryProblem.solver.transfer solution.state.general 18
        (lateEntryProblem.solver.inputOf solution.state.general 18) = .ok output ∧
      output.isWithin (.bounded (.fin 0) (.fin 1)) = false := by
  have hrun : (lateEntryProblem.solve none).toOption.any (fun solution =>
      decide (solution.state.general.get? 18 = some (.bounded (.fin 0) (.fin 1))) &&
        (lateEntryProblem.solver.transfer solution.state.general 18
          (lateEntryProblem.solver.inputOf solution.state.general 18)).toOption.any
            (fun output => !output.isWithin (.bounded (.fin 0) (.fin 1)))) = true := by
    decide +kernel
  obtain ⟨solution, hsolve, hfinal⟩ := exists_ok_of_any hrun
  obtain ⟨hvalue, hescapes⟩ := Bool.and_eq_true_iff.mp hfinal
  obtain ⟨output, houtput, hescapes⟩ := exists_ok_of_any hescapes
  rw [Bool.not_eq_true'] at hescapes
  exact ⟨solution, output, hsolve, ⟨_, _, _, rfl⟩, of_decide_eq_true hvalue, houtput, hescapes⟩

end Problem

end IntervalFlow
