import IntervalFlow.Trace.Tracer
import Mathlib.Data.List.Perm.Subperm

/-!
# Tracers — levels

Tracers are opened and closed one at a time, and any open one may be closed next. One that is not
the deepest leaves the depth as it is, so that a level may stay taken after its tracer is gone; but
no two open tracers ever share a level. Tracers that are closed in the reverse order of their opening
use every level below the depth once.
-/

namespace IntervalFlow

/-! ## Opening and closing -/

theorem Nesting.enter_of_enabled {n : Nesting} (h : n.enabled = true) (title : String) :
    n.enter title = (⟨true, n.depth + 1⟩, ⟨title, some n.depth, 0⟩) := by
  rw [enter, if_pos h, h]

theorem Nesting.leave_of_level {t : Tracer} {level : Nat} (h : t.level = some level) (n : Nesting) :
    n.leave t = if n.depth = level + 1 then ⟨n.enabled, level⟩ else n := by
  rw [leave, h]

/-- The open tracers, the latest first, and how deep they are nested. -/
structure Tracing where
  nesting : Nesting
  tracers : List Tracer

namespace Tracing

/-- Nothing is open, and tracers are given levels. -/
def start : Tracing := ⟨⟨true, 0⟩, []⟩

inductive Act where
  | enter (title : String)
  /-- Closes the open tracer at a position; the latest is at zero. -/
  | leave (position : Nat)

/-- What comes of an act, if there is a tracer at the position to be closed. -/
def perform (s : Tracing) : Act → Option Tracing
  | .enter title => some ⟨(s.nesting.enter title).1, (s.nesting.enter title).2 :: s.tracers⟩
  | .leave i => s.tracers[i]?.map fun t => ⟨s.nesting.leave t, s.tracers.eraseIdx i⟩

def run (s : Tracing) (acts : List Act) : Option Tracing := acts.foldlM perform s

variable {s s' : Tracing} {acts : List Act} {act : Act}

theorem run_cons_eq_some : s.run (act :: acts) = some s' ↔
    ∃ next, s.perform act = some next ∧ next.run acts = some s' := by
  rw [run, List.foldlM_cons]
  exact Option.bind_eq_some_iff

theorem run_append_eq_some {earlier later : List Act} : s.run (earlier ++ later) = some s' ↔
    ∃ middle, s.run earlier = some middle ∧ middle.run later = some s' := by
  rw [run, List.foldlM_append]
  exact Option.bind_eq_some_iff

theorem perform_leave_eq_some {i : Nat} : s.perform (.leave i) = some s' ↔
    ∃ t, s.tracers[i]? = some t ∧ s' = ⟨s.nesting.leave t, s.tracers.eraseIdx i⟩ := by
  rw [perform, Option.map_eq_some_iff]
  simp only [eq_comm]

/-- What every act of a run keeps holds at its end. -/
theorem run_induction {motive : Tracing → Prop} (hrun : s.run acts = some s') (hstart : motive s)
    (hstep : ∀ act ∈ acts, ∀ before after, motive before → before.perform act = some after →
      motive after) : motive s' := by
  induction acts generalizing s with
  | nil =>
    cases hrun
    exact hstart
  | cons act acts ih =>
    obtain ⟨next, hnext, hrest⟩ := run_cons_eq_some.mp hrun
    refine ih hrest (hstep act List.mem_cons_self s next hstart hnext) ?_
    intro act' hact'
    exact hstep act' (List.mem_cons_of_mem act hact')

/-! ## Any order of closing -/

/-- Open tracers have levels of their own below the depth. -/
structure Separated (s : Tracing) : Prop where
  enabled : s.nesting.enabled = true
  distinct : (s.tracers.map Tracer.level).Nodup
  below : ∀ t ∈ s.tracers, ∃ level, t.level = some level ∧ level < s.nesting.depth

theorem Separated.enter (h : s.Separated) (title : String) :
    Separated ⟨(s.nesting.enter title).1, (s.nesting.enter title).2 :: s.tracers⟩ := by
  rw [Nesting.enter_of_enabled h.enabled]
  refine ⟨rfl, ?_, ?_⟩
  · refine List.nodup_cons.mpr ⟨?_, h.distinct⟩
    intro hmem
    obtain ⟨t, ht, hlevel⟩ := List.mem_map.mp hmem
    obtain ⟨level, hlevel', hlt⟩ := h.below t ht
    rw [hlevel', Option.some.injEq] at hlevel
    omega
  · intro t ht
    rcases List.mem_cons.mp ht with rfl | ht
    · exact ⟨s.nesting.depth, rfl, Nat.lt_succ_self _⟩
    · obtain ⟨level, hlevel, hlt⟩ := h.below t ht
      exact ⟨level, hlevel, Nat.lt_succ_of_lt hlt⟩

/-- The tracers that stay open have other levels than the one that is closed. -/
theorem Separated.level_ne (h : s.Separated) {i : Nat} {t other : Tracer}
    (ht : s.tracers[i]? = some t) (hother : other ∈ s.tracers.eraseIdx i) :
    other.level ≠ t.level := by
  obtain ⟨j, hne, hj⟩ := List.mem_eraseIdx_iff_getElem?.mp hother
  intro heq
  have hlt : j < (s.tracers.map Tracer.level).length := by
    rw [List.length_map]
    exact (List.getElem?_eq_some_iff.mp hj).1
  apply hne
  apply (List.getElem?_inj hlt h.distinct).mp
  rw [List.getElem?_map, List.getElem?_map, hj, ht, Option.map_some, Option.map_some, heq]

theorem Separated.leave (h : s.Separated) {i : Nat} {t : Tracer} (ht : s.tracers[i]? = some t) :
    Separated ⟨s.nesting.leave t, s.tracers.eraseIdx i⟩ := by
  obtain ⟨level, hlevel, -⟩ := h.below t (List.mem_of_getElem? ht)
  have hdistinct : ((s.tracers.eraseIdx i).map Tracer.level).Nodup :=
    h.distinct.sublist ((List.eraseIdx_sublist s.tracers i).map _)
  have hbelow (other : Tracer) (hother : other ∈ s.tracers.eraseIdx i) :
      ∃ level', other.level = some level' ∧ level' < s.nesting.depth ∧ level' ≠ level := by
    obtain ⟨level', hlevel', hlt⟩ := h.below other (List.mem_of_mem_eraseIdx hother)
    refine ⟨level', hlevel', hlt, ?_⟩
    rintro rfl
    exact h.level_ne ht hother (hlevel'.trans hlevel.symm)
  rw [Nesting.leave_of_level hlevel]
  split_ifs with hdeepest
  · -- the depth falls to the level that is given free, and all others lie below it
    refine ⟨h.enabled, hdistinct, ?_⟩
    intro other hother
    obtain ⟨level', hlevel', hlt, hne⟩ := hbelow other hother
    exact ⟨level', hlevel', show level' < level by omega⟩
  · refine ⟨h.enabled, hdistinct, ?_⟩
    intro other hother
    obtain ⟨level', hlevel', hlt, -⟩ := hbelow other hother
    exact ⟨level', hlevel', hlt⟩

theorem Separated.perform (h : s.Separated) (hact : s.perform act = some s') : s'.Separated := by
  cases act with
  | enter title =>
    cases hact
    exact h.enter title
  | leave i =>
    obtain ⟨t, ht, rfl⟩ := perform_leave_eq_some.mp hact
    exact h.leave ht

/-- There are at most as many different levels as lie below the depth. -/
theorem Separated.length_le (h : s.Separated) : s.tracers.length ≤ s.nesting.depth := by
  have hsubset : s.tracers.map Tracer.level ⊆ (List.range s.nesting.depth).map some := by
    intro level hlevel
    obtain ⟨t, ht, rfl⟩ := List.mem_map.mp hlevel
    obtain ⟨level, hlevel, hlt⟩ := h.below t ht
    rw [hlevel]
    exact List.mem_map_of_mem (List.mem_range.mpr hlt)
  simpa using (List.subperm_of_subset h.distinct hsubset).length_le

theorem run_separated (h : start.run acts = some s) : s.Separated := by
  refine run_induction h ⟨rfl, List.nodup_nil, ?_⟩ fun _ _ _ _ hbefore => hbefore.perform
  intro t ht
  cases ht

theorem depth_perform_le (h : s.perform act = some s') :
    s'.nesting.depth ≤ s.nesting.depth + 1 := by
  cases act with
  | enter title =>
    cases h
    simp only [Nesting.enter]
    split <;> simp
  | leave i =>
    obtain ⟨t, -, rfl⟩ := perform_leave_eq_some.mp h
    cases hlevel : t.level with
    | none => simp [Nesting.leave, hlevel]
    | some level =>
      rw [Nesting.leave_of_level hlevel]
      split_ifs with hdeepest
      · simp only
        omega
      · exact Nat.le_succ _

theorem depth_run_le (h : s.run acts = some s') :
    s'.nesting.depth ≤ s.nesting.depth + acts.length := by
  induction acts generalizing s with
  | nil =>
    cases h
    exact Nat.le_refl _
  | cons act acts ih =>
    obtain ⟨next, hnext, hrest⟩ := run_cons_eq_some.mp h
    have hone := depth_perform_le hnext
    have hmore := ih hrest
    rw [List.length_cons]
    omega

/-! ## The latest first -/

/-- The open tracers have all the levels below the depth, in the order of their opening. -/
structure Stacked (s : Tracing) : Prop where
  enabled : s.nesting.enabled = true
  levels : s.tracers.map Tracer.level = ((List.range s.nesting.depth).map some).reverse

theorem Stacked.depth_eq (h : s.Stacked) : s.nesting.depth = s.tracers.length := by
  simpa using (congrArg List.length h.levels).symm

theorem Stacked.enter (h : s.Stacked) (title : String) :
    Stacked ⟨(s.nesting.enter title).1, (s.nesting.enter title).2 :: s.tracers⟩ := by
  rw [Nesting.enter_of_enabled h.enabled]
  refine ⟨rfl, ?_⟩
  simp [List.range_succ, h.levels]

theorem Stacked.leave {n : Nesting} {t : Tracer} {rest : List Tracer}
    (h : Stacked ⟨n, t :: rest⟩) : Stacked ⟨n.leave t, rest⟩ := by
  obtain ⟨depth, hdepth⟩ : ∃ depth, n.depth = depth + 1 := ⟨_, h.depth_eq⟩
  have hlevels := h.levels
  simp only [hdepth, List.range_succ, List.map_append, List.reverse_append, List.map_cons,
    List.map_nil, List.reverse_singleton, List.singleton_append, List.cons.injEq] at hlevels
  obtain ⟨hlevel, hrest⟩ := hlevels
  rw [Nesting.leave_of_level hlevel, if_pos hdepth]
  exact ⟨h.enabled, hrest⟩

theorem Stacked.perform (h : s.Stacked) (hact : s.perform act = some s')
    (hlatest : ∀ i, act = .leave i → i = 0) : s'.Stacked := by
  cases act with
  | enter title =>
    cases hact
    exact h.enter title
  | leave i =>
    obtain rfl := hlatest i rfl
    obtain ⟨n, tracers⟩ := s
    obtain ⟨t, ht, rfl⟩ := perform_leave_eq_some.mp hact
    cases tracers with
    | nil => cases ht
    | cons latest rest =>
      cases ht
      exact h.leave

theorem run_stacked (h : start.run acts = some s) (hlatest : ∀ i, Act.leave i ∈ acts → i = 0) :
    s.Stacked := by
  refine run_induction h ⟨rfl, rfl⟩ ?_
  intro act hact before after hbefore hperform
  refine hbefore.perform hperform ?_
  rintro i rfl
  exact hlatest i hact

/-- However tracers are opened and closed, those that are open have different levels, all below the
depth, so that there are at most as many of them. The depth is at most the number of acts, so that a
counter of 64 bits does not overflow in fewer than `2 ^ 64` of them. Where each tracer that is
closed is the latest of the open ones, the depth is the number of open tracers, and each tracer is
given as its level the number of those that were open before it. -/
theorem run_levels (acts : List Act) (h : start.run acts = some s) :
    (s.tracers.map Tracer.level).Nodup ∧
    (∀ t ∈ s.tracers, ∃ level, t.level = some level ∧ level < s.nesting.depth) ∧
    s.tracers.length ≤ s.nesting.depth ∧ s.nesting.depth ≤ acts.length ∧
    ((∀ i, Act.leave i ∈ acts → i = 0) →
      s.nesting.depth = s.tracers.length ∧
      ∀ earlier title later, acts = earlier ++ .enter title :: later →
        ∃ before after t, start.run earlier = some before ∧
          before.perform (.enter title) = some after ∧ after.run later = some s ∧
          after.tracers = t :: before.tracers ∧ t.level = some before.tracers.length) := by
  have hseparated := run_separated h
  have hdepth : s.nesting.depth ≤ 0 + acts.length := depth_run_le h
  rw [Nat.zero_add] at hdepth
  refine ⟨hseparated.distinct, hseparated.below, hseparated.length_le, hdepth, ?_⟩
  intro hlatest
  refine ⟨(run_stacked h hlatest).depth_eq, ?_⟩
  rintro earlier title later rfl
  obtain ⟨before, hearlier, hlater⟩ := run_append_eq_some.mp h
  obtain ⟨after, hafter, hlater⟩ := run_cons_eq_some.mp hlater
  have hbefore : before.Stacked :=
    run_stacked hearlier fun i hi => hlatest i (List.mem_append_left _ hi)
  refine ⟨before, after, (before.nesting.enter title).2, hearlier, hafter, hlater, ?_, ?_⟩
  · cases hafter
    rfl
  · rw [Nesting.enter_of_enabled hbefore.enabled, ← hbefore.depth_eq]

/-- The second of two tracers outlives the first, which leaves its level taken; closed in order, two
tracers leave nothing behind. -/
theorem outliving_levels :
    (∃ s, start.run [.enter "outer", .enter "inner", .leave 1, .enter "next"] = some s ∧
      (s.tracers.map Tracer.level).Nodup ∧ s.tracers.length = 2 ∧ 2 ≤ s.nesting.depth) ∧
    ∃ s, start.run [.enter "outer", .enter "inner", .leave 0, .leave 0] = some s ∧
      s.nesting.depth = 0 ∧
      ∃ before after t, start.run [.enter "outer"] = some before ∧
        before.perform (.enter "inner") = some after ∧ after.run [.leave 0, .leave 0] = some s ∧
        after.tracers = t :: before.tracers ∧ t.level = some before.tracers.length := by
  constructor
  · obtain ⟨hdistinct, -, hcount, -⟩ :=
      run_levels [.enter "outer", .enter "inner", .leave 1, .enter "next"] rfl
    exact ⟨_, rfl, hdistinct, rfl, hcount⟩
  · obtain ⟨-, -, -, -, hlatest⟩ :=
      run_levels [.enter "outer", .enter "inner", .leave 0, .leave 0] rfl
    obtain ⟨hdepth, hlevel⟩ := hlatest (by simp)
    exact ⟨_, rfl, hdepth, hlevel [.enter "outer"] "inner" [.leave 0, .leave 0] rfl⟩

end Tracing

end IntervalFlow
