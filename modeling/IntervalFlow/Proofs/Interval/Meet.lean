import IntervalFlow.Proofs.Interval.Lattice

/-!
# Intervals — the meet of many

`meet` takes `bottom` for a missing operand, so once two intervals have nothing in common, what is
met next starts afresh and the order of the meets matters. Among intervals that overlap pairwise
that never happens. The part they have in common runs from the greatest lower end to the least upper
one (`Innermost`). These are ends of two of the intervals, and those two overlap.
-/

namespace IntervalFlow.Interval

/-! ## Orders and bracketings -/

/-- Intervals to be met, in some order and bracketing. -/
inductive Bracketing where
  | one (a : Interval)
  | pair (left right : Bracketing)

namespace Bracketing

/-- The intervals from left to right. -/
def leaves : Bracketing → List Interval
  | one a => [a]
  | pair left right => left.leaves ++ right.leaves

def value : Bracketing → Interval
  | one a => a
  | pair left right => left.value.meet right.value

/-- The intervals after `t` are met one by one. -/
def extend (t : Bracketing) (rest : List Interval) : Bracketing :=
  rest.foldl (fun t a => pair t (one a)) t

theorem leaves_extend (t : Bracketing) (rest : List Interval) :
    (t.extend rest).leaves = t.leaves ++ rest := by
  induction rest generalizing t with
  | nil => exact (List.append_nil _).symm
  | cons a rest ih =>
    calc (t.extend (a :: rest)).leaves
        = (t.leaves ++ [a]) ++ rest := ih (pair t (one a))
      _ = t.leaves ++ a :: rest := List.append_cons .. |>.symm

theorem value_extend (t : Bracketing) (rest : List Interval) :
    (t.extend rest).value = rest.foldl meet t.value := by
  induction rest generalizing t with
  | nil => rfl
  | cons a rest ih => exact ih (pair t (one a))

/-- The intervals of a list are met from left to right. -/
def inOrder (first : Interval) (rest : List Interval) : Bracketing := (one first).extend rest

theorem leaves_inOrder (first : Interval) (rest : List Interval) :
    (inOrder first rest).leaves = first :: rest := leaves_extend (one first) rest

theorem value_inOrder (first : Interval) (rest : List Interval) :
    (inOrder first rest).value = (first :: rest).foldl meet bottom := value_extend (one first) rest

end Bracketing

/-! ## The ends of the common part -/

/-- `l` is the greatest lower and `u` the least upper end of the intervals. -/
structure Innermost (intervals : List Interval) (l u : Bound) : Prop where
  lower_le_iff : ∀ x, l ≤ x ↔ ∀ l' u', bounded l' u' ∈ intervals → l' ≤ x
  le_upper_iff : ∀ x, x ≤ u ↔ ∀ l' u', bounded l' u' ∈ intervals → x ≤ u'

namespace Innermost

variable {first second : List Interval} {l u l' u' : Bound}

theorem one (l u : Bound) : Innermost [bounded l u] l u := by
  constructor <;> simp

theorem append (h : Innermost first l u) (h' : Innermost second l' u') :
    Innermost (first ++ second) (max l l') (min u u') := by
  constructor
  · intro x
    rw [max_le_iff, h.lower_le_iff, h'.lower_le_iff]
    simp only [List.mem_append, or_imp, forall_and]
  · intro x
    rw [le_min_iff, h.le_upper_iff, h'.le_upper_iff]
    simp only [List.mem_append, or_imp, forall_and]

/-- Where each interval of one family overlaps each of another, so do their common parts. -/
theorem overlap (h : Innermost first l u) (h' : Innermost second l' u')
    (hover : ∀ a ∈ first, ∀ b ∈ second, a.overlap b = .eq) : l ≤ u' ∧ l' ≤ u := by
  have hends {la ua lb ub : Bound} (ha : bounded la ua ∈ first) (hb : bounded lb ub ∈ second) :=
    overlap_eq_iff.mp (hover _ ha _ hb)
  constructor
  · refine (h.lower_le_iff u').mpr fun la ua ha => ?_
    exact (h'.le_upper_iff la).mpr fun lb ub hb => (hends ha hb).1
  · refine (h'.lower_le_iff u).mpr fun lb ub hb => ?_
    exact (h.le_upper_iff lb).mpr fun la ua ha => (hends ha hb).2

/-- The ends depend on which intervals there are, and not on their order. -/
theorem unique (h : Innermost first l u) (h' : Innermost second l' u')
    (hsame : ∀ a, a ∈ first ↔ a ∈ second) : l = l' ∧ u = u' := by
  constructor
  · apply eq_of_forall_ge_iff
    intro x
    simp only [h.lower_le_iff, h'.lower_le_iff, hsame]
  · apply eq_of_forall_le_iff
    intro x
    simp only [h.le_upper_iff, h'.le_upper_iff, hsame]

theorem mem_iff (h : Innermost first l u) (hproper : ∀ a ∈ first, a ≠ bottom) {v : Int64} :
    v ∈ bounded l u ↔ ∀ a ∈ first, v ∈ a := by
  rw [mem_bounded, h.lower_le_iff, h.le_upper_iff]
  constructor
  · rintro ⟨hlower, hupper⟩ a ha
    cases a with
    | bottom => exact absurd rfl (hproper _ ha)
    | bounded la ua => exact ⟨hlower la ua ha, hupper la ua ha⟩
  · intro hall
    exact ⟨fun la ua ha => (hall _ ha).1, fun la ua ha => (hall _ ha).2⟩

end Innermost

/-! ## Meets of overlapping intervals -/

theorem overlap_symm {a b : Interval} (h : a.overlap b = .eq) : b.overlap a = .eq := by
  cases a with
  | bottom =>
    cases b with
    | bottom => rfl
    | bounded l' u' => cases h
  | bounded l u =>
    cases b with
    | bottom => cases h
    | bounded l' u' => exact overlap_eq_iff.mpr (overlap_eq_iff.mp h).symm

/-- Pairwise overlapping intervals are never met in `bottom`: every meet along the way runs between
the innermost ends of the intervals it is made of. -/
theorem Bracketing.value_eq (t : Bracketing) (hproper : ∀ a ∈ t.leaves, a.WellFormed ∧ a ≠ bottom)
    (hover : t.leaves.Pairwise fun a b => a.overlap b = .eq) :
    ∃ l u, t.value = bounded l u ∧ l ≤ u ∧ Innermost t.leaves l u := by
  induction t with
  | one a =>
    obtain ⟨hwf, hne⟩ := hproper a List.mem_cons_self
    cases a with
    | bottom => exact absurd rfl hne
    | bounded l u => exact ⟨l, u, rfl, hwf, .one l u⟩
  | pair left right ihleft ihright =>
    obtain ⟨hleft, hright, hacross⟩ := List.pairwise_append.mp hover
    obtain ⟨l, u, hvalue, hwf, hinner⟩ :=
      ihleft (fun a ha => hproper a (List.mem_append_left _ ha)) hleft
    obtain ⟨l', u', hvalue', hwf', hinner'⟩ :=
      ihright (fun a ha => hproper a (List.mem_append_right _ ha)) hright
    have hmeet := hinner.overlap hinner' hacross
    refine ⟨max l l', min u u', ?_, ?_, hinner.append hinner'⟩
    · rw [value, hvalue, hvalue', meet_of_wellFormed hwf hwf', if_pos hmeet]
    · exact max_le (le_min hwf hmeet.1) (le_min hmeet.2 hwf')

/-- Well-formed intervals that overlap pairwise have one meet, whatever the order and bracketing. It
is not `bottom`, and its members are their common members. -/
theorem meet_order_independent (intervals : List Interval) (hne : intervals ≠ [])
    (hproper : ∀ a ∈ intervals, a.WellFormed ∧ a ≠ bottom)
    (hover : intervals.Pairwise fun a b => a.overlap b = .eq) :
    ∃ common : Interval, common ≠ bottom ∧
      (∀ v : Int64, v ∈ common ↔ ∀ a ∈ intervals, v ∈ a) ∧
      (∀ t : Bracketing, t.leaves.Perm intervals → t.value = common) ∧
      ∀ order : List Interval, order.Perm intervals → order.foldl meet bottom = common := by
  have hends {t : Bracketing} (ht : t.leaves.Perm intervals) :
      ∃ l u, t.value = bounded l u ∧ l ≤ u ∧ Innermost t.leaves l u :=
    t.value_eq (fun a ha => hproper a (ht.mem_iff.mp ha)) (hover.perm ht.symm overlap_symm)
  obtain ⟨first, rest, rfl⟩ := List.exists_cons_of_ne_nil hne
  obtain ⟨l, u, -, -, hinner⟩ := hends (.of_eq (Bracketing.leaves_inOrder first rest))
  rw [Bracketing.leaves_inOrder] at hinner
  have hvalue (t : Bracketing) (ht : t.leaves.Perm (first :: rest)) : t.value = bounded l u := by
    obtain ⟨l', u', hvalue, -, hinner'⟩ := hends ht
    obtain ⟨rfl, rfl⟩ := hinner'.unique hinner fun a => ht.mem_iff
    exact hvalue
  refine ⟨bounded l u, by simp, fun v => hinner.mem_iff fun a ha => (hproper a ha).2, hvalue, ?_⟩
  intro order horder
  cases order with
  | nil => exact absurd horder.symm.eq_nil hne
  | cons a rest' =>
    rw [← Bracketing.value_inOrder]
    apply hvalue
    rwa [Bracketing.leaves_inOrder]

/-- Three intervals with only `[3, 5]` in common, met in three ways. -/
theorem three_overlapping_meets :
    ∃ common : Interval, common ≠ bottom ∧
      (∀ v : Int64, v ∈ common ↔ ∀ a ∈ [atMost 5, range 0 9, atLeast 3], v ∈ a) ∧
      Bracketing.value (.pair (.pair (.one (atMost 5)) (.one (range 0 9))) (.one (atLeast 3))) =
        common ∧
      Bracketing.value (.pair (.one (atLeast 3)) (.pair (.one (atMost 5)) (.one (range 0 9)))) =
        common ∧
      [range 0 9, atLeast 3, atMost 5].foldl meet bottom = common := by
  obtain ⟨common, hne, hmem, hvalue, hfold⟩ :=
    meet_order_independent [atMost 5, range 0 9, atLeast 3] (by simp) (by decide) (by decide)
  exact ⟨common, hne, hmem, hvalue _ (by decide), hvalue _ (by decide), hfold _ (by decide)⟩

-- intervals that lie apart: the result is the one met last
example : ((range 0 1).meet (range 2 3)).meet (range 4 5) = range 4 5 ∧
    (range 0 1).meet ((range 2 3).meet (range 4 5)) = range 0 1 := by decide

end IntervalFlow.Interval
