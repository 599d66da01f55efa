import IntervalFlow.Proofs.Bound.Exact
import IntervalFlow.Proofs.Interval.Arithmetic

/-!
# Interval arithmetic — undefined results

When sums, differences and quotients of intervals fail. Well-formed intervals have few ways to bring
infinities together that undo each other: a lower end at `posInf` or an upper one at `negInf` leaves
room for no other end. Quotients fail for infinite ends only, since zero among the divisors is
looked for first.
-/

namespace IntervalFlow

/-- The report of a division by an infinity is not that of a division by zero. -/
theorem Undefined.quotient_message_ne {x y z : Bound} (hy : y.isFinite = false) :
    (quotient x y).message ≠ (quotient z (.fin 0)).message := by
  have hzero : (Bound.fin 0).render.toList.getLast? = some '0' := by decide
  have hinfinite : y.render.toList.getLast? = some 'f' := by
    cases y with
    | fin v => cases hy
    | negInf => rfl
    | posInf => rfl
  -- a report ends as the divisor does
  have hlast {a b : Bound} {c : Char} (hb : b.render.toList.getLast? = some c) :
      (quotient a b).message.toList.getLast? = some c := by
    rw [message, String.toList_append, List.getLast?_append, hb]
    rfl
  intro h
  have hends := hlast hinfinite (a := x)
  rw [h, hlast hzero] at hends
  cases hends

namespace Interval

/-! ## Infinite ends -/

/-- The interval has no upper end. -/
def UnboundedAbove (a : Interval) : Prop := ∃ l, a = bounded l .posInf

/-- One of the ends is infinite, on whichever side. -/
def HasInfiniteEnd (a : Interval) : Prop :=
  ∃ l u, a = bounded l u ∧ (l.isFinite = false ∨ u.isFinite = false)

variable {l u l' u' : Bound}

theorem unboundedBelow_bounded : (bounded l u).UnboundedBelow ↔ l = .negInf := by
  simp [UnboundedBelow]

theorem unboundedAbove_bounded : (bounded l u).UnboundedAbove ↔ u = .posInf := by
  simp [UnboundedAbove]

theorem hasInfiniteEnd_bounded :
    (bounded l u).HasInfiniteEnd ↔ l.isFinite = false ∨ u.isFinite = false := by
  constructor
  · rintro ⟨l, u, heq, h⟩
    cases heq
    exact h
  · intro h
    exact ⟨l, u, rfl, h⟩

/-- A lower end at `posInf` leaves the upper one no choice. -/
theorem eq_posInf_iff (h : l ≤ u) : l = .posInf ↔ bounded l u = bounded .posInf .posInf := by
  rw [bounded.injEq, iff_self_and]
  rintro rfl
  exact Bound.posInf_le_iff.mp h

theorem eq_negInf_iff (h : l ≤ u) : u = .negInf ↔ bounded l u = bounded .negInf .negInf := by
  rw [bounded.injEq, iff_and_self]
  rintro rfl
  exact Bound.le_negInf_iff.mp h

/-! ## Sums and differences -/

theorem bounded_add_fails_iff : (∃ e, (bounded l u).add (bounded l' u') = .error e) ↔
    (∃ e, l.add l' = .error e) ∨ ∃ e, u.add u' = .error e := by
  rw [add, exists_error_bind_iff fun x => exists_error_bind_iff fun y => exists_error_pure_iff _,
    or_false]

theorem bounded_sub_fails_iff : (∃ e, (bounded l u).sub (bounded l' u') = .error e) ↔
    (∃ e, l.sub u' = .error e) ∨ ∃ e, u.sub l' = .error e := by
  rw [sub, exists_error_bind_iff fun x => exists_error_bind_iff fun y => exists_error_pure_iff _,
    or_false]

theorem add_fails_iff {a b : Interval} (ha : a.WellFormed) (hb : b.WellFormed) :
    (∃ e, a.add b = .error e) ↔
      a = bounded .posInf .posInf ∧ b.UnboundedBelow ∨
      b = bounded .posInf .posInf ∧ a.UnboundedBelow ∨
      a = bounded .negInf .negInf ∧ b.UnboundedAbove ∨
      b = bounded .negInf .negInf ∧ a.UnboundedAbove := by
  cases a with
  | bottom => simp [add, UnboundedBelow, UnboundedAbove]
  | bounded l u =>
    cases b with
    | bottom => simp [add, UnboundedBelow, UnboundedAbove]
    | bounded l' u' =>
      rw [bounded_add_fails_iff, unboundedBelow_bounded, unboundedBelow_bounded,
        unboundedAbove_bounded, unboundedAbove_bounded, ← eq_posInf_iff ha, ← eq_posInf_iff hb,
        ← eq_negInf_iff ha, ← eq_negInf_iff hb]
      simp only [Bound.add_eq_error_iff, exists_eq_left]
      grind

theorem sub_fails_iff {a b : Interval} (ha : a.WellFormed) (hb : b.WellFormed) :
    (∃ e, a.sub b = .error e) ↔
      a = bounded .posInf .posInf ∧ b.UnboundedAbove ∨
      a = bounded .negInf .negInf ∧ b.UnboundedBelow ∨
      b = bounded .posInf .posInf ∧ a.UnboundedAbove ∨
      b = bounded .negInf .negInf ∧ a.UnboundedBelow := by
  cases a with
  | bottom => simp [sub, UnboundedBelow, UnboundedAbove]
  | bounded l u =>
    cases b with
    | bottom => simp [sub, UnboundedBelow, UnboundedAbove]
    | bounded l' u' =>
      rw [bounded_sub_fails_iff, unboundedBelow_bounded, unboundedBelow_bounded,
        unboundedAbove_bounded, unboundedAbove_bounded, ← eq_posInf_iff ha, ← eq_posInf_iff hb,
        ← eq_negInf_iff ha, ← eq_negInf_iff hb]
      simp only [Bound.sub_eq_error_iff, exists_eq_left]
      grind

/-! ## Quotients -/

/-- No end of a range without zero is zero. -/
theorem ends_ne_zero (h : l ≤ u) (h0 : (0 : Int64) ∉ bounded l u) : l ≠ .fin 0 ∧ u ≠ .fin 0 := by
  constructor
  · rintro rfl
    exact h0 ⟨le_rfl, h⟩
  · rintro rfl
    exact h0 ⟨h, le_rfl⟩

theorem bounded_div_fails_iff : (∃ e, (bounded l u).div (bounded l' u') = .error e) ↔
    (0 : Int64) ∉ bounded l' u' ∧ ((∃ e, l.div l' = .error e) ∨ (∃ e, l.div u' = .error e) ∨
      (∃ e, u.div l' = .error e) ∨ ∃ e, u.div u' = .error e) := by
  rw [div]
  by_cases h0 : (0 : Int64) ∈ bounded l' u'
  · rw [if_pos h0]
    simp only [reduceCtorEq, exists_false, not_true, h0, false_and]
  · rw [if_neg h0, exists_error_bind_iff fun p => exists_error_bind_iff fun q =>
      exists_error_bind_iff fun r => exists_error_bind_iff fun s => exists_error_pure_iff _,
      or_false, and_iff_right h0]

theorem div_fails_iff {a b : Interval} (hb : b.WellFormed) :
    (∃ e, a.div b = .error e) ↔
      a ≠ bottom ∧ b ≠ bottom ∧ (0 : Int64) ∉ b ∧ a.HasInfiniteEnd ∧ b.HasInfiniteEnd := by
  cases a with
  | bottom => simp [div]
  | bounded l u =>
    cases b with
    | bottom => simp [div]
    | bounded l' u' =>
      rw [bounded_div_fails_iff, hasInfiniteEnd_bounded, hasInfiniteEnd_bounded]
      by_cases h0 : (0 : Int64) ∈ bounded l' u'
      · simp [h0]
      · obtain ⟨hl', hu'⟩ := ends_ne_zero hb h0
        simp only [Bound.div_eq_error_iff, exists_eq_left, hl', hu', false_or]
        grind

/-- A quotient fails at two infinite ends, and never for zero. -/
theorem infinite_of_div_error {a b : Interval} (hb : b.WellFormed) {e : Undefined}
    (h : a.div b = .error e) :
    ∃ x y, e = .quotient x y ∧ x.isFinite = false ∧ y.isFinite = false := by
  cases a with
  | bottom => cases h
  | bounded l u =>
    cases b with
    | bottom => cases h
    | bounded l' u' =>
      rw [div] at h
      split at h
      · cases h
      · rename_i h0
        obtain ⟨hl', hu'⟩ := ends_ne_zero hb h0
        have hcorner {x y : Bound} (hy : y ≠ .fin 0) (hxy : x.div y = .error e) :
            ∃ x y, e = .quotient x y ∧ x.isFinite = false ∧ y.isFinite = false := by
          obtain ⟨rfl, hzero | hinfinite⟩ := Bound.div_eq_error_iff.mp hxy
          · exact absurd hzero hy
          · exact ⟨x, y, rfl, hinfinite⟩
        rcases bind_eq_error_iff.mp h with hll | ⟨p, -, h⟩
        · exact hcorner hl' hll
        rcases bind_eq_error_iff.mp h with hlu | ⟨q, -, h⟩
        · exact hcorner hu' hlu
        rcases bind_eq_error_iff.mp h with hul | ⟨r, -, h⟩
        · exact hcorner hl' hul
        rcases bind_eq_error_iff.mp h with huu | ⟨s, -, h⟩
        · exact hcorner hu' huu
        · cases h

/-! ## All together -/

/-- When the arithmetic of well-formed intervals fails. A quotient fails where both operands have an
infinite end and zero is not among the divisors, and its report is never that of a division by zero.
A sum fails where one operand is the point at an infinity and the other reaches out to the opposite
one, and a difference where it reaches out to the same one. -/
theorem arithmetic_fails_iff {a b : Interval} (ha : a.WellFormed) (hb : b.WellFormed) :
    (((∃ e, a.div b = .error e) ↔
        a ≠ bottom ∧ b ≠ bottom ∧ (0 : Int64) ∉ b ∧ a.HasInfiniteEnd ∧ b.HasInfiniteEnd) ∧
      ∀ e, a.div b = .error e →
        ∀ x : Bound, e.message ≠ (Undefined.quotient x (.fin 0)).message) ∧
    ((∃ e, a.add b = .error e) ↔
      a = bounded .posInf .posInf ∧ b.UnboundedBelow ∨
      b = bounded .posInf .posInf ∧ a.UnboundedBelow ∨
      a = bounded .negInf .negInf ∧ b.UnboundedAbove ∨
      b = bounded .negInf .negInf ∧ a.UnboundedAbove) ∧
    ((∃ e, a.sub b = .error e) ↔
      a = bounded .posInf .posInf ∧ b.UnboundedAbove ∨
      a = bounded .negInf .negInf ∧ b.UnboundedBelow ∨
      b = bounded .posInf .posInf ∧ a.UnboundedAbove ∨
      b = bounded .negInf .negInf ∧ a.UnboundedBelow) := by
  refine ⟨⟨div_fails_iff hb, ?_⟩, add_fails_iff ha hb, sub_fails_iff ha hb⟩
  intro e he x
  obtain ⟨p, q, rfl, -, hq⟩ := infinite_of_div_error hb he
  exact Undefined.quotient_message_ne hq

/-- The point at infinity has neither a quotient by `[2, +inf]` nor a difference from it, and no sum
with everything. -/
theorem point_at_infinity_fails :
    (∃ e, (bounded .posInf .posInf).div (atLeast 2) = .error e ∧
      ∀ x : Bound, e.message ≠ (Undefined.quotient x (.fin 0)).message) ∧
    (∃ e, (bounded .posInf .posInf).sub (atLeast 2) = .error e) ∧
    (∃ e, (bounded .posInf .posInf).add top = .error e) := by
  obtain ⟨⟨hdiv, hmessage⟩, -, hsub⟩ :=
    arithmetic_fails_iff (a := bounded .posInf .posInf) (b := atLeast 2) (by decide) (by decide)
  obtain ⟨-, hadd, -⟩ :=
    arithmetic_fails_iff (a := bounded .posInf .posInf) (b := top) (by decide) (by decide)
  have hinfinite : (bounded .posInf .posInf).HasInfiniteEnd := hasInfiniteEnd_bounded.mpr (.inl rfl)
  have hinfinite' : (atLeast 2).HasInfiniteEnd := hasInfiniteEnd_bounded.mpr (.inr rfl)
  obtain ⟨e, he⟩ := hdiv.mpr ⟨by decide, by decide, by decide, hinfinite, hinfinite'⟩
  refine ⟨⟨e, he, hmessage e he⟩, ?_, ?_⟩
  · exact hsub.mpr (.inl ⟨rfl, _, rfl⟩)
  · exact hadd.mpr (.inl ⟨rfl, _, rfl⟩)

end Interval

end IntervalFlow
