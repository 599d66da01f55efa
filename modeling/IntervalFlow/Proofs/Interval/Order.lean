import IntervalFlow.Proofs.Interval.Lattice

/-!
# Intervals — the lattice of containment

Well-formed intervals form a bounded lattice under `isWithin`: `join` is the least upper bound,
`restrict` the greatest lower bound, and `order?` the comparison that belongs to it. The laws of
`join` alone need no well-formedness, since a merge that gives up answers with `top`, which absorbs
every interval with bounds.
-/

namespace IntervalFlow

/-! ## Comparisons -/

/-- The outcome of comparing two values, of which the first lies below the second if `le` and above
it if `ge`. -/
inductive Compares (le ge : Prop) : Option Ordering → Prop where
  | lt (hle : le) (hge : ¬ ge) : Compares le ge (some .lt)
  | eq (hle : le) (hge : ge) : Compares le ge (some .eq)
  | gt (hle : ¬ le) (hge : ge) : Compares le ge (some .gt)
  | none (hle : ¬ le) (hge : ¬ ge) : Compares le ge none

namespace Compares

variable {le ge : Prop} {o o' : Option Ordering}

theorem lt_iff (h : Compares le ge o) : o = some .lt ↔ le ∧ ¬ ge := by
  cases h <;> simp_all

theorem eq_iff (h : Compares le ge o) : o = some .eq ↔ le ∧ ge := by
  cases h <;> simp_all

theorem gt_iff (h : Compares le ge o) : o = some .gt ↔ ge ∧ ¬ le := by
  cases h <;> simp_all

theorem none_iff (h : Compares le ge o) : o = Option.none ↔ ¬ le ∧ ¬ ge := by
  cases h <;> simp_all

/-- The outcome says whether the first value lies below the second. -/
theorem le_iff (h : Compares le ge o) : o = some .lt ∨ o = some .eq ↔ le := by
  rw [h.lt_iff, h.eq_iff, ← and_or_left]
  exact and_iff_left (Classical.em ge).symm

/-- The outcome says whether the first value lies above the second. -/
theorem ge_iff (h : Compares le ge o) : o = some .gt ∨ o = some .eq ↔ ge := by
  rw [h.gt_iff, h.eq_iff, and_comm (a := le), ← and_or_left]
  exact and_iff_left (Classical.em le).symm

/-- Two values compare in one way only. -/
theorem unique (h : Compares le ge o) (h' : Compares le ge o') : o = o' := by
  cases h <;> cases h' <;> first | rfl | contradiction

end Compares

namespace Interval

/-- `order?` compares by containment, malformed intervals included. -/
theorem compares_order? (a b : Interval) :
    Compares (a.isWithin b = true) (b.isWithin a = true) (a.order? b) := by
  cases a with
  | bottom =>
    cases b with
    | bottom => exact .eq rfl rfl
    | bounded l' u' => exact .lt rfl Bool.false_ne_true
  | bounded l u =>
    cases b with
    | bottom => exact .gt Bool.false_ne_true rfl
    | bounded l' u' =>
      rw [order?, bounded_isWithin_bounded, bounded_isWithin_bounded]
      by_cases hwf : l ≤ u ∧ l' ≤ u'
      · rw [if_neg (not_not.mpr hwf)]
        by_cases heq : l = l' ∧ u = u'
        · rw [if_pos heq]
          exact .eq ⟨hwf.1, hwf.2, heq.1.ge, heq.2.le⟩ ⟨hwf.2, hwf.1, heq.1.le, heq.2.ge⟩
        · rw [if_neg heq]
          -- two intervals that lie within each other have the same ends
          have hsame (hin : l' ≤ l ∧ u ≤ u') (hout : l ≤ l' ∧ u' ≤ u) : False :=
            heq ⟨le_antisymm hout.1 hin.1, le_antisymm hin.2 hout.2⟩
          by_cases hin : l' ≤ l ∧ u ≤ u'
          · rw [if_pos hin]
            exact .lt ⟨hwf.1, hwf.2, hin⟩ fun h => hsame hin h.2.2
          · rw [if_neg hin]
            by_cases hout : l ≤ l' ∧ u' ≤ u
            · rw [if_pos hout]
              exact .gt (fun h => hin h.2.2) ⟨hwf.2, hwf.1, hout⟩
            · rw [if_neg hout]
              exact .none (fun h => hin h.2.2) fun h => hout h.2.2
      · rw [if_pos hwf]
        exact .none (fun h => hwf ⟨h.1, h.2.1⟩) fun h => hwf ⟨h.2.1, h.1⟩

/-! ## Upper and lower bounds -/

theorem join_comm (a b : Interval) : a.join b = b.join a := by
  cases a with
  | bottom => rw [join_bottom, join]
  | bounded l u =>
    cases b with
    | bottom => rfl
    | bounded l' u' =>
      by_cases hwf : l ≤ u ∧ l' ≤ u'
      · rw [join_of_wellFormed hwf.1 hwf.2, join_of_wellFormed hwf.2 hwf.1, min_comm, max_comm]
      · rw [join_of_malformed hwf, join_of_malformed fun h => hwf h.symm]

theorem restrict_comm {a b : Interval} (ha : a.WellFormed) (hb : b.WellFormed) :
    a.restrict b = b.restrict a := by
  cases a with
  | bottom => cases b <;> rfl
  | bounded l u =>
    cases b with
    | bottom => rfl
    | bounded l' u' =>
      rw [restrict_of_wellFormed ha hb, restrict_of_wellFormed hb ha, max_comm, min_comm]
      exact if_congr and_comm rfl rfl

theorem restrict_self {a : Interval} (h : a.WellFormed) : a.restrict a = a := by
  cases a with
  | bottom => rfl
  | bounded l u => rw [restrict_of_wellFormed h h, if_pos ⟨h, h⟩, max_self, min_self]

theorem restrict_isWithin_left {a b : Interval} (ha : a.WellFormed) (hb : b.WellFormed) :
    (a.restrict b).isWithin a = true := by
  rw [restrict_comm ha hb]
  exact restrict_isWithin_right hb ha

/-- What lies within two intervals lies within their common part. -/
theorem isWithin_restrict {a b c : Interval} (ha : c.isWithin a = true) (hb : c.isWithin b = true) :
    c.isWithin (a.restrict b) = true := by
  have hmono := restrict_mono ha hb
  rwa [restrict_self (wellFormed_of_isWithin ha)] at hmono

theorem mem_restrict_iff {v : Int64} {a b : Interval} (ha : a.WellFormed) (hb : b.WellFormed) :
    v ∈ a.restrict b ↔ v ∈ a ∧ v ∈ b := by
  constructor
  · intro hv
    exact ⟨mem_of_isWithin (restrict_isWithin_left ha hb) hv,
      mem_of_isWithin (restrict_isWithin_right ha hb) hv⟩
  · rintro ⟨hva, hvb⟩
    exact mem_restrict hva hvb

/-- Well-formed intervals are equal if each lies within the other. -/
theorem isWithin_and_isWithin_iff {a b : Interval} (ha : a.WellFormed) :
    a.isWithin b = true ∧ b.isWithin a = true ↔ a = b := by
  constructor
  · rintro ⟨hab, hba⟩
    exact isWithin_antisymm hab hba
  · rintro rfl
    exact ⟨isWithin_refl ha, isWithin_refl ha⟩

/-- Between well-formed intervals, strict containment is containment without equality. -/
theorem isWithin_and_not_iff {a b : Interval} (ha : a.WellFormed) :
    a.isWithin b = true ∧ ¬ b.isWithin a = true ↔ a.isWithin b = true ∧ a ≠ b := by
  refine and_congr_right fun hab => not_congr ?_
  rw [← isWithin_and_isWithin_iff ha, and_iff_right hab]

/-! ## The lattice -/

/-- The well-formed intervals are partially ordered by containment, from `bottom` to `top`, with
`join` as least upper and `restrict` as greatest lower bound, and `order?` says how two of them
compare. Containment carries members over, and `restrict` keeps the common ones. Intervals of any
kind can be joined in any order. -/
theorem containment_lattice :
    (∀ a b c : Interval, a.WellFormed → b.WellFormed → c.WellFormed →
      (a.isWithin a = true ∧
        (a.isWithin b = true → b.isWithin a = true → a = b) ∧
        (a.isWithin b = true → b.isWithin c = true → a.isWithin c = true)) ∧
      (bottom.isWithin a = true ∧ a.isWithin top = true) ∧
      ((a.join b).WellFormed ∧ a.isWithin (a.join b) = true ∧ b.isWithin (a.join b) = true ∧
        (a.isWithin c = true → b.isWithin c = true → (a.join b).isWithin c = true)) ∧
      ((a.restrict b).WellFormed ∧ (a.restrict b).isWithin a = true ∧
        (a.restrict b).isWithin b = true ∧
        (c.isWithin a = true → c.isWithin b = true → c.isWithin (a.restrict b) = true)) ∧
      ((a.order? b = some .lt ↔ a.isWithin b = true ∧ a ≠ b) ∧
        (a.order? b = some .eq ↔ a = b) ∧
        (a.order? b = some .gt ↔ b.isWithin a = true ∧ b ≠ a) ∧
        (a.order? b = none ↔ ¬ a.isWithin b = true ∧ ¬ b.isWithin a = true)) ∧
      ∀ v : Int64, (a.isWithin b = true → v ∈ a → v ∈ b) ∧ (v ∈ a.restrict b ↔ v ∈ a ∧ v ∈ b)) ∧
    ∀ a b c : Interval, a.join b = b.join a ∧ (a.join b).join c = a.join (b.join c) ∧
      a.join bottom = a ∧ bottom.join a = a := by
  constructor
  · intro a b c ha hb _
    have hcompares := compares_order? a b
    refine ⟨⟨isWithin_refl ha, isWithin_antisymm, isWithin_trans⟩,
      ⟨bottom_isWithin a, isWithin_top ha⟩,
      ⟨wellFormed_join ha hb, isWithin_join_left ha hb, isWithin_join_right ha hb, join_isWithin⟩,
      ⟨wellFormed_restrict a b, restrict_isWithin_left ha hb, restrict_isWithin_right ha hb,
        isWithin_restrict⟩, ⟨?_, ?_, ?_, hcompares.none_iff⟩, ?_⟩
    · rw [hcompares.lt_iff, isWithin_and_not_iff ha]
    · rw [hcompares.eq_iff, isWithin_and_isWithin_iff ha]
    · rw [hcompares.gt_iff, isWithin_and_not_iff hb]
    · intro v
      exact ⟨mem_of_isWithin, mem_restrict_iff ha hb⟩
  · intro a b c
    exact ⟨join_comm a b, join_assoc a b c, join_bottom a, rfl⟩

/-- `[-3, 2]` and `[1, 10]` overlap and do not compare. -/
theorem overlapping_bounds :
    ((range (-3) 2).join (range 1 10)).isWithin (range (-5) 12) = true ∧
    (constant 2).isWithin ((range (-3) 2).restrict (range 1 10)) = true ∧
    (range (-3) 2).order? (range 1 10) = none ∧
    (2 : Int64) ∈ range (-3) 2 ∧ (2 : Int64) ∈ range 1 10 := by
  obtain ⟨hlaws, -⟩ := containment_lattice
  obtain ⟨-, -, ⟨-, -, -, hleast⟩, -, -, -⟩ :=
    hlaws (range (-3) 2) (range 1 10) (range (-5) 12) (by decide) (by decide) (by decide)
  obtain ⟨-, -, -, ⟨-, -, -, hgreatest⟩, ⟨-, -, -, hnone⟩, hmem⟩ :=
    hlaws (range (-3) 2) (range 1 10) (constant 2) (by decide) (by decide) (by decide)
  refine ⟨hleast (by decide) (by decide), hgreatest (by decide) (by decide),
    hnone.mpr ⟨by decide, by decide⟩, ?_⟩
  exact (hmem 2).2.mp (by decide)

end Interval

end IntervalFlow
