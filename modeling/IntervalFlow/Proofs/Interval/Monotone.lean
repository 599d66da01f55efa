import IntervalFlow.Proofs.Effect.WellFormed
import Mathlib.Tactic.Order

/-!
# Interval arithmetic — monotonicity

Operands that lie within others give results that lie within theirs, wherever both results exist.
For products and quotients it suffices to look at the four corners: each corner of the smaller
operands is spanned by the corners of the larger ones.
-/

namespace IntervalFlow

/-! ## Quotients of bounds -/

namespace Bound

/-- Where the quotients by both ends of a range of divisors without zero exist, so do those by the
bounds between, and they lie between. -/
theorem div_spanned {a l e u p q : Bound} (hl : l ≤ e) (hu : e ≤ u)
    (h0 : ¬ (l ≤ fin 0 ∧ fin 0 ≤ u)) (hp : a.div l = .ok p) (hq : a.div u = .ok q) :
    ∃ r, a.div e = .ok r ∧ min p q ≤ r ∧ r ≤ max p q := by
  cases e with
  | negInf =>
    obtain rfl := le_negInf_iff.mp hl
    exact ⟨p, hp, min_le_left p q, le_max_left p q⟩
  | posInf =>
    obtain rfl := posInf_le_iff.mp hu
    exact ⟨q, hq, min_le_right p q, le_max_right p q⟩
  | fin b =>
    have hb : b ≠ 0 := by
      rintro rfl
      exact h0 ⟨hl, hu⟩
    exact ⟨a.quotient b, div_fin hb, div_between hl hu h0 hp hq⟩

/-- Only finite dividends have a quotient by an infinity, and it is zero. -/
theorem div_infinite {a e p : Bound} (he : e = negInf ∨ e = posInf) (h : a.div e = .ok p) :
    p = fin 0 := by
  rcases he with rfl | rfl <;> cases a <;> cases h <;> rfl

theorem divisor_ne_zero {a p : Bound} {b : Int64} (h : a.div (fin b) = .ok p) : b ≠ 0 := by
  rintro rfl
  cases a <;> cases h

/-- The quotients of both ends of a range of dividends span those of the bounds between. -/
theorem dividend_between {l a u e p q r : Bound} (hl : l ≤ a) (hu : a ≤ u) (hp : l.div e = .ok p)
    (hq : u.div e = .ok q) (hr : a.div e = .ok r) : min p q ≤ r ∧ r ≤ max p q := by
  by_cases he : e = negInf ∨ e = posInf
  · rw [div_infinite he hp, div_infinite he hq, div_infinite he hr]
    simp
  · cases e with
    | negInf => exact absurd (.inl rfl) he
    | posInf => exact absurd (.inr rfl) he
    | fin b =>
      have hb := divisor_ne_zero hp
      rw [div_fin hb] at hp hq hr
      cases hp
      cases hq
      cases hr
      exact quotient_between hb hl hu

end Bound

namespace Interval

/-! ## Differences, negation, products and quotients -/

theorem sub_isWithin {a a' b b' c c' : Interval} (ha : a.isWithin a' = true)
    (hb : b.isWithin b' = true) (h : a.sub b = .ok c) (h' : a'.sub b' = .ok c') :
    c.isWithin c' = true := by
  cases a with
  | bottom =>
    cases h
    exact bottom_isWithin _
  | bounded l u =>
    cases b with
    | bottom =>
      cases h
      exact bottom_isWithin _
    | bounded lb ub =>
      obtain ⟨l', u', rfl, hwf, hwf', hl, hu⟩ := exists_bounds_of_isWithin ha
      obtain ⟨lb', ub', rfl, hwfb, hwfb', hlb, hub⟩ := exists_bounds_of_isWithin hb
      obtain ⟨x, y, hx, hy, rfl⟩ := bounded_sub_eq_ok h
      obtain ⟨x', y', hx', hy', rfl⟩ := bounded_sub_eq_ok h'
      exact bounded_isWithin_bounded.mpr ⟨Bound.sub_mono hwf hwfb hx hy,
        Bound.sub_mono hwf' hwfb' hx' hy', Bound.sub_mono hl hub hx' hx,
        Bound.sub_mono hu hlb hy hy'⟩

theorem neg_isWithin {a a' : Interval} (h : a.isWithin a' = true) :
    a.neg.isWithin a'.neg = true := by
  cases a with
  | bottom => exact bottom_isWithin _
  | bounded l u =>
    obtain ⟨l', u', rfl, hwf, hwf', hl, hu⟩ := exists_bounds_of_isWithin h
    exact bounded_isWithin_bounded.mpr ⟨Bound.neg_anti hwf, Bound.neg_anti hwf',
      Bound.neg_anti hu, Bound.neg_anti hl⟩

theorem hull_isWithin {p q r s l u : Bound} (hp : l ≤ p ∧ p ≤ u) (hq : l ≤ q ∧ q ≤ u)
    (hr : l ≤ r ∧ r ≤ u) (hs : l ≤ s ∧ s ≤ u) : (hull p q r s).isWithin (bounded l u) = true := by
  refine bounded_isWithin_bounded.mpr ⟨wellFormed_hull p q r s, hp.1.trans hp.2, ?_, ?_⟩
  · exact le_min (le_min hp.1 hq.1) (le_min hr.1 hs.1)
  · exact max_le (max_le hp.2 hq.2) (max_le hr.2 hs.2)

theorem mul_isWithin {a a' b b' : Interval} (ha : a.isWithin a' = true)
    (hb : b.isWithin b' = true) : (a.mul b).isWithin (a'.mul b') = true := by
  cases a with
  | bottom => exact bottom_isWithin _
  | bounded l u =>
    cases b with
    | bottom => exact bottom_isWithin _
    | bounded lb ub =>
      obtain ⟨l', u', rfl, hwf, -, hl, hu⟩ := exists_bounds_of_isWithin ha
      obtain ⟨lb', ub', rfl, hwfb, -, hlb, hub⟩ := exists_bounds_of_isWithin hb
      have hcorner {x y : Bound} (hx : l' ≤ x ∧ x ≤ u') (hy : lb' ≤ y ∧ y ≤ ub') := by
        have hxy := Bound.mul_between y hx.1 hx.2
        rw [Bound.mul_comm y l', Bound.mul_comm y u', Bound.mul_comm y x] at hxy
        exact hull_spans (Bound.mul_between l' hy.1 hy.2) (Bound.mul_between u' hy.1 hy.2) hxy
      exact hull_isWithin (hcorner ⟨hl, hwf.trans hu⟩ ⟨hlb, hwfb.trans hub⟩)
        (hcorner ⟨hl, hwf.trans hu⟩ ⟨hlb.trans hwfb, hub⟩)
        (hcorner ⟨hl.trans hwf, hu⟩ ⟨hlb, hwfb.trans hub⟩)
        (hcorner ⟨hl.trans hwf, hu⟩ ⟨hlb.trans hwfb, hub⟩)

/-- The corners of larger operands span every quotient between them. -/
theorem quotient_spanned {l u lb ub p q r s x y z : Bound} (h0 : (0 : Int64) ∉ bounded lb ub)
    (hp : l.div lb = .ok p) (hq : l.div ub = .ok q) (hr : u.div lb = .ok r) (hs : u.div ub = .ok s)
    (hx : l ≤ x ∧ x ≤ u) (hy : lb ≤ y ∧ y ≤ ub) (hz : x.div y = .ok z) :
    min (min p q) (min r s) ≤ z ∧ z ≤ max (max p q) (max r s) := by
  obtain ⟨v, hv, hvspan⟩ := Bound.div_spanned hy.1 hy.2 h0 hp hq
  obtain ⟨w, hw, hwspan⟩ := Bound.div_spanned hy.1 hy.2 h0 hr hs
  exact hull_spans hvspan hwspan (Bound.dividend_between hx.1 hx.2 hv hw hz)

theorem div_isWithin {a a' b b' c c' : Interval} (ha : a.isWithin a' = true)
    (hb : b.isWithin b' = true) (h : a.div b = .ok c) (h' : a'.div b' = .ok c') :
    c.isWithin c' = true := by
  have hwfc := wellFormed_div h
  cases a with
  | bottom =>
    cases h
    exact bottom_isWithin _
  | bounded l u =>
    cases b with
    | bottom =>
      cases h
      exact bottom_isWithin _
    | bounded lb ub =>
      obtain ⟨l', u', rfl, hwf, -, hl, hu⟩ := exists_bounds_of_isWithin ha
      obtain ⟨lb', ub', rfl, hwfb, -, hlb, hub⟩ := exists_bounds_of_isWithin hb
      by_cases h0' : (0 : Int64) ∈ bounded lb' ub'
      · rw [div, if_pos h0'] at h'
        cases h'
        exact isWithin_top hwfc
      · have h0 : (0 : Int64) ∉ bounded lb ub := fun h0 => h0' (mem_of_isWithin hb h0)
        obtain ⟨p, q, r, s, hp, hq, hr, hs, rfl⟩ := bounded_div_eq_ok h0 h
        obtain ⟨p', q', r', s', hp', hq', hr', hs', rfl⟩ := bounded_div_eq_ok h0' h'
        have hcorner {x y z : Bound} :=
          quotient_spanned (x := x) (y := y) (z := z) h0' hp' hq' hr' hs'
        exact hull_isWithin (hcorner ⟨hl, hwf.trans hu⟩ ⟨hlb, hwfb.trans hub⟩ hp)
          (hcorner ⟨hl, hwf.trans hu⟩ ⟨hlb.trans hwfb, hub⟩ hq)
          (hcorner ⟨hl.trans hwf, hu⟩ ⟨hlb, hwfb.trans hub⟩ hr)
          (hcorner ⟨hl.trans hwf, hu⟩ ⟨hlb.trans hwfb, hub⟩ hs)

/-! ## Remainders -/

/-- Divisors of larger magnitude leave more room for remainders. -/
theorem remainderLimit_fin_mono {v w : Int64} (h : v.toInt.natAbs ≤ w.toInt.natAbs) :
    remainderLimit (.fin v) ≤ remainderLimit (.fin w) := by
  rcases remainderLimit_fin w with ⟨-, hw⟩ | ⟨y, hfits, hw, hy⟩
  · rw [hw]
    exact Bound.le_posInf _
  · rcases remainderLimit_fin v with ⟨hoverflow, -⟩ | ⟨x, -, hv, hx⟩
    · omega
    · rw [hv, hw, Bound.fin_le_fin]
      omega

theorem remainderLimit_mono {a b : Bound} (ha : .fin 0 < a) (h : a ≤ b) :
    remainderLimit a ≤ remainderLimit b := by
  cases b with
  | posInf => exact Bound.le_posInf _
  | negInf => exact absurd (ha.trans_le h).le (Bound.not_fin_le_negInf 0)
  | fin w =>
    cases a with
    | posInf => exact absurd h (Bound.not_posInf_le_fin w)
    | negInf => exact absurd ha.le (Bound.not_fin_le_negInf 0)
    | fin v =>
      have hv : ¬ v.toInt ≤ (0 : Int64).toInt := fun hle => ha.not_ge (Bound.fin_le_fin.mpr hle)
      have hvw := Bound.fin_le_fin.mp h
      rw [Int64.toInt_zero] at hv
      exact remainderLimit_fin_mono (by omega)

theorem remainderLimit_anti {a b : Bound} (hb : b < .fin 0) (h : a ≤ b) :
    remainderLimit b ≤ remainderLimit a := by
  cases a with
  | negInf => exact Bound.le_posInf _
  | posInf => exact absurd (h.trans hb.le) (Bound.not_posInf_le_fin 0)
  | fin v =>
    cases b with
    | negInf => exact absurd h (Bound.not_fin_le_negInf v)
    | posInf => exact absurd hb.le (Bound.not_posInf_le_fin 0)
    | fin w =>
      have hw : ¬ (0 : Int64).toInt ≤ w.toInt := fun hle => hb.not_ge (Bound.fin_le_fin.mpr hle)
      have hvw := Bound.fin_le_fin.mp h
      rw [Int64.toInt_zero] at hw
      exact remainderLimit_fin_mono (by omega)

/-- The largest magnitude of a remainder by the divisors between two bounds. -/
def remainderLimits (l u : Bound) : Bound := max (remainderLimit l) (remainderLimit u)

theorem remainderLimits_mono {l u l' u' : Bound} (h : (bounded l u).isWithin (bounded l' u') = true)
    (h0 : (0 : Int64) ∉ bounded l' u') : remainderLimits l u ≤ remainderLimits l' u' := by
  obtain ⟨hwf, -, hl, hu⟩ := bounded_isWithin_bounded.mp h
  rcases lt_or_ge (.fin 0) l' with hpos | hneg
  · refine le_trans (max_le ?_ ?_) (le_max_right _ _)
    · exact remainderLimit_mono (hpos.trans_le hl) (hwf.trans hu)
    · exact remainderLimit_mono (hpos.trans_le (hl.trans hwf)) hu
  · have hu' : u' < .fin 0 := not_le.mp fun h => h0 ⟨hneg, h⟩
    refine le_trans (max_le ?_ ?_) (le_max_left _ _)
    · exact remainderLimit_anti ((hwf.trans hu).trans_lt hu') hl
    · exact remainderLimit_anti (hu.trans_lt hu') (hl.trans hwf)

theorem zero_le_remainderLimits {l u : Bound} (hwf : l ≤ u) (h0 : (0 : Int64) ∉ bounded l u) :
    .fin 0 ≤ remainderLimits l u := by
  have hl : l ≠ .fin 0 := by
    rintro rfl
    exact h0 ⟨le_rfl, hwf⟩
  exact (zero_le_remainderLimit hl).trans (le_max_left _ _)

/-- Remainders of operands that are not both constant. -/
theorem rem_of_not_constant {l u l' u' : Bound} (h0 : (0 : Int64) ∉ bounded l' u')
    (h : ¬ ∃ v w, bounded l u = constant v ∧ bounded l' u' = constant w) :
    (bounded l u).rem (bounded l' u') =
      bounded (if .fin 0 ≤ l then .fin 0 else max l (remainderLimits l' u').neg)
        (if u ≤ .fin 0 then .fin 0 else min u (remainderLimits l' u')) := by
  rw [rem, if_neg h0]
  split
  · rename_i v w hv hw
    exact absurd ⟨v, w, constant?_eq_some_iff.mp hv, constant?_eq_some_iff.mp hw⟩ h
  · rfl

theorem rem_constant {v w : Int64} (hw : w ≠ 0) :
    (constant v).rem (constant w) = constant (Word.rem v w) := by
  have h0 : (0 : Int64) ∉ constant w := fun h => hw (mem_constant_iff.mp h).symm
  rw [constant] at h0
  rw [constant, constant, rem, if_neg h0]
  simp [constant?]

theorem rem_isWithin {a a' b b' : Interval} (ha : a.isWithin a' = true)
    (hb : b.isWithin b' = true) : (a.rem b).isWithin (a'.rem b') = true := by
  cases a with
  | bottom => exact bottom_isWithin _
  | bounded l u =>
    cases b with
    | bottom => exact bottom_isWithin _
    | bounded lb ub =>
      obtain ⟨l', u', rfl, -, -, hl, hu⟩ := exists_bounds_of_isWithin ha
      obtain ⟨lb', ub', rfl, hwfb, hwfb', -, -⟩ := exists_bounds_of_isWithin hb
      have hwf : ((bounded l u).rem (bounded lb ub)).WellFormed := wellFormed_rem hwfb
      have hwf' : ((bounded l' u').rem (bounded lb' ub')).WellFormed := wellFormed_rem hwfb'
      by_cases h0' : (0 : Int64) ∈ bounded lb' ub'
      · rw [rem.eq_1 l' u', if_pos h0']
        exact isWithin_top hwf
      have h0 : (0 : Int64) ∉ bounded lb ub := fun h0 => h0' (mem_of_isWithin hb h0)
      by_cases hconst : ∃ v w, bounded l u = constant v ∧ bounded lb ub = constant w
      · obtain ⟨v, w, hv, hw⟩ := hconst
        rw [hv] at ha
        rw [hw] at hb h0
        have hw0 : w ≠ 0 := fun hw0 => h0 (hw0 ▸ mem_constant w)
        rw [hv, hw, rem_constant hw0]
        exact constant_isWithin (mem_rem (mem_of_isWithin ha (mem_constant v))
          (mem_of_isWithin hb (mem_constant w)) hw0 (toInt_rem v w))
      · -- larger operands are not both constant either
        have hconst' : ¬ ∃ v w, bounded l' u' = constant v ∧ bounded lb' ub' = constant w := by
          rintro ⟨v, w, hv, hw⟩
          rw [hv] at ha
          rw [hw] at hb
          exact hconst ⟨v, w, eq_constant_of_isWithin ha, eq_constant_of_isWithin hb⟩
        rw [rem_of_not_constant h0 hconst] at hwf ⊢
        rw [rem_of_not_constant h0' hconst'] at hwf' ⊢
        have hlimits := remainderLimits_mono hb h0'
        have hzero := zero_le_remainderLimits hwfb' h0'
        refine bounded_isWithin_bounded.mpr ⟨hwf, hwf', ?_, ?_⟩
        · by_cases hpos : .fin 0 ≤ l
          · rw [if_pos hpos]
            split_ifs with hpos'
            · exact le_rfl
            · exact max_le (not_le.mp hpos').le (Bound.neg_anti hzero)
          · rw [if_neg hpos, if_neg fun hpos' => hpos (hpos'.trans hl)]
            exact max_le_max hl (Bound.neg_anti hlimits)
        · by_cases hneg : u ≤ .fin 0
          · rw [if_pos hneg]
            split_ifs with hneg'
            · exact le_rfl
            · exact le_min (not_le.mp hneg').le hzero
          · rw [if_neg hneg, if_neg fun hneg' => hneg (hu.trans hneg')]
            exact min_le_min hu hlimits

/-! ## Truth values -/

/-- What is decided for larger operands stays decided. -/
theorem truth_isWithin {p q p' q' : Prop} [Decidable p] [Decidable q] [Decidable p']
    [Decidable q'] (hp : p' → p) (hq : q' → q) (hpq : ¬ (p ∧ q)) :
    (if p then constant 1 else if q then constant 0 else range 0 1).isWithin
      (if p' then constant 1 else if q' then constant 0 else range 0 1) = true := by
  by_cases hp' : p'
  · rw [if_pos hp', if_pos (hp hp')]
    decide
  · rw [if_neg hp']
    by_cases hq' : q'
    · have hnp : ¬ p := fun h => hpq ⟨h, hq hq'⟩
      rw [if_pos hq', if_neg hnp, if_pos (hq hq')]
      decide
    · rw [if_neg hq']
      split_ifs <;> decide

theorem isTruthy_stays {a a' : Interval} (h : a.isWithin a' = true) (ht : a'.isTruthy = true) :
    a.isTruthy = true := by
  apply decide_eq_true
  exact fun hmem => of_decide_eq_true ht (mem_of_isWithin h hmem)

theorem isFalsy_stays {a a' : Interval} (h : a.isWithin a' = true) (hne : a ≠ bottom)
    (hf : a'.isFalsy = true) : a.isFalsy = true := by
  have hconstant := constant?_eq_some_iff.mp (of_decide_eq_true hf)
  subst hconstant
  cases a with
  | bottom => exact absurd rfl hne
  | bounded l u => exact decide_eq_true (constant?_eq_some_iff.mpr (eq_constant_of_isWithin h))

theorem not_isTruthy_of_isFalsy {a : Interval} (h : a.isFalsy = true) : ¬ a.isTruthy = true := by
  have hconstant := constant?_eq_some_iff.mp (of_decide_eq_true h)
  subst hconstant
  exact fun ht => of_decide_eq_true ht (mem_constant 0)

theorem ne_bottom_of_isWithin {a a' : Interval} (h : a.isWithin a' = true) (hne : a ≠ bottom) :
    a' ≠ bottom := by
  rintro rfl
  cases a with
  | bottom => exact hne rfl
  | bounded l u => cases h

theorem not_isWithin {a a' : Interval} (h : a.isWithin a' = true) :
    a.not.isWithin a'.not = true := by
  by_cases hne : a = bottom
  · rw [not, if_pos hne]
    exact bottom_isWithin _
  · rw [not, if_neg hne, not, if_neg (ne_bottom_of_isWithin h hne)]
    apply truth_isWithin (isFalsy_stays h hne) (isTruthy_stays h)
    rintro ⟨hf, ht⟩
    exact not_isTruthy_of_isFalsy hf ht

section Connectives

variable {a a' b b' : Interval} (ha : a.isWithin a' = true) (hb : b.isWithin b' = true)

include ha hb

theorem and_isWithin : (a.and b).isWithin (a'.and b') = true := by
  by_cases hne : a = bottom ∨ b = bottom
  · rw [and, if_pos hne]
    exact bottom_isWithin _
  · obtain ⟨hnea, hneb⟩ := not_or.mp hne
    have hne' := not_or.mpr ⟨ne_bottom_of_isWithin ha hnea, ne_bottom_of_isWithin hb hneb⟩
    rw [and, if_neg hne, and, if_neg hne']
    simp only [Bool.and_eq_true, Bool.or_eq_true]
    apply truth_isWithin
    · exact And.imp (isTruthy_stays ha) (isTruthy_stays hb)
    · exact Or.imp (isFalsy_stays ha hnea) (isFalsy_stays hb hneb)
    · rintro ⟨⟨hta, htb⟩, hf | hf⟩
      · exact not_isTruthy_of_isFalsy hf hta
      · exact not_isTruthy_of_isFalsy hf htb

theorem or_isWithin : (a.or b).isWithin (a'.or b') = true := by
  by_cases hne : a = bottom ∨ b = bottom
  · rw [or, if_pos hne]
    exact bottom_isWithin _
  · obtain ⟨hnea, hneb⟩ := not_or.mp hne
    have hne' := not_or.mpr ⟨ne_bottom_of_isWithin ha hnea, ne_bottom_of_isWithin hb hneb⟩
    rw [or, if_neg hne, or, if_neg hne']
    simp only [Bool.and_eq_true, Bool.or_eq_true]
    apply truth_isWithin
    · exact Or.imp (isTruthy_stays ha) (isTruthy_stays hb)
    · exact And.imp (isFalsy_stays ha hnea) (isFalsy_stays hb hneb)
    · rintro ⟨ht | ht, hfa, hfb⟩
      · exact not_isTruthy_of_isFalsy hfa ht
      · exact not_isTruthy_of_isFalsy hfb ht

end Connectives

/-! ## Comparisons -/

theorem overlap_ne_eq_iff {l u l' u' : Bound} :
    (bounded l u).overlap (bounded l' u') ≠ .eq ↔ u' < l ∨ u < l' := by
  rw [Ne, overlap_eq_iff, not_and_or, not_le, not_le]

theorem sameConstant_stays {l₁ u₁ l₂ u₂ l₁' u₁' l₂' u₂' : Bound}
    (h₁ : (bounded l₁ u₁).isWithin (bounded l₁' u₁') = true)
    (h₂ : (bounded l₂ u₂).isWithin (bounded l₂' u₂') = true)
    (h : (bounded l₁' u₁').constant?.isSome ∧ bounded l₁' u₁' = bounded l₂' u₂') :
    (bounded l₁ u₁).constant?.isSome ∧ bounded l₁ u₁ = bounded l₂ u₂ := by
  obtain ⟨hsome, heq⟩ := h
  obtain ⟨v, hv⟩ := Option.isSome_iff_exists.mp hsome
  rw [constant?_eq_some_iff] at hv
  rw [hv] at h₁
  rw [← heq, hv] at h₂
  have hconstant := eq_constant_of_isWithin h₁
  exact ⟨Option.isSome_iff_exists.mpr ⟨v, constant?_eq_some_iff.mpr hconstant⟩,
    hconstant.trans (eq_constant_of_isWithin h₂).symm⟩

theorem compare_isWithin (op : BinaryOp) {a a' b b' : Interval} (ha : a.isWithin a' = true)
    (hb : b.isWithin b' = true) : (compare op a b).isWithin (compare op a' b') = true := by
  cases a with
  | bottom => exact bottom_isWithin _
  | bounded l₁ u₁ =>
    cases b with
    | bottom => exact bottom_isWithin _
    | bounded l₂ u₂ =>
      obtain ⟨l₁', u₁', rfl, hwf₁, -, hl₁, hu₁⟩ := exists_bounds_of_isWithin ha
      obtain ⟨l₂', u₂', rfl, hwf₂, -, hl₂, hu₂⟩ := exists_bounds_of_isWithin hb
      have hdisjoint (h : u₂' < l₁' ∨ u₁' < l₂') : u₂ < l₁ ∨ u₁ < l₂ :=
        h.imp (fun h => hu₂.trans_lt (h.trans_le hl₁)) (fun h => hu₁.trans_lt (h.trans_le hl₂))
      have hexclusive : ¬ (((bounded l₁ u₁).constant?.isSome ∧ bounded l₁ u₁ = bounded l₂ u₂) ∧
          (u₂ < l₁ ∨ u₁ < l₂)) := by
        rintro ⟨⟨-, heq⟩, h⟩
        cases heq
        exact h.elim hwf₁.not_gt hwf₁.not_gt
      cases op with
      | eq =>
        simp only [compare, decideComparison, ofTruth_ite, overlap_ne_eq_iff]
        exact truth_isWithin (sameConstant_stays ha hb) hdisjoint hexclusive
      | ne =>
        simp only [compare, decideComparison, ofTruth_ite, overlap_ne_eq_iff]
        exact truth_isWithin hdisjoint (sameConstant_stays ha hb)
          (fun h => hexclusive h.symm)
      | lt | le | gt | ge =>
        simp only [compare, decideComparison, ofTruth_ite]
        apply truth_isWithin
        · intro h
          order
        · intro h
          order
        · rintro ⟨h, h'⟩
          order
      | _ => exact isWithin_refl (wellFormed_between _ _)

/-! ## Constraints -/

/-- A malformed range restricts nothing: both results are `top`, or the first is `bottom`. -/
theorem restrict_isWithin {a a' : Interval} (h : a.isWithin a' = true) (range : Interval) :
    (a.restrict range).isWithin (a'.restrict range) = true := by
  by_cases hwf : range.WellFormed
  · exact restrict_mono h (isWithin_refl hwf)
  · cases range with
    | bottom => exact absurd trivial hwf
    | bounded lb ub =>
      cases a with
      | bottom => exact bottom_isWithin _
      | bounded l u =>
        obtain ⟨l', u', rfl, -⟩ := exists_bounds_of_isWithin h
        have htop (p q : Bound) : (bounded p q).restrict (bounded lb ub) = top :=
          if_neg fun hboth => hwf hboth.2
        rw [htop, htop]
        exact isWithin_refl wellFormed_top

theorem exclude_isWithin_self {a : Interval} (h : a.WellFormed) (k : Int64) :
    (a.exclude k).isWithin a = true := by
  have hwf := wellFormed_exclude h k
  cases a with
  | bottom => rfl
  | bounded l u =>
    rw [exclude] at hwf ⊢
    split_ifs at hwf ⊢ with hl hu hu
    · exact bottom_isWithin _
    · cases hnext : Word.add? k 1 with
      | none => exact isWithin_refl h
      | some next =>
        rw [hnext] at hwf
        rw [hl] at h ⊢
        exact bounded_isWithin_bounded.mpr ⟨hwf, h, (Bound.fin_lt_succ hnext).le, le_rfl⟩
    · cases hprev : Word.sub? k 1 with
      | none => exact isWithin_refl h
      | some prev =>
        rw [hprev] at hwf
        rw [hu] at h ⊢
        exact bounded_isWithin_bounded.mpr ⟨hwf, h, le_rfl, (Bound.fin_pred_lt hprev).le⟩
    · exact isWithin_refl h

theorem exclude_isWithin {a a' : Interval} (h : a.isWithin a' = true) (k : Int64) :
    (a.exclude k).isWithin (a'.exclude k) = true := by
  cases a with
  | bottom => exact bottom_isWithin _
  | bounded l u =>
    obtain ⟨l', u', rfl, hwf, hwf', hl, hu⟩ := exists_bounds_of_isWithin h
    have hself := isWithin_trans (exclude_isWithin_self (a := bounded l u) hwf k) h
    by_cases hl' : l' = .fin k
    · subst hl'
      by_cases hu' : u' = .fin k
      · subst hu'
        rw [eq_constant_of_isWithin h]
        simp [constant, exclude]
      · cases hnext : Word.add? k 1 with
        | none =>
          have hsame : (bounded (.fin k) u').exclude k = bounded (.fin k) u' := by
            simp [exclude, hu', hnext]
          rwa [hsame]
        | some next =>
          have hwfnext : .fin next ≤ u' :=
            Bound.fin_succ_le (lt_of_le_of_ne hwf' (Ne.symm hu')) hnext
          by_cases hlk : l = .fin k
          · subst hlk
            by_cases huk : u = .fin k
            · simp [exclude, huk]
            · have hlt := Bound.fin_succ_le (lt_of_le_of_ne hwf (Ne.symm huk)) hnext
              simp [exclude, hu', huk, hnext, bounded_isWithin_bounded, hwfnext, hlt, hu]
          · have hlt : .fin k < l := lt_of_le_of_ne hl (Ne.symm hlk)
            have huk : u ≠ .fin k := (hlt.trans_le hwf).ne'
            have hle := Bound.fin_succ_le hlt hnext
            simp [exclude, hu', hlk, huk, hnext, bounded_isWithin_bounded, hwf, hwfnext, hle, hu]
    · by_cases hu' : u' = .fin k
      · subst hu'
        cases hprev : Word.sub? k 1 with
        | none =>
          have hsame : (bounded l' (.fin k)).exclude k = bounded l' (.fin k) := by
            simp [exclude, hl', hprev]
          rwa [hsame]
        | some prev =>
          have hwfprev : l' ≤ .fin prev := Bound.le_fin_pred (lt_of_le_of_ne hwf' hl') hprev
          by_cases huk : u = .fin k
          · subst huk
            by_cases hlk : l = .fin k
            · simp [exclude, hlk]
            · have hlt := Bound.le_fin_pred (lt_of_le_of_ne hwf hlk) hprev
              simp [exclude, hl', hlk, hprev, bounded_isWithin_bounded, hwfprev, hlt, hl]
          · have hlt : u < .fin k := lt_of_le_of_ne hu huk
            have hlk : l ≠ .fin k := (hwf.trans_lt hlt).ne
            have hle := Bound.le_fin_pred hlt hprev
            simp [exclude, hl', hlk, huk, hprev, bounded_isWithin_bounded, hwf, hwfprev, hl, hle]
      · have hsame : (bounded l' u').exclude k = bounded l' u' := by
          simp [exclude, hl', hu']
        rwa [hsame]

end Interval

/-! ## Operators and constraints -/

theorem BinaryOp.apply_isWithin {op : BinaryOp} {a a' b b' c c' : Interval}
    (ha : a.isWithin a' = true) (hb : b.isWithin b' = true) (h : op.apply a b = .ok c)
    (h' : op.apply a' b' = .ok c') : c.isWithin c' = true := by
  cases op with
  | add => exact Interval.add_isWithin ha hb h h'
  | sub => exact Interval.sub_isWithin ha hb h h'
  | div => exact Interval.div_isWithin ha hb h h'
  | mul => cases h; cases h'; exact Interval.mul_isWithin ha hb
  | rem => cases h; cases h'; exact Interval.rem_isWithin ha hb
  | and => cases h; cases h'; exact Interval.and_isWithin ha hb
  | or => cases h; cases h'; exact Interval.or_isWithin ha hb
  | lt | le | gt | ge | eq | ne => cases h; cases h'; exact Interval.compare_isWithin _ ha hb

theorem AssignOp.apply_isWithin {op : AssignOp} {a a' b b' c c' : Interval}
    (ha : a.isWithin a' = true) (hb : b.isWithin b' = true) (h : op.apply a b = .ok c)
    (h' : op.apply a' b' = .ok c') : c.isWithin c' = true := by
  cases op with
  | assign => cases h; cases h'; exact hb
  | add => exact Interval.add_isWithin ha hb h h'
  | sub => exact Interval.sub_isWithin ha hb h h'
  | div => exact Interval.div_isWithin ha hb h h'
  | mul => cases h; cases h'; exact Interval.mul_isWithin ha hb
  | rem => cases h; cases h'; exact Interval.rem_isWithin ha hb

theorem Constraint.apply_isWithin {a a' : Interval} (h : a.isWithin a' = true) (c : Constraint) :
    (c.apply a).isWithin (c.apply a') = true := by
  cases c with
  | unconstrained => exact h
  | unsatisfiable => rfl
  | within range => exact Interval.restrict_isWithin h range
  | different k => exact Interval.exclude_isWithin h k

end IntervalFlow
