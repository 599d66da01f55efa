import IntervalFlow.Interval.Arithmetic
import IntervalFlow.Proofs.Computation
import IntervalFlow.Proofs.Interval.Lattice

/-!
# Interval arithmetic — members and well-formedness

Every operation maps well-formed intervals to well-formed ones, and its result contains the exact
result of the operation on members whenever that fits in a word (`mem_arithmetic`). Both follow from
the monotonicity of the operations on bounds.
-/

namespace IntervalFlow

namespace Interval

/-! ## Sums, differences and negation -/

theorem bounded_add_eq_ok {l u l' u' : Bound} {c : Interval}
    (h : (bounded l u).add (bounded l' u') = .ok c) :
    ∃ x y, l.add l' = .ok x ∧ u.add u' = .ok y ∧ c = bounded x y := by
  obtain ⟨x, hx, h⟩ := bind_eq_ok_iff.mp h
  obtain ⟨y, hy, h⟩ := bind_eq_ok_iff.mp h
  cases h
  exact ⟨x, y, hx, hy, rfl⟩

theorem bounded_sub_eq_ok {l u l' u' : Bound} {c : Interval}
    (h : (bounded l u).sub (bounded l' u') = .ok c) :
    ∃ x y, l.sub u' = .ok x ∧ u.sub l' = .ok y ∧ c = bounded x y := by
  obtain ⟨x, hx, h⟩ := bind_eq_ok_iff.mp h
  obtain ⟨y, hy, h⟩ := bind_eq_ok_iff.mp h
  cases h
  exact ⟨x, y, hx, hy, rfl⟩

theorem wellFormed_add {a b c : Interval} (ha : a.WellFormed) (hb : b.WellFormed)
    (h : a.add b = .ok c) : c.WellFormed := by
  cases a with
  | bottom => cases h; trivial
  | bounded l u =>
    cases b with
    | bottom => cases h; trivial
    | bounded l' u' =>
      obtain ⟨x, y, hx, hy, rfl⟩ := bounded_add_eq_ok h
      exact Bound.add_mono ha hb hx hy

theorem wellFormed_sub {a b c : Interval} (ha : a.WellFormed) (hb : b.WellFormed)
    (h : a.sub b = .ok c) : c.WellFormed := by
  cases a with
  | bottom => cases h; trivial
  | bounded l u =>
    cases b with
    | bottom => cases h; trivial
    | bounded l' u' =>
      obtain ⟨x, y, hx, hy, rfl⟩ := bounded_sub_eq_ok h
      exact Bound.sub_mono ha hb hx hy

theorem wellFormed_neg {a : Interval} (ha : a.WellFormed) : a.neg.WellFormed := by
  cases a with
  | bottom => trivial
  | bounded l u => exact Bound.neg_anti ha

theorem add_isWithin {a a' b b' c c' : Interval} (ha : a.isWithin a' = true)
    (hb : b.isWithin b' = true) (h : a.add b = .ok c) (h' : a'.add b' = .ok c') :
    c.isWithin c' = true := by
  cases a with
  | bottom =>
    cases h
    exact bottom_isWithin _
  | bounded l u =>
    cases b with
    | bottom =>
      cases h
      exact bottom_isWithin _
    | bounded lb ub =>
      obtain ⟨l', u', rfl, hwf, hwf', hl, hu⟩ := exists_bounds_of_isWithin ha
      obtain ⟨lb', ub', rfl, hwfb, hwfb', hlb, hub⟩ := exists_bounds_of_isWithin hb
      obtain ⟨x, y, hx, hy, rfl⟩ := bounded_add_eq_ok h
      obtain ⟨x', y', hx', hy', rfl⟩ := bounded_add_eq_ok h'
      exact bounded_isWithin_bounded.mpr ⟨Bound.add_mono hwf hwfb hx hy,
        Bound.add_mono hwf' hwfb' hx' hy', Bound.add_mono hl hlb hx' hx,
        Bound.add_mono hu hub hy hy'⟩

/-- Adding finite bounds never fails. -/
theorem add_range (a : Interval) (x y : Int64) : ∃ c, a.add (range x y) = .ok c := by
  cases a with
  | bottom => exact ⟨bottom, rfl⟩
  | bounded l u =>
    obtain ⟨m, hm⟩ : ∃ m, min (Bound.fin x) (.fin y) = .fin m := by
      rcases min_choice (Bound.fin x) (.fin y) with h | h
      · exact ⟨x, h⟩
      · exact ⟨y, h⟩
    obtain ⟨n, hn⟩ : ∃ n, max (Bound.fin x) (.fin y) = .fin n := by
      rcases max_choice (Bound.fin x) (.fin y) with h | h
      · exact ⟨x, h⟩
      · exact ⟨y, h⟩
    obtain ⟨lower, hlower⟩ := Bound.add_fin l m
    obtain ⟨upper, hupper⟩ := Bound.add_fin u n
    refine ⟨bounded lower upper, ?_⟩
    rw [range, between, hm, hn]
    simp only [add, hlower, hupper]
    rfl

theorem mem_add {v w x : Int64} {a b c : Interval} (hv : v ∈ a) (hw : w ∈ b) (h : a.add b = .ok c)
    (hx : x.toInt = v.toInt + w.toInt) : x ∈ c := by
  cases a with
  | bottom => exact absurd hv (not_mem_bottom v)
  | bounded l u =>
    cases b with
    | bottom => exact absurd hw (not_mem_bottom w)
    | bounded l' u' =>
      obtain ⟨p, q, hp, hq, rfl⟩ := bounded_add_eq_ok h
      have hsum : (Bound.fin v).add (.fin w) = .ok (.fin x) := by
        rw [Bound.add_fin_fin, ← hx, Bound.saturate_toInt]
      exact ⟨Bound.add_mono hv.1 hw.1 hp hsum, Bound.add_mono hv.2 hw.2 hsum hq⟩

theorem mem_sub {v w x : Int64} {a b c : Interval} (hv : v ∈ a) (hw : w ∈ b) (h : a.sub b = .ok c)
    (hx : x.toInt = v.toInt - w.toInt) : x ∈ c := by
  cases a with
  | bottom => exact absurd hv (not_mem_bottom v)
  | bounded l u =>
    cases b with
    | bottom => exact absurd hw (not_mem_bottom w)
    | bounded l' u' =>
      obtain ⟨p, q, hp, hq, rfl⟩ := bounded_sub_eq_ok h
      have hdiff : (Bound.fin v).sub (.fin w) = .ok (.fin x) := by
        rw [Bound.sub_fin_fin, ← hx, Bound.saturate_toInt]
      exact ⟨Bound.sub_mono hv.1 hw.2 hp hdiff, Bound.sub_mono hv.2 hw.1 hdiff hq⟩

theorem mem_neg {v x : Int64} {a : Interval} (hv : v ∈ a) (hx : x.toInt = -v.toInt) :
    x ∈ a.neg := by
  cases a with
  | bottom => exact absurd hv (not_mem_bottom v)
  | bounded l u =>
    have hneg : (Bound.fin v).neg = .fin x := by
      rw [Bound.neg_fin, ← hx, Bound.saturate_toInt]
    refine ⟨?_, ?_⟩
    · rw [← hneg]
      exact Bound.neg_anti hv.2
    · rw [← hneg]
      exact Bound.neg_anti hv.1

/-! ## Products and quotients -/

theorem wellFormed_hull (a b c d : Bound) : (hull a b c d).WellFormed :=
  ((min_le_left _ _).trans (min_le_left _ _)).trans
    ((le_max_left a b).trans (le_max_left _ (max c d)))

/-- A bound between two bounds that lie in the hull lies in the hull. -/
theorem hull_spans {a b c d p q x : Bound} (hp : min a b ≤ p ∧ p ≤ max a b)
    (hq : min c d ≤ q ∧ q ≤ max c d) (hx : min p q ≤ x ∧ x ≤ max p q) :
    min (min a b) (min c d) ≤ x ∧ x ≤ max (max a b) (max c d) := by
  constructor
  · refine le_trans (le_min ?_ ?_) hx.1
    · exact (min_le_left _ _).trans hp.1
    · exact (min_le_right _ _).trans hq.1
  · refine le_trans hx.2 (max_le ?_ ?_)
    · exact hp.2.trans (le_max_left _ _)
    · exact hq.2.trans (le_max_right _ _)

theorem wellFormed_mul (a b : Interval) : (a.mul b).WellFormed := by
  cases a with
  | bottom => trivial
  | bounded l u =>
    cases b with
    | bottom => trivial
    | bounded l' u' => exact wellFormed_hull _ _ _ _

theorem mem_mul {v w x : Int64} {a b : Interval} (hv : v ∈ a) (hw : w ∈ b)
    (hx : x.toInt = v.toInt * w.toInt) : x ∈ a.mul b := by
  cases a with
  | bottom => exact absurd hv (not_mem_bottom v)
  | bounded l u =>
    cases b with
    | bottom => exact absurd hw (not_mem_bottom w)
    | bounded l' u' =>
      have hprod : (Bound.fin w).mul (.fin v) = .fin x := by
        rw [Bound.mul_comm, Bound.mul_fin_fin, ← hx, Bound.saturate_toInt]
      have hv' := Bound.mul_between (.fin w) hv.1 hv.2
      rw [hprod, Bound.mul_comm _ l, Bound.mul_comm _ u] at hv'
      exact hull_spans (Bound.mul_between l hw.1 hw.2) (Bound.mul_between u hw.1 hw.2) hv'

theorem bounded_div_eq_ok {l u l' u' : Bound} {c : Interval}
    (h0 : (0 : Int64) ∉ bounded l' u') (h : (bounded l u).div (bounded l' u') = .ok c) :
    ∃ p q r s, l.div l' = .ok p ∧ l.div u' = .ok q ∧ u.div l' = .ok r ∧ u.div u' = .ok s ∧
      c = hull p q r s := by
  rw [div, if_neg h0] at h
  obtain ⟨p, hp, h⟩ := bind_eq_ok_iff.mp h
  obtain ⟨q, hq, h⟩ := bind_eq_ok_iff.mp h
  obtain ⟨r, hr, h⟩ := bind_eq_ok_iff.mp h
  obtain ⟨s, hs, h⟩ := bind_eq_ok_iff.mp h
  cases h
  exact ⟨p, q, r, s, hp, hq, hr, hs, rfl⟩

theorem wellFormed_div {a b c : Interval} (h : a.div b = .ok c) : c.WellFormed := by
  cases a with
  | bottom => cases h; trivial
  | bounded l u =>
    cases b with
    | bottom => cases h; trivial
    | bounded l' u' =>
      by_cases h0 : (0 : Int64) ∈ bounded l' u'
      · rw [div, if_pos h0] at h
        cases h
        exact wellFormed_top
      · obtain ⟨p, q, r, s, -, -, -, -, rfl⟩ := bounded_div_eq_ok h0 h
        exact wellFormed_hull _ _ _ _

theorem mem_div {v w x : Int64} {a b c : Interval} (hv : v ∈ a) (hw : w ∈ b) (hw0 : w ≠ 0)
    (h : a.div b = .ok c) (hx : x.toInt = v.toInt.tdiv w.toInt) : x ∈ c := by
  cases a with
  | bottom => exact absurd hv (not_mem_bottom v)
  | bounded l u =>
    cases b with
    | bottom => exact absurd hw (not_mem_bottom w)
    | bounded l' u' =>
      by_cases h0 : (0 : Int64) ∈ bounded l' u'
      · rw [div, if_pos h0] at h
        cases h
        exact mem_top x
      · obtain ⟨p, q, r, s, hp, hq, hr, hs, rfl⟩ := bounded_div_eq_ok h0 h
        have hquot : (Bound.fin v).quotient w = .fin x := by
          rw [Bound.quotient, ← hx, Bound.saturate_toInt]
        have hv' := Bound.quotient_between hw0 hv.1 hv.2
        rw [hquot] at hv'
        exact hull_spans (Bound.div_between hw.1 hw.2 h0 hp hq)
          (Bound.div_between hw.1 hw.2 h0 hr hs) hv'

/-! ## Remainders -/

theorem tmod_nonneg_le {v : Int} (w : Int) (hv : 0 ≤ v) : 0 ≤ v.tmod w ∧ v.tmod w ≤ v := by
  have habs : (v.tmod w).natAbs ≤ v.natAbs := by
    rw [Int.natAbs_tmod]
    exact Nat.mod_le _ _
  have hnonneg := Int.tmod_nonneg w hv
  omega

theorem le_tmod_nonpos {v : Int} (w : Int) (hv : v ≤ 0) : v ≤ v.tmod w ∧ v.tmod w ≤ 0 := by
  have h := tmod_nonneg_le w (show 0 ≤ -v by omega)
  rw [Int.neg_tmod] at h
  omega

theorem natAbs_tmod_lt (v : Int) {w : Int} (hw : w ≠ 0) : (v.tmod w).natAbs < w.natAbs := by
  rw [Int.natAbs_tmod]
  exact Nat.mod_lt _ (Int.natAbs_pos.mpr hw)

theorem toInt_rem (a b : Int64) : (Word.rem a b).toInt = a.toInt.tmod b.toInt := by
  have hlow := a.minValue_le_toInt
  have hhigh := a.toInt_le
  rcases Int.le_total 0 a.toInt with h | h
  · have hrem := tmod_nonneg_le b.toInt h
    have hmin : Int64.minValue.toInt ≤ 0 := by decide
    exact Word.toInt_ofInt (hmin.trans hrem.1) (hrem.2.trans hhigh)
  · have hrem := le_tmod_nonpos b.toInt h
    have hmax : 0 ≤ Int64.maxValue.toInt := by decide
    exact Word.toInt_ofInt (hlow.trans hrem.1) (hrem.2.trans hmax)

/-- Only the magnitude of the smallest word is not a word itself. -/
theorem remainderLimit_fin (v : Int64) :
    Int64.maxValue.toInt < v.toInt.natAbs ∧ remainderLimit (.fin v) = .posInf ∨
    ∃ w : Int64, v.toInt.natAbs ≤ Int64.maxValue.toInt ∧ remainderLimit (.fin v) = .fin w ∧
      w.toInt = v.toInt.natAbs - 1 := by
  have hmin : Int64.minValue.toInt ≤ -1 := by decide
  rw [remainderLimit]
  cases h : Word.ofInt? v.toInt.natAbs with
  | none =>
    refine .inl ⟨?_, rfl⟩
    have hoverflow := Word.ofInt?_eq_none_iff.mp h
    omega
  | some a =>
    have ha := Word.ofInt?_eq_some_iff.mp h
    have hupper := a.toInt_le
    have hone : (1 : Int64).toInt = 1 := by decide
    rw [Option.bind_some]
    cases h' : Word.sub? a 1 with
    | none =>
      have hoverflow := Word.ofInt?_eq_none_iff.mp h'
      omega
    | some w =>
      refine .inr ⟨w, ha ▸ hupper, rfl, ?_⟩
      rw [Word.ofInt?_eq_some_iff.mp h', ha, hone]

theorem le_remainderLimit {r v : Int64} (h : r.toInt.natAbs < v.toInt.natAbs) :
    .fin r ≤ remainderLimit (.fin v) ∧ (remainderLimit (.fin v)).neg ≤ .fin r := by
  rcases remainderLimit_fin v with ⟨-, hv⟩ | ⟨w, -, hv, hw⟩
  · rw [hv]
    exact ⟨Bound.le_posInf _, Bound.negInf_le _⟩
  · rw [hv, Bound.neg_fin, Bound.saturate_le_fin, Bound.fin_le_fin]
    omega

theorem zero_le_remainderLimit {b : Bound} (h : b ≠ .fin 0) : .fin 0 ≤ remainderLimit b := by
  cases b with
  | negInf => exact Bound.le_posInf _
  | posInf => exact Bound.le_posInf _
  | fin v =>
    have hv : v.toInt ≠ 0 := Word.toInt_eq_zero_iff.not.mpr fun h0 => h (congrArg Bound.fin h0)
    have hlimit := remainderLimit_fin v
    generalize remainderLimit (.fin v) = limit at hlimit ⊢
    rcases hlimit with ⟨-, rfl⟩ | ⟨w, -, rfl, hw⟩
    · exact Bound.le_posInf _
    · rw [Bound.fin_le_fin, Int64.toInt_zero, hw]
      omega

/-- A remainder by a member of the divisors is bounded by the limit at one of their ends. -/
theorem remainder_le_limit {x w : Int64} {l u : Bound} (hw : w ∈ bounded l u) (hw0 : w ≠ 0)
    (hx : x.toInt.natAbs < w.toInt.natAbs) :
    .fin x ≤ max (remainderLimit l) (remainderLimit u) ∧
      (max (remainderLimit l) (remainderLimit u)).neg ≤ .fin x := by
  -- the end that lies beyond `w` as seen from zero
  obtain ⟨e, he, hlimit⟩ : ∃ e, (e = l ∨ e = u) ∧
      .fin x ≤ remainderLimit e ∧ (remainderLimit e).neg ≤ .fin x := by
    rcases Int.lt_or_gt_of_ne (Word.toInt_eq_zero_iff.not.mpr hw0) with hneg | hpos
    · refine ⟨l, .inl rfl, ?_⟩
      cases l with
      | negInf => exact ⟨Bound.le_posInf _, Bound.negInf_le _⟩
      | posInf => exact absurd hw.1 (Bound.not_posInf_le_fin w)
      | fin c =>
        have hc := Bound.fin_le_fin.mp hw.1
        exact le_remainderLimit (by omega)
    · refine ⟨u, .inr rfl, ?_⟩
      cases u with
      | posInf => exact ⟨Bound.le_posInf _, Bound.negInf_le _⟩
      | negInf => exact absurd hw.2 (Bound.not_fin_le_negInf w)
      | fin d =>
        have hd := Bound.fin_le_fin.mp hw.2
        exact le_remainderLimit (by omega)
  have hmax : remainderLimit e ≤ max (remainderLimit l) (remainderLimit u) := by
    rcases he with rfl | rfl
    · exact le_max_left _ _
    · exact le_max_right _ _
  exact ⟨hlimit.1.trans hmax, (Bound.neg_anti hmax).trans hlimit.2⟩

theorem wellFormed_rem {a b : Interval} (hb : b.WellFormed) : (a.rem b).WellFormed := by
  cases a with
  | bottom => trivial
  | bounded l u =>
    cases b with
    | bottom => trivial
    | bounded l' u' =>
      by_cases h0 : (0 : Int64) ∈ bounded l' u'
      · rw [rem, if_pos h0]
        exact wellFormed_top
      rw [rem, if_neg h0]
      split
      · exact wellFormed_constant _
      have hl' : l' ≠ .fin 0 := by
        rintro rfl
        exact h0 ⟨le_rfl, hb⟩
      have hlimit : Bound.fin 0 ≤ max (remainderLimit l') (remainderLimit u') :=
        (zero_le_remainderLimit hl').trans (le_max_left _ _)
      have hneg : (max (remainderLimit l') (remainderLimit u')).neg ≤ .fin 0 :=
        Bound.neg_anti hlimit
      have hlow : (if Bound.fin 0 ≤ l then Bound.fin 0 else
          max l (max (remainderLimit l') (remainderLimit u')).neg) ≤ .fin 0 := by
        split_ifs with h
        · exact le_rfl
        · exact max_le (not_le.mp h).le hneg
      have hhigh : Bound.fin 0 ≤ if u ≤ .fin 0 then .fin 0 else
          min u (max (remainderLimit l') (remainderLimit u')) := by
        split_ifs with h
        · exact le_rfl
        · exact le_min (not_le.mp h).le hlimit
      exact hlow.trans hhigh

theorem constant?_eq_some_iff {a : Interval} {v : Int64} :
    a.constant? = some v ↔ a = constant v := by
  unfold constant? constant
  split
  · split_ifs with h
    · subst h
      simp [eq_comm]
    · simp only [bounded.injEq, Bound.fin.injEq, false_iff, not_and]
      rintro rfl
      exact fun h' => h h'.symm
  · rename_i hne
    simp only [reduceCtorEq, false_iff]
    rintro rfl
    exact hne v v rfl

theorem mem_rem {v w x : Int64} {a b : Interval} (hv : v ∈ a) (hw : w ∈ b) (hw0 : w ≠ 0)
    (hx : x.toInt = v.toInt.tmod w.toInt) : x ∈ a.rem b := by
  cases a with
  | bottom => exact absurd hv (not_mem_bottom v)
  | bounded l u =>
    cases b with
    | bottom => exact absurd hw (not_mem_bottom w)
    | bounded l' u' =>
      by_cases h0 : (0 : Int64) ∈ bounded l' u'
      · rw [rem, if_pos h0]
        exact mem_top x
      rw [rem, if_neg h0]
      split
      · rename_i c d hc hd
        rw [constant?_eq_some_iff] at hc hd
        rw [hc, mem_constant_iff] at hv
        rw [hd, mem_constant_iff] at hw
        subst hv hw
        rw [mem_constant_iff, ← Int64.toInt_inj, toInt_rem, hx]
      · have hlimit := remainder_le_limit hw hw0
          (hx ▸ natAbs_tmod_lt v.toInt (Word.toInt_eq_zero_iff.not.mpr hw0))
        refine ⟨?_, ?_⟩
        · split_ifs with h
          · have hv0 : 0 ≤ v.toInt := Bound.fin_le_fin.mp (h.trans hv.1)
            exact Bound.fin_le_fin.mpr (hx ▸ (tmod_nonneg_le _ hv0).1)
          · refine max_le ?_ hlimit.2
            rcases Int.le_total 0 v.toInt with hv0 | hv0
            · exact (not_le.mp h).le.trans (Bound.fin_le_fin.mpr (hx ▸ (tmod_nonneg_le _ hv0).1))
            · exact hv.1.trans (Bound.fin_le_fin.mpr (hx ▸ (le_tmod_nonpos _ hv0).1))
        · split_ifs with h
          · have hv0 : v.toInt ≤ 0 := Bound.fin_le_fin.mp (hv.2.trans h)
            exact Bound.fin_le_fin.mpr (hx ▸ (le_tmod_nonpos _ hv0).2)
          · refine le_min ?_ hlimit.1
            rcases Int.le_total 0 v.toInt with hv0 | hv0
            · exact (Bound.fin_le_fin.mpr (hx ▸ (tmod_nonneg_le _ hv0).2)).trans hv.2
            · exact (Bound.fin_le_fin.mpr (hx ▸ (le_tmod_nonpos _ hv0).2)).trans (not_le.mp h).le

/-! ## All operations on members -/

theorem lower_ne_posInf {v : Int64} {l u : Bound} (hv : v ∈ bounded l u) : l ≠ .posInf := by
  rintro rfl
  exact Bound.not_posInf_le_fin v hv.1

theorem upper_ne_negInf {v : Int64} {l u : Bound} (hv : v ∈ bounded l u) : u ≠ .negInf := by
  rintro rfl
  exact Bound.not_fin_le_negInf v hv.2

/-- Intervals with members have a sum: opposite infinities meet neither at their lower ends nor at
their upper ones. -/
theorem exists_add {v w : Int64} {a b : Interval} (hv : v ∈ a) (hw : w ∈ b) :
    ∃ c, a.add b = .ok c := by
  cases a with
  | bottom => exact absurd hv (not_mem_bottom v)
  | bounded l u =>
    cases b with
    | bottom => exact absurd hw (not_mem_bottom w)
    | bounded l' u' =>
      obtain ⟨lower, hlower⟩ : ∃ x, l.add l' = .ok x :=
        Bound.exists_add (fun _ => lower_ne_posInf hw) fun h => absurd h (lower_ne_posInf hv)
      obtain ⟨upper, hupper⟩ : ∃ x, u.add u' = .ok x :=
        Bound.exists_add (fun h => absurd h (upper_ne_negInf hv)) fun _ => upper_ne_negInf hw
      exact ⟨bounded lower upper, by simp only [add, hlower, hupper]; rfl⟩

theorem exists_sub {v w : Int64} {a b : Interval} (hv : v ∈ a) (hw : w ∈ b) :
    ∃ c, a.sub b = .ok c := by
  cases a with
  | bottom => exact absurd hv (not_mem_bottom v)
  | bounded l u =>
    cases b with
    | bottom => exact absurd hw (not_mem_bottom w)
    | bounded l' u' =>
      obtain ⟨lower, hlower⟩ : ∃ x, l.sub u' = .ok x :=
        Bound.exists_sub (fun _ => upper_ne_negInf hw) fun h => absurd h (lower_ne_posInf hv)
      obtain ⟨upper, hupper⟩ : ∃ x, u.sub l' = .ok x :=
        Bound.exists_sub (fun h => absurd h (upper_ne_negInf hv)) fun _ => lower_ne_posInf hw
      exact ⟨bounded lower upper, by simp only [sub, hlower, hupper]; rfl⟩

/-- Intervals with members have a sum and a difference, and whatever the operations give on the
members is found in what they give on the intervals, as far as it is a word. A remainder always is
one; it has the sign of the dividend, and a quotient is rounded toward zero. -/
theorem mem_arithmetic {v w : Int64} {a b : Interval} (hv : v ∈ a) (hw : w ∈ b) :
    (∃ sum, a.add b = .ok sum ∧ ∀ x : Int64, x.toInt = v.toInt + w.toInt → x ∈ sum) ∧
    (∃ difference, a.sub b = .ok difference ∧
      ∀ x : Int64, x.toInt = v.toInt - w.toInt → x ∈ difference) ∧
    (∀ x : Int64, x.toInt = v.toInt * w.toInt → x ∈ a.mul b) ∧
    (∀ x : Int64, x.toInt = -v.toInt → x ∈ a.neg) ∧
    (w ≠ 0 →
      (∃ x : Int64, x.toInt = v.toInt.tmod w.toInt ∧ x ∈ a.rem b) ∧
      ∀ quotient, a.div b = .ok quotient →
        ∀ x : Int64, x.toInt = v.toInt.tdiv w.toInt → x ∈ quotient) := by
  obtain ⟨sum, hsum⟩ := exists_add hv hw
  obtain ⟨difference, hdifference⟩ := exists_sub hv hw
  refine ⟨⟨sum, hsum, fun x => mem_add hv hw hsum⟩,
    ⟨difference, hdifference, fun x => mem_sub hv hw hdifference⟩,
    fun x => mem_mul hv hw, fun x => mem_neg hv, ?_⟩
  intro hzero
  have hrem := toInt_rem v w
  refine ⟨⟨Word.rem v w, hrem, mem_rem hv hw hzero hrem⟩, ?_⟩
  intro quotient hquotient x
  exact mem_div hv hw hzero hquotient

/-- The two smallest words, and `-2` and `-1`: the ends of the sum, the product, the negation and
the quotient overflow, and the smallest and the largest word are still found in them. -/
theorem smallest_words_arithmetic :
    (∃ sum, (range Int64.minValue (Int64.minValue + 1)).add (range (-2) (-1)) = .ok sum ∧
      Int64.minValue ∈ sum) ∧
    Int64.maxValue ∈ (range Int64.minValue (Int64.minValue + 1)).mul (range (-2) (-1)) ∧
    Int64.maxValue ∈ (range Int64.minValue (Int64.minValue + 1)).neg ∧
    (∃ quotient, (range Int64.minValue (Int64.minValue + 1)).div (range (-2) (-1)) = .ok quotient ∧
      Int64.maxValue ∈ quotient) ∧
    0 ∈ (range Int64.minValue (Int64.minValue + 1)).rem (range (-2) (-1)) := by
  obtain ⟨⟨sum, hsum, hadd⟩, -, hmul, hneg, hquotients⟩ :=
    mem_arithmetic (v := Int64.minValue + 1) (w := -1)
      (a := range Int64.minValue (Int64.minValue + 1)) (b := range (-2) (-1))
      (by decide) (by decide)
  obtain ⟨⟨x, hx, hrem⟩, hdiv⟩ := hquotients (by decide)
  refine ⟨⟨sum, hsum, hadd _ (by decide)⟩, hmul _ (by decide), hneg _ (by decide), ?_, ?_⟩
  · exact ⟨_, rfl, hdiv _ rfl _ (by decide)⟩
  · rwa [Int64.toInt_inj.mp (hx.trans (show _ = (0 : Int64).toInt by decide))] at hrem

end Interval

end IntervalFlow
