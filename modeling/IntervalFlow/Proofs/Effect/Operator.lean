import IntervalFlow.Proofs.Effect.WellFormed
import IntervalFlow.Proofs.Execution

/-!
# Sound operators

Operators on intervals cover the exact operators on words: truth values and comparisons, whose
outcome the bounds may decide, and with interval arithmetic every operator of an expression or an
assignment.
-/

namespace IntervalFlow

/-! ## Truth values -/

namespace Bound

theorem fin_lt_fin {a b : Int64} : fin a < fin b ↔ a.toInt < b.toInt := by
  rw [← not_le, fin_le_fin, not_le]

end Bound

namespace Interval

variable {v w x : Int64} {a b : Interval}

/-- A chain of tests finds the interval of a truth value if each test that succeeds is right. -/
theorem mem_truth {p q : Prop} [Decidable p] [Decidable q] {t : Bool} (hp : p → t = true)
    (hq : q → t = false) (hx : x.toInt = ofBool t) :
    x ∈ if p then constant 1 else if q then constant 0 else range 0 1 := by
  split
  · rename_i h
    rw [hp h] at hx
    rw [mem_constant_iff]
    exact Int64.toInt_inj.mp hx
  · split
    · rename_i h
      rw [hq h] at hx
      rw [mem_constant_iff]
      exact Int64.toInt_inj.mp hx
    · have hzero : Bound.fin 0 ≤ .fin x ∧ Bound.fin x ≤ .fin 1 := by
        rw [Bound.fin_le_fin, Bound.fin_le_fin, hx]
        cases t <;> decide
      exact ⟨(min_le_left _ _).trans hzero.1, hzero.2.trans (le_max_right _ _)⟩

theorem mem_ofTruth {p q : Prop} [Decidable p] [Decidable q] {t : Bool} (hp : p → t = true)
    (hq : q → t = false) (hx : x.toInt = ofBool t) :
    x ∈ ofTruth (if p then some true else if q then some false else none) := by
  rw [ofTruth_ite]
  exact mem_truth hp hq hx

theorem ne_zero_of_isTruthy (h : a.isTruthy = true) (hv : v ∈ a) : v ≠ 0 := by
  rintro rfl
  exact of_decide_eq_true h hv

theorem eq_zero_of_isFalsy (h : a.isFalsy = true) (hv : v ∈ a) : v = 0 := by
  have hconstant := constant?_eq_some_iff.mp (of_decide_eq_true h)
  rw [hconstant] at hv
  exact mem_constant_iff.mp hv

theorem ne_bottom_of_mem (hv : v ∈ a) : a ≠ bottom := by
  rintro rfl
  exact not_mem_bottom v hv

theorem mem_not (hv : v ∈ a) (hx : x.toInt = ofBool (v = 0)) : x ∈ a.not := by
  rw [not, if_neg (ne_bottom_of_mem hv)]
  apply mem_truth _ _ hx
  · intro h
    exact decide_eq_true (eq_zero_of_isFalsy h hv)
  · intro h
    exact decide_eq_false (ne_zero_of_isTruthy h hv)

theorem mem_and (hv : v ∈ a) (hw : w ∈ b) (hx : x.toInt = ofBool (v ≠ 0 && w ≠ 0)) :
    x ∈ a.and b := by
  rw [and, if_neg (not_or.mpr ⟨ne_bottom_of_mem hv, ne_bottom_of_mem hw⟩)]
  apply mem_truth _ _ hx
  · intro h
    obtain ⟨ha, hb⟩ := Bool.and_eq_true_iff.mp h
    simp [ne_zero_of_isTruthy ha hv, ne_zero_of_isTruthy hb hw]
  · intro h
    rcases Bool.or_eq_true_iff.mp h with h | h
    · simp [eq_zero_of_isFalsy h hv]
    · simp [eq_zero_of_isFalsy h hw]

theorem mem_or (hv : v ∈ a) (hw : w ∈ b) (hx : x.toInt = ofBool (v ≠ 0 || w ≠ 0)) :
    x ∈ a.or b := by
  rw [or, if_neg (not_or.mpr ⟨ne_bottom_of_mem hv, ne_bottom_of_mem hw⟩)]
  apply mem_truth _ _ hx
  · intro h
    rcases Bool.or_eq_true_iff.mp h with h | h
    · simp [ne_zero_of_isTruthy h hv]
    · simp [ne_zero_of_isTruthy h hw]
  · intro h
    obtain ⟨ha, hb⟩ := Bool.and_eq_true_iff.mp h
    simp [eq_zero_of_isFalsy ha hv, eq_zero_of_isFalsy hb hw]

/-! ## Comparisons -/

theorem lt_of_upper_lt {l₁ u₁ l₂ u₂ : Bound} (hv : v ∈ bounded l₁ u₁) (hw : w ∈ bounded l₂ u₂)
    (h : u₁ < l₂) : v.toInt < w.toInt :=
  Bound.fin_lt_fin.mp (hv.2.trans_lt (h.trans_le hw.1))

theorem le_of_upper_le {l₁ u₁ l₂ u₂ : Bound} (hv : v ∈ bounded l₁ u₁) (hw : w ∈ bounded l₂ u₂)
    (h : u₁ ≤ l₂) : v.toInt ≤ w.toInt :=
  Bound.fin_le_fin.mp (hv.2.trans (h.trans hw.1))

theorem ne_of_disjoint {l₁ u₁ l₂ u₂ : Bound} (hv : v ∈ bounded l₁ u₁) (hw : w ∈ bounded l₂ u₂)
    (h : (bounded l₁ u₁).overlap (bounded l₂ u₂) ≠ .eq) : v.toInt ≠ w.toInt := by
  intro heq
  obtain rfl := Int64.toInt_inj.mp heq
  exact h (overlap_eq_iff.mpr ⟨hv.1.trans hw.2, hw.1.trans hv.2⟩)

theorem eq_of_sameConstant (hv : v ∈ a) (hw : w ∈ b) (h : a.constant?.isSome = true ∧ a = b) :
    v.toInt = w.toInt := by
  obtain ⟨hsome, rfl⟩ := h
  obtain ⟨k, hk⟩ := Option.isSome_iff_exists.mp hsome
  rw [constant?_eq_some_iff.mp hk, mem_constant_iff] at hv hw
  rw [hv, hw]

theorem mem_compare {op : BinaryOp} (hop : op.isComparison = true) (hv : v ∈ a) (hw : w ∈ b)
    (hx : x.toInt = ofBool (op.holds v.toInt w.toInt)) : x ∈ compare op a b := by
  cases a with
  | bottom => exact absurd hv (not_mem_bottom v)
  | bounded l₁ u₁ =>
    cases b with
    | bottom => exact absurd hw (not_mem_bottom w)
    | bounded l₂ u₂ =>
      rw [compare]
      cases op <;> simp only [decideComparison]
      case lt =>
        apply mem_ofTruth _ _ hx <;> intro h <;> simp only [BinaryOp.holds]
        · exact decide_eq_true (lt_of_upper_lt hv hw h)
        · exact decide_eq_false (not_lt.mpr (le_of_upper_le hw hv h))
      case le =>
        apply mem_ofTruth _ _ hx <;> intro h <;> simp only [BinaryOp.holds]
        · exact decide_eq_true (le_of_upper_le hv hw h)
        · exact decide_eq_false (not_le.mpr (lt_of_upper_lt hw hv h))
      case gt =>
        apply mem_ofTruth _ _ hx <;> intro h <;> simp only [BinaryOp.holds]
        · exact decide_eq_true (lt_of_upper_lt hw hv h)
        · exact decide_eq_false (not_lt.mpr (le_of_upper_le hv hw h))
      case ge =>
        apply mem_ofTruth _ _ hx <;> intro h <;> simp only [BinaryOp.holds]
        · exact decide_eq_true (le_of_upper_le hw hv h)
        · exact decide_eq_false (not_le.mpr (lt_of_upper_lt hv hw h))
      case eq =>
        apply mem_ofTruth _ _ hx <;> intro h <;> simp only [BinaryOp.holds]
        · exact decide_eq_true (eq_of_sameConstant hv hw h)
        · exact decide_eq_false (ne_of_disjoint hv hw h)
      case ne =>
        apply mem_ofTruth _ _ hx <;> intro h <;> simp only [BinaryOp.holds]
        · exact decide_eq_true (ne_of_disjoint hv hw h)
        · exact decide_eq_false (not_not.mpr (eq_of_sameConstant hv hw h))
      all_goals cases hop

end Interval

/-! ## Operators -/

theorem BinaryOp.result?_of_isComparison {op : BinaryOp} (hop : op.isComparison = true)
    (a b : Int) : op.result? a b = some (ofBool (op.holds a b)) := by
  cases op <;> first | rfl | cases hop

theorem BinaryOp.mem_apply {op : BinaryOp} {v w x : Int64} {a b c : Interval} (hv : v ∈ a)
    (hw : w ∈ b) (h : op.apply a b = .ok c) (hx : op.value? v w = some x) : x ∈ c := by
  obtain ⟨result, hresult, hword⟩ := Option.bind_eq_some_iff.mp hx
  rw [Word.ofInt?_eq_some_iff] at hword
  have hcompare (hop : op.isComparison = true) : x ∈ Interval.compare op a b := by
    rw [result?_of_isComparison hop] at hresult
    cases hresult
    exact Interval.mem_compare hop hv hw hword
  cases op with
  | add =>
    cases hresult
    exact Interval.mem_add hv hw h hword
  | sub =>
    cases hresult
    exact Interval.mem_sub hv hw h hword
  | mul =>
    cases hresult
    cases h
    exact Interval.mem_mul hv hw hword
  | div =>
    rw [result?] at hresult
    split at hresult
    · cases hresult
    · rename_i hzero
      cases hresult
      refine Interval.mem_div hv hw ?_ h hword
      rintro rfl
      exact hzero rfl
  | rem =>
    rw [result?] at hresult
    split at hresult
    · cases hresult
    · rename_i hzero
      cases hresult
      cases h
      refine Interval.mem_rem hv hw ?_ hword
      rintro rfl
      exact hzero rfl
  | and =>
    cases hresult
    cases h
    refine Interval.mem_and hv hw ?_
    simp only [hword, ne_eq, Word.toInt_eq_zero_iff]
  | or =>
    cases hresult
    cases h
    refine Interval.mem_or hv hw ?_
    simp only [hword, ne_eq, Word.toInt_eq_zero_iff]
  | lt | le | gt | ge | eq | ne =>
    cases h
    exact hcompare rfl

theorem AssignOp.mem_apply {op : AssignOp} {operation : BinaryOp} {v w x : Int64}
    {a b c : Interval} (hop : op.operation? = some operation) (hv : v ∈ a) (hw : w ∈ b)
    (h : op.apply a b = .ok c) (hx : operation.value? v w = some x) : x ∈ c := by
  refine BinaryOp.mem_apply hv hw ?_ hx
  cases op with
  | assign => cases hop
  | add | sub | mul | div | rem =>
    cases hop
    exact h

end IntervalFlow
