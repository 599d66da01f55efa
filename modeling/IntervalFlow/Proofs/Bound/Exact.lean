import IntervalFlow.Proofs.Bound

/-!
# Bounds — the extended integers

Read as integers with two infinities, bounds are added, subtracted, multiplied, divided and negated
exactly, and only the result is saturated (`arithmetic_exact`). An operation fails where the
extended integers have no result, and nowhere else.
-/

namespace IntervalFlow

/-! ## Exact arithmetic -/

/-- The integers with two infinities. -/
inductive Extended where
  | negInf
  | int (value : Int)
  | posInf
  deriving DecidableEq

namespace Extended

def sign : Extended → Int
  | negInf => -1
  | int n => n.sign
  | posInf => 1

/-- Zero, or the infinity on the side of `s`. -/
def ofSign (s : Int) : Extended := if s = 0 then int 0 else if s < 0 then negInf else posInf

def neg : Extended → Extended
  | negInf => posInf
  | int n => int (-n)
  | posInf => negInf

/-- An infinity absorbs every integer, but not the opposite infinity. -/
def add? : Extended → Extended → Option Extended
  | int m, int n => some (int (m + n))
  | x, int _ => some x
  | int _, y => some y
  | x, y => if x = y then some x else none

def sub? (x y : Extended) : Option Extended := x.add? y.neg

/-- A product with an infinity follows the signs of the factors: zero times an infinity is zero. -/
def mul : Extended → Extended → Extended
  | int m, int n => int (m * n)
  | x, y => ofSign (x.sign * y.sign)

/-- Quotients are rounded toward zero, so that of an integer by an infinity is zero. Dividing an
infinity by an integer other than zero is multiplying it by that integer. -/
def div? : Extended → Extended → Option Extended
  | _, int 0 => none
  | int m, int n => some (int (m.tdiv n))
  | int _, _ => some (int 0)
  | x, int n => some (x.mul (int n))
  | _, _ => none

/-- The nearest bound: an integer above or below all words becomes the infinity on its side. -/
def saturate : Extended → Bound
  | negInf => .negInf
  | int n => Bound.saturate n
  | posInf => .posInf

theorem saturate_ofSign (s : Int) : (ofSign s).saturate = Bound.scale s := by
  unfold ofSign Bound.scale Bound.infinity
  split_ifs <;> rfl

end Extended

namespace Bound

/-- A bound as an extended integer. -/
def exact : Bound → Extended
  | negInf => .negInf
  | fin v => .int v.toInt
  | posInf => .posInf

/-! ## Operations on bounds -/

theorem neg_exact (a : Bound) : a.neg = a.exact.neg.saturate := by
  cases a with
  | negInf => rfl
  | fin v => exact neg_fin v
  | posInf => rfl

/-- Only opposite infinities have no sum. -/
theorem add_eq_error_iff {a b : Bound} {e : Undefined} :
    a.add b = .error e ↔ e = .sum a b ∧ (a = negInf ∧ b = posInf ∨ a = posInf ∧ b = negInf) := by
  cases a <;> cases b <;> simp [add, eq_comm]

theorem add_eq_ok_iff {a b c : Bound} :
    a.add b = .ok c ↔ ∃ x, a.exact.add? b.exact = some x ∧ x.saturate = c := by
  cases a <;> cases b
  case fin.fin v w => simp [add_fin_fin, exact, Extended.add?, Extended.saturate]
  all_goals simp [add, exact, Extended.add?, Extended.saturate]

/-- Only an infinity and itself have no difference. -/
theorem sub_eq_error_iff {a b : Bound} {e : Undefined} :
    a.sub b = .error e ↔
      e = .difference a b ∧ (a = negInf ∧ b = negInf ∨ a = posInf ∧ b = posInf) := by
  cases a <;> cases b <;> simp [sub, eq_comm]

theorem sub_eq_ok_iff {a b c : Bound} :
    a.sub b = .ok c ↔ ∃ x, a.exact.sub? b.exact = some x ∧ x.saturate = c := by
  cases a <;> cases b
  case fin.fin v w =>
    simp [sub_fin_fin, exact, Extended.sub?, Extended.neg, Extended.add?, Extended.saturate,
      Int.sub_eq_add_neg]
  all_goals simp [sub, exact, Extended.sub?, Extended.neg, Extended.add?, Extended.saturate]

theorem mul_exact (a b : Bound) : a.mul b = (a.exact.mul b.exact).saturate := by
  cases a <;> cases b
  case fin.fin v w => exact mul_fin_fin v w
  -- a product with an infinity is computed from the signs on both sides
  all_goals exact (Extended.saturate_ofSign _).symm

theorem div_zero (a : Bound) : a.div (fin 0) = .error (.quotient a (fin 0)) := by
  cases a <;> rfl

/-- Only a zero divisor and two infinite operands have no quotient. -/
theorem div_eq_error_iff {a b : Bound} {e : Undefined} :
    a.div b = .error e ↔
      e = .quotient a b ∧ (b = fin 0 ∨ a.isFinite = false ∧ b.isFinite = false) := by
  cases b with
  | fin w =>
    by_cases hw : w = 0
    · subst hw
      rw [div_zero, Except.error.injEq, eq_comm]
      simp
    · simp [div_fin hw, hw, isFinite, value?]
  | negInf => cases a <;> simp [div, isFinite, value?, eq_comm]
  | posInf => cases a <;> simp [div, isFinite, value?, eq_comm]

/-- Dividing an infinity by a word other than zero is multiplying it by that word. -/
theorem quotient_of_infinite {a : Bound} (ha : a = negInf ∨ a = posInf) {b : Int64} (hb : b ≠ 0) :
    a.quotient b = a.mul (fin b) := by
  have hsign : (fin b).sign ≠ 0 := by
    rw [Ne, sign_fin, Int.sign_eq_zero_iff_zero, Word.toInt_eq_zero_iff]
    exact hb
  rcases ha with rfl | rfl
  · rw [negInf_mul, scale, if_neg (Int.neg_ne_zero.mpr hsign)]
    simp [quotient, sign]
  · rw [posInf_mul, scale, if_neg hsign]
    simp [quotient, sign]

theorem div_eq_ok_iff {a b c : Bound} :
    a.div b = .ok c ↔ ∃ x, a.exact.div? b.exact = some x ∧ x.saturate = c := by
  have hzero : fin 0 = (Extended.int 0).saturate := rfl
  cases b with
  | negInf => cases a <;> simp [div, exact, Extended.div?, hzero]
  | posInf => cases a <;> simp [div, exact, Extended.div?, hzero]
  | fin w =>
    by_cases hw : w = 0
    · subst hw
      rw [div_zero]
      simp [exact, Extended.div?]
    · -- asked for by the equations of `div?` that follow the one for zero
      have hw' : w.toInt ≠ 0 := Word.toInt_eq_zero_iff.not.mpr hw
      rw [div_fin hw]
      cases a with
      | fin v => simp [quotient, exact, Extended.div?, Extended.saturate]
      | negInf =>
        rw [quotient_of_infinite (.inl rfl) hw, mul_exact]
        simp [exact, Extended.div?]
      | posInf =>
        rw [quotient_of_infinite (.inr rfl) hw, mul_exact]
        simp [exact, Extended.div?]

/-- Bounds are computed with as extended integers are, and the result is saturated. Sums,
differences and quotients fail exactly where the infinities leave them undefined, or for a zero
divisor. So sums grow with both operands, differences grow with the first and shrink with the
second, and negation turns the order around, wherever there are results to compare. -/
theorem arithmetic_exact :
    (∀ a b : Bound,
      ((∀ e, a.add b = .error e ↔
          e = .sum a b ∧ (a = negInf ∧ b = posInf ∨ a = posInf ∧ b = negInf)) ∧
        ∀ c, a.add b = .ok c ↔ ∃ x, a.exact.add? b.exact = some x ∧ x.saturate = c) ∧
      ((∀ e, a.sub b = .error e ↔
          e = .difference a b ∧ (a = negInf ∧ b = negInf ∨ a = posInf ∧ b = posInf)) ∧
        ∀ c, a.sub b = .ok c ↔ ∃ x, a.exact.sub? b.exact = some x ∧ x.saturate = c) ∧
      a.mul b = (a.exact.mul b.exact).saturate ∧
      a.neg = a.exact.neg.saturate ∧
      ((∀ e, a.div b = .error e ↔
          e = .quotient a b ∧ (b = fin 0 ∨ a.isFinite = false ∧ b.isFinite = false)) ∧
        ∀ c, a.div b = .ok c ↔ ∃ x, a.exact.div? b.exact = some x ∧ x.saturate = c)) ∧
    ∀ a a' b b' : Bound, a ≤ a' →
      (b ≤ b' → ∀ x y, a.add b = .ok x → a'.add b' = .ok y → x ≤ y) ∧
      (b' ≤ b → ∀ x y, a.sub b = .ok x → a'.sub b' = .ok y → x ≤ y) ∧
      a'.neg ≤ a.neg := by
  constructor
  · intro a b
    exact ⟨⟨fun _ => add_eq_error_iff, fun _ => add_eq_ok_iff⟩,
      ⟨fun _ => sub_eq_error_iff, fun _ => sub_eq_ok_iff⟩, mul_exact a b, neg_exact a,
      ⟨fun _ => div_eq_error_iff, fun _ => div_eq_ok_iff⟩⟩
  · intro a a' b b' ha
    refine ⟨?_, ?_, neg_anti ha⟩
    · intro hb x y hx hy
      exact add_mono ha hb hx hy
    · intro hb x y hx hy
      exact sub_mono ha hb hx hy

/-- At the smallest and the largest word every operation leaves the words. -/
theorem word_limits_exact :
    (fin Int64.maxValue).add (fin 1) = .ok posInf ∧
    (fin Int64.minValue).sub (fin 1) = .ok negInf ∧
    (fin Int64.minValue).mul (fin Int64.maxValue) = negInf ∧
    (fin Int64.minValue).neg = posInf ∧
    (fin Int64.minValue).div (fin (-1)) = .ok posInf ∧
    fin (Int64.minValue + 1) ≤ posInf ∧
    negInf ≤ fin (Int64.maxValue - 1) ∧
    (fin Int64.maxValue).neg ≤ (fin Int64.minValue).neg := by
  obtain ⟨hexact, hmono⟩ := arithmetic_exact
  obtain ⟨⟨-, hadd⟩, -⟩ := hexact (fin Int64.maxValue) (fin 1)
  obtain ⟨-, ⟨-, hsub⟩, -⟩ := hexact (fin Int64.minValue) (fin 1)
  obtain ⟨-, -, hmul, hneg, -⟩ := hexact (fin Int64.minValue) (fin Int64.maxValue)
  obtain ⟨-, -, -, -, -, hdiv⟩ := hexact (fin Int64.minValue) (fin (-1))
  have hsum := (hadd posInf).mpr ⟨_, rfl, rfl⟩
  have hdifference := (hsub negInf).mpr ⟨_, rfl, rfl⟩
  obtain ⟨hsums, hdifferences, hneg'⟩ :=
    hmono (fin Int64.minValue) (fin Int64.maxValue) (fin 1) (fin 1) (by decide)
  exact ⟨hsum, hdifference, hmul, hneg, (hdiv posInf).mpr ⟨_, rfl, rfl⟩,
    hsums le_rfl _ _ (by decide) hsum, hdifferences le_rfl _ _ hdifference (by decide), hneg'⟩

end Bound

end IntervalFlow
