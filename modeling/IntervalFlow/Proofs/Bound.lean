import IntervalFlow.Bound
import Mathlib.Order.Defs.LinearOrder
import Mathlib.Order.MinMax
import Mathlib.Tactic.Lift

/-!
# Bounds — order and exact arithmetic

Bounds form a linear order with `negInf` below and `posInf` above every word. The operations on two
finite bounds compute over the integers and then saturate: `saturate n` is the word `n`, or the
infinity on the side where `n` leaves the 64-bit range. Comparing a word with `saturate n` is the same
as comparing it with `n`, which is all that the facts about intervals use.
-/

namespace IntervalFlow

/-! ## Words -/

namespace Word

theorem toInt_ofInt {n : Int} (hlow : Int64.minValue.toInt ≤ n)
    (hhigh : n ≤ Int64.maxValue.toInt) : (Int64.ofInt n).toInt = n := by
  rw [Int64.toInt_minValue] at hlow
  rw [Int64.toInt_maxValue] at hhigh
  exact Int64.toInt_ofInt_of_le hlow (by omega)

theorem ofInt?_eq_some_iff {n : Int} {w : Int64} : ofInt? n = some w ↔ w.toInt = n := by
  unfold ofInt?
  constructor
  · intro h
    split at h
    · rename_i hn
      cases h
      exact toInt_ofInt hn.1 hn.2
    · cases h
  · intro h
    rw [← h, if_pos ⟨w.minValue_le_toInt, w.toInt_le⟩, Int64.ofInt_toInt]

theorem ofInt?_eq_none_iff {n : Int} :
    ofInt? n = none ↔ n < Int64.minValue.toInt ∨ Int64.maxValue.toInt < n := by
  rw [ofInt?, ite_eq_right_iff]
  simp only [reduceCtorEq, imp_false]
  omega

theorem toInt_eq_zero_iff {w : Int64} : w.toInt = 0 ↔ w = 0 := Int64.toInt_inj (y := 0)

end Word

namespace Bound

/-! ## Order -/

@[simp] theorem negInf_le (a : Bound) : negInf ≤ a := trivial

@[simp] theorem le_posInf (a : Bound) : a ≤ posInf := by
  cases a <;> trivial

theorem fin_le_fin {a b : Int64} : fin a ≤ fin b ↔ a.toInt ≤ b.toInt := Int64.le_iff_toInt_le

@[simp] theorem not_posInf_le_fin (a : Int64) : ¬ posInf ≤ fin a := id

@[simp] theorem not_fin_le_negInf (a : Int64) : ¬ fin a ≤ negInf := id

@[simp] theorem not_posInf_le_negInf : ¬ posInf ≤ negInf := id

protected theorem le_trans {a b c : Bound} (hab : a ≤ b) (hbc : b ≤ c) : a ≤ c := by
  cases a <;> cases b <;> cases c <;> simp_all [fin_le_fin]
  omega

protected theorem le_antisymm {a b : Bound} (hab : a ≤ b) (hba : b ≤ a) : a = b := by
  cases a <;> cases b <;> simp_all [fin_le_fin]
  exact Int64.toInt_inj.mp (by omega)

protected theorem le_total (a b : Bound) : a ≤ b ∨ b ≤ a := by
  cases a <;> cases b <;> simp [fin_le_fin]
  omega

protected theorem compare_eq (a b : Bound) : compare a b = compareOfLessAndEq a b := by
  change (if ¬ b ≤ a then Ordering.lt else if ¬ a ≤ b then .gt else .eq) =
    if ¬ b ≤ a then .lt else if a = b then .eq else .gt
  by_cases hba : b ≤ a
  · rw [if_neg (not_not.mpr hba), if_neg (not_not.mpr hba)]
    by_cases hab : a ≤ b
    · rw [if_neg (not_not.mpr hab), if_pos (Bound.le_antisymm hab hba)]
    · have hne : a ≠ b := fun h => hab (h ▸ hba)
      rw [if_pos hab, if_neg hne]
  · rw [if_pos hba, if_pos hba]

instance : LinearOrder Bound where
  le_refl a := (Bound.le_total a a).elim id id
  le_trans _ _ _ := Bound.le_trans
  le_antisymm _ _ := Bound.le_antisymm
  le_total := Bound.le_total
  lt_iff_le_not_ge a b := ⟨fun h => ⟨(Bound.le_total a b).resolve_right h, h⟩, And.right⟩
  toDecidableLE := inferInstance
  toDecidableLT := inferInstance
  toDecidableEq := inferInstance
  min_def _ _ := rfl
  max_def _ _ := rfl
  compare_eq_compareOfLessAndEq := Bound.compare_eq

@[simp] theorem le_negInf_iff {a : Bound} : a ≤ negInf ↔ a = negInf := by
  cases a <;> simp

@[simp] theorem posInf_le_iff {a : Bound} : posInf ≤ a ↔ a = posInf := by
  cases a <;> simp

/-- A bound above a word is at least the next word. -/
theorem fin_succ_le {k next : Int64} {b : Bound} (h : fin k < b)
    (hnext : Word.add? k 1 = some next) : fin next ≤ b := by
  have hvalue : next.toInt = k.toInt + 1 := Word.ofInt?_eq_some_iff.mp hnext
  cases b with
  | negInf => exact absurd h.le (not_fin_le_negInf k)
  | posInf => exact le_posInf _
  | fin v =>
    have hlt : ¬ v.toInt ≤ k.toInt := fun hle => h.not_ge (fin_le_fin.mpr hle)
    rw [fin_le_fin]
    omega

theorem fin_lt_succ {k next : Int64} (hnext : Word.add? k 1 = some next) : fin k < fin next := by
  have hvalue : next.toInt = k.toInt + 1 := Word.ofInt?_eq_some_iff.mp hnext
  rw [← not_le, fin_le_fin]
  omega

theorem fin_pred_lt {k prev : Int64} (hprev : Word.sub? k 1 = some prev) : fin prev < fin k := by
  have hvalue : prev.toInt = k.toInt - 1 := Word.ofInt?_eq_some_iff.mp hprev
  rw [← not_le, fin_le_fin]
  omega

/-- A bound below a word is at most the word before it. -/
theorem le_fin_pred {k next : Int64} {b : Bound} (h : b < fin k)
    (hnext : Word.sub? k 1 = some next) : b ≤ fin next := by
  have hvalue : next.toInt = k.toInt - 1 := Word.ofInt?_eq_some_iff.mp hnext
  cases b with
  | negInf => exact negInf_le _
  | posInf => exact absurd h.le (not_posInf_le_fin k)
  | fin v =>
    have hlt : ¬ k.toInt ≤ v.toInt := fun hle => h.not_ge (fin_le_fin.mpr hle)
    rw [fin_le_fin]
    omega

/-! ## Saturation -/

/-- The bound nearest to an integer: the word that holds it, or the infinity on its side. -/
def saturate (n : Int) : Bound :=
  if n < Int64.minValue.toInt then negInf
  else if Int64.maxValue.toInt < n then posInf
  else fin (Int64.ofInt n)

theorem saturate_le_fin {n : Int} {a : Int64} : saturate n ≤ fin a ↔ n ≤ a.toInt := by
  have hlow := a.minValue_le_toInt
  have hhigh := a.toInt_le
  unfold saturate
  split
  · simp
    omega
  · split
    · simp
      omega
    · rw [fin_le_fin, Word.toInt_ofInt (by omega) (by omega)]

theorem fin_le_saturate {n : Int} {a : Int64} : fin a ≤ saturate n ↔ a.toInt ≤ n := by
  have hlow := a.minValue_le_toInt
  have hhigh := a.toInt_le
  unfold saturate
  split
  · simp
    omega
  · split
    · simp
      omega
    · rw [fin_le_fin, Word.toInt_ofInt (by omega) (by omega)]

@[simp] theorem saturate_toInt (a : Int64) : saturate a.toInt = fin a :=
  le_antisymm (saturate_le_fin.mpr le_rfl) (fin_le_saturate.mpr le_rfl)

theorem saturate_mono {m n : Int} (h : m ≤ n) : saturate m ≤ saturate n := by
  rw [saturate]
  split
  · exact negInf_le _
  · split
    · rename_i hm
      have hn : saturate n = posInf := by
        rw [saturate, if_neg (by omega), if_pos (by omega)]
      rw [hn]
    · rw [fin_le_saturate, Word.toInt_ofInt (by omega) (by omega)]
      exact h

/-- A checked result that falls back to the infinity on its side is the saturated one. -/
theorem getD_ofInt? {n : Int} {b : Bound} (hlow : n < Int64.minValue.toInt → b = negInf)
    (hhigh : Int64.maxValue.toInt < n → b = posInf) :
    ((Word.ofInt? n).map fin).getD b = saturate n := by
  unfold saturate Word.ofInt?
  split
  · rw [if_neg (by omega), if_neg (by omega)]
    rfl
  · split
    · exact hlow ‹_›
    · rw [if_pos (by omega)]
      exact hhigh (by omega)

/-! ## Finite operands -/

theorem sign_fin (a : Int64) : (fin a).sign = a.toInt.sign := rfl

theorem infinity_of_neg {s : Int} (h : s < 0) : infinity s = negInf := if_pos h

theorem infinity_of_nonneg {s : Int} (h : 0 ≤ s) : infinity s = posInf := if_neg (by omega)

theorem neg_fin (a : Int64) : (fin a).neg = saturate (-a.toInt) := by
  have hhigh := a.toInt_le
  rw [Int64.toInt_maxValue] at hhigh
  refine getD_ofInt? ?_ (fun _ => rfl)
  intro h
  rw [Int64.toInt_minValue] at h
  omega

theorem add_fin_fin (a b : Int64) : (fin a).add (fin b) = .ok (saturate (a.toInt + b.toInt)) := by
  have ha := a.minValue_le_toInt
  have ha' := a.toInt_le
  refine congrArg Except.ok (getD_ofInt? (fun h => ?_) (fun h => ?_))
  · exact infinity_of_neg (Int.sign_neg_iff.mpr (by omega))
  · exact infinity_of_nonneg (Int.sign_nonneg_iff.mpr (by omega))

theorem sub_fin_fin (a b : Int64) : (fin a).sub (fin b) = .ok (saturate (a.toInt - b.toInt)) := by
  have ha := a.minValue_le_toInt
  have ha' := a.toInt_le
  refine congrArg Except.ok (getD_ofInt? (fun h => ?_) (fun h => ?_))
  · have hb : b.toInt.sign = 1 := Int.sign_eq_one_of_pos (by omega)
    exact infinity_of_neg (by rw [sign_fin, hb]; decide)
  · have hb : b.toInt.sign = -1 := Int.sign_eq_neg_one_of_neg (by omega)
    exact infinity_of_nonneg (by rw [sign_fin, hb]; decide)

theorem mul_fin_fin (a b : Int64) : (fin a).mul (fin b) = saturate (a.toInt * b.toInt) := by
  have hs : (fin a).sign * (fin b).sign = (a.toInt * b.toInt).sign :=
    (Int.sign_mul a.toInt b.toInt).symm
  refine getD_ofInt? (fun h => ?_) (fun h => ?_)
  · rw [Int64.toInt_minValue] at h
    rw [hs]
    exact infinity_of_neg (Int.sign_neg_iff.mpr (by omega))
  · rw [Int64.toInt_maxValue] at h
    rw [hs]
    exact infinity_of_nonneg (Int.sign_nonneg_iff.mpr (by omega))

theorem div_fin_fin {a b : Int64} (hb : b ≠ 0) :
    (fin a).div (fin b) = .ok (saturate (a.toInt.tdiv b.toInt)) := by
  have ha := a.minValue_le_toInt
  have ha' := a.toInt_le
  rw [Int64.toInt_minValue] at ha
  rw [Int64.toInt_maxValue] at ha'
  have hle := Int.natAbs_tdiv_le_natAbs a.toInt b.toInt
  rw [div, if_neg hb]
  refine congrArg Except.ok (getD_ofInt? ?_ (fun _ => rfl))
  intro h
  rw [Int64.toInt_minValue] at h
  omega

/-! ## Sums, differences and negation are monotone -/

/-- Two bounds in order are finite once the infinities at the far ends are excluded. -/
theorem exists_fin_of_le {a b : Bound} (h : a ≤ b) (ha : a ≠ negInf) (hb : b ≠ posInf) :
    ∃ c d : Int64, a = fin c ∧ b = fin d ∧ c.toInt ≤ d.toInt := by
  cases a with
  | negInf => exact absurd rfl ha
  | posInf => exact absurd (posInf_le_iff.mp h) hb
  | fin c =>
    cases b with
    | negInf => exact absurd h (not_fin_le_negInf c)
    | posInf => exact absurd rfl hb
    | fin d => exact ⟨c, d, rfl, rfl, fin_le_fin.mp h⟩

theorem add_fin (a : Bound) (b : Int64) : ∃ x, a.add (fin b) = .ok x := by
  cases a <;> exact ⟨_, rfl⟩

/-- Only opposite infinities have no sum. -/
theorem exists_add {a b : Bound} (h : a = negInf → b ≠ posInf) (h' : a = posInf → b ≠ negInf) :
    ∃ x, a.add b = .ok x := by
  cases a <;> cases b <;> simp_all [add]

/-- Only equal infinities have no difference. -/
theorem exists_sub {a b : Bound} (h : a = negInf → b ≠ negInf) (h' : a = posInf → b ≠ posInf) :
    ∃ x, a.sub b = .ok x := by
  cases a <;> cases b <;> simp_all [sub]

theorem add_eq_negInf {a b x : Bound} (h : a.add b = .ok x) (hab : a = negInf ∨ b = negInf) :
    x = negInf := by
  rcases hab with rfl | rfl
  · cases b <;> cases h <;> rfl
  · cases a <;> cases h <;> rfl

theorem add_eq_posInf {a b x : Bound} (h : a.add b = .ok x) (hab : a = posInf ∨ b = posInf) :
    x = posInf := by
  rcases hab with rfl | rfl
  · cases b <;> cases h <;> rfl
  · cases a <;> cases h <;> rfl

theorem add_mono {a a' b b' x y : Bound} (ha : a ≤ a') (hb : b ≤ b') (hx : a.add b = .ok x)
    (hy : a'.add b' = .ok y) : x ≤ y := by
  by_cases hlow : a = negInf ∨ b = negInf
  · rw [add_eq_negInf hx hlow]
    exact negInf_le y
  by_cases hhigh : a' = posInf ∨ b' = posInf
  · rw [add_eq_posInf hy hhigh]
    exact le_posInf x
  rw [not_or] at hlow hhigh
  obtain ⟨c, c', rfl, rfl, hc⟩ := exists_fin_of_le ha hlow.1 hhigh.1
  obtain ⟨d, d', rfl, rfl, hd⟩ := exists_fin_of_le hb hlow.2 hhigh.2
  rw [add_fin_fin] at hx hy
  cases hx
  cases hy
  exact saturate_mono (by omega)

theorem sub_eq_negInf {a b x : Bound} (h : a.sub b = .ok x) (hab : a = negInf ∨ b = posInf) :
    x = negInf := by
  rcases hab with rfl | rfl
  · cases b <;> cases h <;> rfl
  · cases a <;> cases h <;> rfl

theorem sub_eq_posInf {a b x : Bound} (h : a.sub b = .ok x) (hab : a = posInf ∨ b = negInf) :
    x = posInf := by
  rcases hab with rfl | rfl
  · cases b <;> cases h <;> rfl
  · cases a <;> cases h <;> rfl

/-- A difference grows with its first operand and shrinks with its second. -/
theorem sub_mono {a a' b b' x y : Bound} (ha : a ≤ a') (hb : b' ≤ b) (hx : a.sub b = .ok x)
    (hy : a'.sub b' = .ok y) : x ≤ y := by
  by_cases hlow : a = negInf ∨ b = posInf
  · rw [sub_eq_negInf hx hlow]
    exact negInf_le y
  by_cases hhigh : a' = posInf ∨ b' = negInf
  · rw [sub_eq_posInf hy hhigh]
    exact le_posInf x
  rw [not_or] at hlow hhigh
  obtain ⟨c, c', rfl, rfl, hc⟩ := exists_fin_of_le ha hlow.1 hhigh.1
  obtain ⟨d', d, rfl, rfl, hd⟩ := exists_fin_of_le hb hhigh.2 hlow.2
  rw [sub_fin_fin] at hx hy
  cases hx
  cases hy
  exact saturate_mono (by omega)

theorem neg_anti {a b : Bound} (h : a ≤ b) : b.neg ≤ a.neg := by
  by_cases ha : a = negInf
  · subst ha
    exact le_posInf _
  by_cases hb : b = posInf
  · subst hb
    exact negInf_le _
  obtain ⟨c, d, rfl, rfl, hcd⟩ := exists_fin_of_le h ha hb
  rw [neg_fin, neg_fin]
  exact saturate_mono (by omega)

/-! ## Products -/

theorem mul_comm (a b : Bound) : a.mul b = b.mul a := by
  cases a <;> cases b
  case fin.fin c d => rw [mul_fin_fin, mul_fin_fin, Int.mul_comm]
  all_goals simp only [mul, Int.mul_comm]

/-- The product of a given sign with an infinite operand. -/
def scale (s : Int) : Bound := if s = 0 then fin 0 else infinity s

theorem scale_mono {s t : Int} (h : s ≤ t) : scale s ≤ scale t := by
  unfold scale
  rcases Int.lt_trichotomy s 0 with hs | rfl | hs
  · rw [if_neg (by omega), infinity_of_neg hs]
    exact negInf_le _
  · by_cases ht : t = 0
    · rw [if_pos rfl, if_pos ht]
    · rw [if_neg ht, infinity_of_nonneg h]
      exact le_posInf _
  · rw [if_neg (show ¬ t = 0 by omega), infinity_of_nonneg (show 0 ≤ t by omega)]
    exact le_posInf _

theorem posInf_mul (a : Bound) : posInf.mul a = scale a.sign := by
  cases a <;> simp [mul, scale, sign]

theorem negInf_mul (a : Bound) : negInf.mul a = scale (-a.sign) := by
  cases a <;> simp [mul, scale, sign]

theorem mul_posInf (a : Bound) : a.mul posInf = scale a.sign := by
  rw [mul_comm, posInf_mul]

theorem mul_negInf (a : Bound) : a.mul negInf = scale (-a.sign) := by
  rw [mul_comm, negInf_mul]

theorem sign_mono {a b : Bound} (h : a ≤ b) : a.sign ≤ b.sign := by
  have hsign (n : Int) : -1 ≤ n.sign ∧ n.sign ≤ 1 := by
    rcases Int.lt_trichotomy n 0 with hn | rfl | hn
    · simp [Int.sign_eq_neg_one_of_neg hn]
    · simp
    · simp [Int.sign_eq_one_of_pos hn]
  cases a with
  | negInf => cases b <;> simp [sign, hsign]
  | posInf => rw [posInf_le_iff.mp h]
  | fin c =>
    cases b with
    | negInf => exact absurd h (not_fin_le_negInf c)
    | posInf => exact (hsign _).2
    | fin d =>
      have hcd := fin_le_fin.mp h
      rw [sign_fin, sign_fin]
      rcases Int.lt_trichotomy c.toInt 0 with hc | hc | hc
      · rw [Int.sign_eq_neg_one_of_neg hc]
        exact (hsign _).1
      · rw [hc, Int.sign_zero]
        exact Int.sign_nonneg_iff.mpr (by omega)
      · rw [Int.sign_eq_one_of_pos hc, Int.sign_eq_one_of_pos (show 0 < d.toInt by omega)]

theorem zero_mul (a : Bound) : (fin 0).mul a = fin 0 := by
  cases a with
  | negInf => rfl
  | posInf => rfl
  | fin v => rw [mul_fin_fin, Int64.toInt_zero, Int.zero_mul]; rfl

/-- Multiplication by a bound that is not negative is monotone. -/
theorem mul_mono {a b c : Bound} (ha : fin 0 ≤ a) (h : b ≤ c) : a.mul b ≤ a.mul c := by
  cases a with
  | negInf => exact absurd ha (not_fin_le_negInf 0)
  | posInf =>
    rw [posInf_mul, posInf_mul]
    exact scale_mono (sign_mono h)
  | fin v =>
    rcases Int.lt_or_eq_of_le (fin_le_fin.mp ha) with hpos | hzero
    · have hsign : (fin v).sign = 1 := Int.sign_eq_one_of_pos hpos
      by_cases hb : b = negInf
      · rw [hb, mul_negInf, hsign]
        exact negInf_le _
      by_cases hc : c = posInf
      · rw [hc, mul_posInf, hsign]
        exact le_posInf _
      obtain ⟨m, n, rfl, rfl, hmn⟩ := exists_fin_of_le h hb hc
      rw [mul_fin_fin, mul_fin_fin]
      exact saturate_mono (Int.mul_le_mul_of_nonneg_left hmn (Int.le_of_lt hpos))
    · rw [← Int64.toInt_inj.mp hzero, zero_mul, zero_mul]

/-- Multiplication by a bound that is not positive is antitone. -/
theorem mul_anti {a b c : Bound} (ha : a ≤ fin 0) (h : b ≤ c) : a.mul c ≤ a.mul b := by
  cases a with
  | posInf => exact absurd ha (not_posInf_le_fin 0)
  | negInf =>
    rw [negInf_mul, negInf_mul]
    exact scale_mono (Int.neg_le_neg (sign_mono h))
  | fin v =>
    rcases Int.lt_or_eq_of_le (fin_le_fin.mp ha) with hneg | hzero
    · have hsign : (fin v).sign = -1 := Int.sign_eq_neg_one_of_neg hneg
      by_cases hb : b = negInf
      · rw [hb, mul_negInf, hsign]
        exact le_posInf _
      by_cases hc : c = posInf
      · rw [hc, mul_posInf, hsign]
        exact negInf_le _
      obtain ⟨m, n, rfl, rfl, hmn⟩ := exists_fin_of_le h hb hc
      rw [mul_fin_fin, mul_fin_fin]
      exact saturate_mono (Int.mul_le_mul_of_nonpos_left (Int.le_of_lt hneg) hmn)
    · rw [Int64.toInt_inj.mp hzero, zero_mul, zero_mul]

/-- A product lies between the products with the ends of a range of one factor. -/
theorem mul_between (a : Bound) {l b u : Bound} (hl : l ≤ b) (hu : b ≤ u) :
    min (a.mul l) (a.mul u) ≤ a.mul b ∧ a.mul b ≤ max (a.mul l) (a.mul u) := by
  rcases le_total (fin 0) a with ha | ha
  · exact ⟨(min_le_left _ _).trans (mul_mono ha hl), (mul_mono ha hu).trans (le_max_right _ _)⟩
  · exact ⟨(min_le_right _ _).trans (mul_anti ha hu), (mul_anti ha hl).trans (le_max_left _ _)⟩

/-! ## Quotients -/

/-- The quotient by a divisor that is not zero. -/
def quotient (a : Bound) (b : Int64) : Bound :=
  match a with
  | fin v => saturate (v.toInt.tdiv b.toInt)
  | a => infinity (a.sign * b.toInt.sign)

theorem div_fin {a : Bound} {b : Int64} (hb : b ≠ 0) : a.div (fin b) = .ok (a.quotient b) := by
  cases a with
  | fin v => exact div_fin_fin hb
  | negInf => simp only [div, if_neg hb, quotient, sign_fin]
  | posInf => simp only [div, if_neg hb, quotient, sign_fin]

theorem quotient_mono {a b : Bound} {c : Int64} (hc : 0 < c.toInt) (h : a ≤ b) :
    a.quotient c ≤ b.quotient c := by
  have hsign : c.toInt.sign = 1 := Int.sign_eq_one_of_pos hc
  by_cases ha : a = negInf
  · subst ha
    rw [quotient.eq_def negInf, hsign]
    exact negInf_le _
  by_cases hb : b = posInf
  · subst hb
    rw [quotient.eq_def posInf, hsign]
    exact le_posInf _
  obtain ⟨m, n, rfl, rfl, hmn⟩ := exists_fin_of_le h ha hb
  exact saturate_mono (Int.tdiv_le_tdiv hc hmn)

theorem quotient_anti {a b : Bound} {c : Int64} (hc : c.toInt < 0) (h : a ≤ b) :
    b.quotient c ≤ a.quotient c := by
  have hsign : c.toInt.sign = -1 := Int.sign_eq_neg_one_of_neg hc
  by_cases ha : a = negInf
  · subst ha
    rw [quotient.eq_def negInf, hsign]
    exact le_posInf _
  by_cases hb : b = posInf
  · subst hb
    rw [quotient.eq_def posInf, hsign]
    exact negInf_le _
  obtain ⟨m, n, rfl, rfl, hmn⟩ := exists_fin_of_le h ha hb
  refine saturate_mono ?_
  have hneg := Int.tdiv_le_tdiv (show 0 < -c.toInt by omega) hmn
  rw [Int.tdiv_neg, Int.tdiv_neg] at hneg
  omega

theorem quotient_between {l a u : Bound} {c : Int64} (hc : c ≠ 0) (hl : l ≤ a) (hu : a ≤ u) :
    min (l.quotient c) (u.quotient c) ≤ a.quotient c ∧
      a.quotient c ≤ max (l.quotient c) (u.quotient c) := by
  rcases Int.lt_or_gt_of_ne (Word.toInt_eq_zero_iff.not.mpr hc) with hneg | hpos
  · exact ⟨(min_le_right _ _).trans (quotient_anti hneg hu),
      (quotient_anti hneg hl).trans (le_max_left _ _)⟩
  · exact ⟨(min_le_left _ _).trans (quotient_mono hpos hl),
      (quotient_mono hpos hu).trans (le_max_right _ _)⟩

theorem tdiv_le_tdiv_left {v b c : Int} (hv : 0 ≤ v) (hc : 0 < c) (hcb : c ≤ b) :
    0 ≤ v.tdiv b ∧ v.tdiv b ≤ v.tdiv c := by
  lift v to Nat using hv
  lift c to Nat using by omega
  lift b to Nat using by omega
  rw [← Int.ofNat_tdiv, ← Int.ofNat_tdiv]
  exact ⟨Int.natCast_nonneg _, Int.ofNat_le.mpr (Nat.div_le_div_left (by omega) (by omega))⟩

/-- A larger divisor of the same sign brings the quotient closer to zero. -/
theorem tdiv_between_zero (v : Int) {b c : Int} (h : 0 < c ∧ c ≤ b ∨ b ≤ c ∧ c < 0) :
    min 0 (v.tdiv c) ≤ v.tdiv b ∧ v.tdiv b ≤ max 0 (v.tdiv c) := by
  rcases h with ⟨hc, hcb⟩ | ⟨hbc, hc⟩
  · rcases Int.le_total 0 v with hv | hv
    · have := tdiv_le_tdiv_left hv hc hcb
      omega
    · have := tdiv_le_tdiv_left (show 0 ≤ -v by omega) hc hcb
      rw [Int.neg_tdiv, Int.neg_tdiv] at this
      omega
  · rcases Int.le_total 0 v with hv | hv
    · have := tdiv_le_tdiv_left hv (show 0 < -c by omega) (show -c ≤ -b by omega)
      rw [Int.tdiv_neg, Int.tdiv_neg] at this
      omega
    · have := tdiv_le_tdiv_left (show 0 ≤ -v by omega) (show 0 < -c by omega)
        (show -c ≤ -b by omega)
      rw [Int.neg_tdiv, Int.neg_tdiv, Int.tdiv_neg, Int.tdiv_neg] at this
      omega

theorem saturate_between {m k n : Int} (h : min m n ≤ k ∧ k ≤ max m n) :
    min (saturate m) (saturate n) ≤ saturate k ∧ saturate k ≤ max (saturate m) (saturate n) := by
  have hmono : Monotone saturate := fun _ _ => saturate_mono
  rw [← hmono.map_min, ← hmono.map_max]
  exact ⟨saturate_mono h.1, saturate_mono h.2⟩

/-- A finite dividend: the quotient by an infinite end of the divisors is zero. -/
theorem fin_div_between {v b : Int64} {l u p q : Bound} (hl : l ≤ fin b) (hu : fin b ≤ u)
    (h0 : ¬ (l ≤ fin 0 ∧ fin 0 ≤ u)) (hp : (fin v).div l = .ok p) (hq : (fin v).div u = .ok q) :
    min p q ≤ (fin v).quotient b ∧ (fin v).quotient b ≤ max p q := by
  have hz : fin 0 = saturate 0 := rfl
  cases l with
  | posInf => exact absurd hl (not_posInf_le_fin b)
  | negInf =>
    cases hp
    cases u with
    | negInf => exact absurd hu (not_fin_le_negInf b)
    | posInf => exact absurd ⟨negInf_le _, le_posInf _⟩ h0
    | fin d =>
      have hd : d.toInt < 0 := not_le.mp fun h => h0 ⟨negInf_le _, fin_le_fin.mpr h⟩
      rw [div_fin (fun h => by simp [h] at hd)] at hq
      cases hq
      rw [hz]
      exact saturate_between (tdiv_between_zero _ (.inr ⟨fin_le_fin.mp hu, hd⟩))
  | fin c =>
    have hcb := fin_le_fin.mp hl
    have hc : c ≠ 0 := by
      rintro rfl
      exact h0 ⟨le_rfl, hl.trans hu⟩
    rw [div_fin hc] at hp
    cases hp
    cases u with
    | negInf => exact absurd hu (not_fin_le_negInf b)
    | posInf =>
      have hpos : 0 < c.toInt := not_le.mp fun h => h0 ⟨fin_le_fin.mpr h, le_posInf _⟩
      cases hq
      rw [hz, min_comm, max_comm]
      exact saturate_between (tdiv_between_zero _ (.inl ⟨hpos, hcb⟩))
    | fin d =>
      have hbd := fin_le_fin.mp hu
      have hd : d ≠ 0 := by
        rintro rfl
        exact h0 ⟨hl.trans hu, le_rfl⟩
      have hsame : ¬ (c.toInt ≤ 0 ∧ 0 ≤ d.toInt) := fun h =>
        h0 ⟨fin_le_fin.mpr h.1, fin_le_fin.mpr h.2⟩
      rw [div_fin hd] at hq
      cases hq
      refine saturate_between ?_
      rcases Int.lt_or_le 0 c.toInt with hpos | hneg
      · have hnear := tdiv_between_zero v.toInt (.inl ⟨hpos, hcb⟩)
        have hfar := tdiv_between_zero v.toInt (.inl ⟨by omega, hbd⟩)
        omega
      · have hnear := tdiv_between_zero v.toInt (.inr ⟨hbd, by omega⟩)
        have hfar := tdiv_between_zero v.toInt (.inr ⟨hcb, by omega⟩)
        omega

/-- An infinite dividend: only finite divisors give a quotient, and it depends on their sign only. -/
theorem infinite_div_between {a l u p q : Bound} {b : Int64} (ha : a = negInf ∨ a = posInf)
    (hl : l ≤ fin b) (hu : fin b ≤ u) (h0 : ¬ (l ≤ fin 0 ∧ fin 0 ≤ u)) (hp : a.div l = .ok p)
    (hq : a.div u = .ok q) : p = a.quotient b ∧ q = a.quotient b := by
  have hfin {e r : Bound} (h : a.div e = .ok r) :
      ∃ c : Int64, c ≠ 0 ∧ e = fin c ∧ r = infinity (a.sign * c.toInt.sign) := by
    rcases ha with rfl | rfl <;> cases e <;> simp only [div, reduceCtorEq] at h
    all_goals
      split at h
      · cases h
      · cases h
        exact ⟨_, ‹_›, rfl, rfl⟩
  have hquot : a.quotient b = infinity (a.sign * b.toInt.sign) := by
    rcases ha with rfl | rfl <;> rfl
  obtain ⟨c, hc, rfl, rfl⟩ := hfin hp
  obtain ⟨d, hd, rfl, rfl⟩ := hfin hq
  have hcb := fin_le_fin.mp hl
  have hbd := fin_le_fin.mp hu
  have hsame : ¬ (c.toInt ≤ 0 ∧ 0 ≤ d.toInt) := fun h =>
    h0 ⟨fin_le_fin.mpr h.1, fin_le_fin.mpr h.2⟩
  rw [hquot]
  rcases Int.lt_or_le 0 c.toInt with hpos | hneg
  · rw [Int.sign_eq_one_of_pos hpos, Int.sign_eq_one_of_pos (show 0 < b.toInt by omega),
      Int.sign_eq_one_of_pos (show 0 < d.toInt by omega)]
    exact ⟨rfl, rfl⟩
  · rw [Int.sign_eq_neg_one_of_neg (show c.toInt < 0 by omega),
      Int.sign_eq_neg_one_of_neg (show b.toInt < 0 by omega),
      Int.sign_eq_neg_one_of_neg (show d.toInt < 0 by omega)]
    exact ⟨rfl, rfl⟩

/-- Quotients by the ends of a range of divisors without zero enclose those by its members. -/
theorem div_between {a l u p q : Bound} {b : Int64} (hl : l ≤ fin b) (hu : fin b ≤ u)
    (h0 : ¬ (l ≤ fin 0 ∧ fin 0 ≤ u)) (hp : a.div l = .ok p) (hq : a.div u = .ok q) :
    min p q ≤ a.quotient b ∧ a.quotient b ≤ max p q := by
  by_cases ha : a = negInf ∨ a = posInf
  · obtain ⟨rfl, rfl⟩ := infinite_div_between ha hl hu h0 hp hq
    simp
  · cases a with
    | negInf => exact absurd (.inl rfl) ha
    | posInf => exact absurd (.inr rfl) ha
    | fin v => exact fin_div_between hl hu h0 hp hq

end Bound

end IntervalFlow
