import IntervalFlow.Effect.CountedLoop
import IntervalFlow.Proofs.Bound

/-!
# Trip counts

A trip count is exact: the condition of the loop holds before each of the trips and fails after the
last one. Counting down is counting up on the other side of zero, so that only the loops that count
up need arithmetic. The count is computed over the integers, and words of 128 bits hold every number
on the way to it.
-/

namespace IntervalFlow

/-! ## Exactness -/

/-- A counter that goes from `a` by `s` passes `counter op b` exactly `n` times before it fails. -/
structure Trips (op : BinaryOp) (a b s n : Int) : Prop where
  nonneg : 0 ≤ n
  passes : ∀ j, 0 ≤ j → j < n → op.holds (a + j * s) b = true
  fails : op.holds (a + n * s) b = false

namespace Trips

variable {op op' : BinaryOp} {a b s n : Int}

/-- A counter that fails the condition at once makes no trip, whatever its step. -/
theorem of_not_holds (h : op.holds a b = false) : Trips op a b s 0 where
  nonneg := le_rfl
  passes j hj hlt := absurd hlt hj.not_gt
  fails := by rwa [Int.zero_mul, Int.add_zero]

/-- As many whole steps as fit into the distance lead to the last number that passes. -/
theorem le (hs : 0 < s) (hab : a ≤ b) : Trips .le a b s ((b - a) / s + 1) where
  nonneg := by
    have hnonneg : 0 ≤ (b - a) / s := Int.ediv_nonneg (by omega) hs.le
    omega
  passes j _ hlt := by
    have hsteps : j * s ≤ (b - a) / s * s := Int.mul_le_mul_of_nonneg_right (by omega) hs.le
    have hfit : (b - a) / s * s ≤ b - a := Int.ediv_mul_le _ hs.ne'
    rw [BinaryOp.holds, decide_eq_true_iff]
    omega
  fails := by
    have hexceed := Int.lt_ediv_add_one_mul_self (b - a) hs
    rw [BinaryOp.holds, decide_eq_false_iff_not]
    omega

/-- Staying below `b` is not exceeding `b - 1`. -/
theorem lt (hs : 0 < s) (hab : a < b) : Trips .lt a b s ((b - a + s - 1) / s) := by
  have hcount : (b - a + s - 1) / s = (b - 1 - a) / s + 1 := by
    rw [show b - a + s - 1 = b - 1 - a + s by omega, Int.add_ediv_of_dvd_right (Int.dvd_refl s),
      Int.ediv_self hs.ne']
  have hle : Trips .le a (b - 1) s ((b - 1 - a) / s + 1) := le hs (by omega)
  have hholds (c : Int) : BinaryOp.lt.holds c b = BinaryOp.le.holds c (b - 1) := by
    simp only [BinaryOp.holds, decide_eq_decide]
    omega
  rw [hcount]
  constructor
  · exact hle.nonneg
  · intro j hj hlt
    rw [hholds]
    exact hle.passes j hj hlt
  · rw [hholds]
    exact hle.fails

theorem ne (hab : a ≤ b) : Trips .ne a b 1 (b - a) where
  nonneg := by omega
  passes j _ hlt := by
    rw [BinaryOp.holds, decide_eq_true_iff]
    omega
  fails := by
    rw [BinaryOp.holds, decide_eq_false_iff_not]
    omega

/-- A counter goes down as its negation goes up, under the comparison that faces the other way. -/
theorem mirror (hflip : op.flip? = some op') (h : Trips op' (-a) (-b) (-s) n) :
    Trips op a b s n := by
  have hholds (j : Int) : op.holds (a + j * s) b = op'.holds (-a + j * -s) (-b) := by
    rw [Int.mul_neg, ← Int.neg_add]
    cases op <;> cases hflip <;> simp only [BinaryOp.holds, decide_eq_decide] <;> omega
  constructor
  · exact h.nonneg
  · intro j hj hlt
    rw [hholds]
    exact h.passes j hj hlt
  · rw [hholds]
    exact h.fails

end Trips

/-- The count for a condition that no rule covers. -/
theorem trips_of_otherwise {op : BinaryOp} {a b s : Int} {trips : Int64}
    (h : (if op.holds a b = true then none else Word.ofInt? 0) = some trips) :
    Trips op a b s trips.toInt := by
  split at h
  · cases h
  · rename_i hfails
    rw [Word.ofInt?_eq_some_iff.mp h]
    exact .of_not_holds (by simpa using hfails)

/-- A trip count counts the trips, one rule for each direction of each comparison. -/
theorem trips_of_tripCount? {op : BinaryOp} {start bound step trips : Int64}
    (h : tripCount? op start bound step = some trips) :
    Trips op start.toInt bound.toInt step.toInt trips.toInt := by
  unfold tripCount? at h
  generalize start.toInt = a, bound.toInt = b, step.toInt = s at h ⊢
  cases op with
  | lt =>
    simp only at h
    split at h
    · rename_i hup
      rw [Word.ofInt?_eq_some_iff.mp h]
      exact .lt hup.1 hup.2
    · exact trips_of_otherwise h
  | le =>
    simp only at h
    split at h
    · rename_i hup
      rw [Word.ofInt?_eq_some_iff.mp h]
      exact .le hup.1 hup.2
    · exact trips_of_otherwise h
  | gt =>
    simp only at h
    split at h
    · rename_i hdown
      have hup : Trips .lt (-a) (-b) (-s) ((-b - -a + -s - 1) / -s) := .lt (by omega) (by omega)
      rw [show -b - -a + -s - 1 = a - b - s - 1 by omega] at hup
      rw [Word.ofInt?_eq_some_iff.mp h]
      exact .mirror rfl hup
    · exact trips_of_otherwise h
  | ge =>
    simp only at h
    split at h
    · rename_i hdown
      have hup : Trips .le (-a) (-b) (-s) ((-b - -a) / -s + 1) := .le (by omega) (by omega)
      rw [show -b - -a = a - b by omega] at hup
      rw [Word.ofInt?_eq_some_iff.mp h]
      exact .mirror rfl hup
    · exact trips_of_otherwise h
  | ne =>
    simp only at h
    split at h
    · rename_i hup
      rw [Word.ofInt?_eq_some_iff.mp h, hup.1]
      exact .ne hup.2
    · split at h
      · rename_i hdown
        have hup : Trips .ne (-a) (-b) 1 (-b - -a) := .ne (by omega)
        rw [show -b - -a = a - b by omega] at hup
        rw [Word.ofInt?_eq_some_iff.mp h, hdown.1]
        exact .mirror rfl hup
      · exact trips_of_otherwise h
  | add | sub | mul | div | rem | eq | and | or => exact trips_of_otherwise h

/-! ## Width -/

/-- The result of a computation in signed words of 128 bits. It is `none` if a number on the way
does not fit or a divisor is zero. -/
def Wide := Option (BitVec 128)

namespace Wide

def ofInt (n : Int) : Wide :=
  if (BitVec.intMin 128).toInt ≤ n ∧ n ≤ (BitVec.intMax 128).toInt then some (.ofInt 128 n)
  else none

def ofWord (a : Int64) : Wide := some (a.toBitVec.signExtend 128)

instance : Neg Wide := ⟨fun x => x.bind fun a => ofInt (-a.toInt)⟩

instance : Add Wide := ⟨fun x y => x.bind fun a => y.bind fun b => ofInt (a.toInt + b.toInt)⟩

instance : Sub Wide := ⟨fun x y => x.bind fun a => y.bind fun b => ofInt (a.toInt - b.toInt)⟩

/-- Division rounds toward zero. -/
instance : Div Wide :=
  ⟨fun x y => x.bind fun a => y.bind fun b =>
    if b = 0 then none else ofInt (a.toInt.tdiv b.toInt)⟩

/-- The 64-bit word with the same value. It is missing on the outside if the computation failed, and
on the inside if the value is too large. -/
def word? (x : Wide) : Option (Option Int64) := x.map (Word.ofInt? ·.toInt)

/-- The computation ends with the word for `n`. -/
def Holds (x : Wide) (n : Int) : Prop := ∃ w, x = some w ∧ w.toInt = n

variable {x y : Wide} {m n : Int}

theorem Holds.word?_eq (h : x.Holds n) : x.word? = some (Word.ofInt? n) := by
  obtain ⟨w, rfl, hw⟩ := h
  rw [← hw]
  rfl

/-- A rule that applies where its computation succeeds, in front of other rules. -/
theorem word?_rule {c : Prop} [Decidable c] (hrule : c → x.Holds n)
    {rest : Option (Option Int64)} {result : Option Int64} (hrest : rest = some result) :
    (if c then x.word? else rest) = some (if c then Word.ofInt? n else result) := by
  by_cases hc : c
  · rw [if_pos hc, if_pos hc, (hrule hc).word?_eq]
  · rw [if_neg hc, if_neg hc, hrest]

theorem holds_ofWord (a : Int64) : (ofWord a).Holds a.toInt :=
  ⟨_, rfl, by rw [BitVec.toInt_signExtend_of_le (by decide), Int64.toInt_toBitVec]⟩

theorem holds_ofInt (hlow : (BitVec.intMin 128).toInt ≤ n) (hhigh : n ≤ (BitVec.intMax 128).toInt) :
    (ofInt n).Holds n :=
  ⟨.ofInt 128 n, if_pos ⟨hlow, hhigh⟩, BitVec.toInt_ofInt_eq_self (by decide)
    (le_trans (by decide) hlow) (lt_of_le_of_lt hhigh (by decide))⟩

/-- Numbers of the size of a few words fit. -/
theorem holds_of_words (hlow : 4 * Int64.minValue.toInt ≤ n)
    (hhigh : n ≤ 4 * Int64.maxValue.toInt) : (ofInt n).Holds n :=
  holds_ofInt (le_trans (by decide) hlow) (le_trans hhigh (by decide))

theorem Holds.neg (hx : x.Holds m) (hlow : 4 * Int64.minValue.toInt ≤ -m)
    (hhigh : -m ≤ 4 * Int64.maxValue.toInt) : (-x).Holds (-m) := by
  obtain ⟨a, rfl, rfl⟩ := hx
  exact holds_of_words hlow hhigh

theorem Holds.add (hx : x.Holds m) (hy : y.Holds n) (hlow : 4 * Int64.minValue.toInt ≤ m + n)
    (hhigh : m + n ≤ 4 * Int64.maxValue.toInt) : (x + y).Holds (m + n) := by
  obtain ⟨a, rfl, rfl⟩ := hx
  obtain ⟨b, rfl, rfl⟩ := hy
  exact holds_of_words hlow hhigh

theorem Holds.sub (hx : x.Holds m) (hy : y.Holds n) (hlow : 4 * Int64.minValue.toInt ≤ m - n)
    (hhigh : m - n ≤ 4 * Int64.maxValue.toInt) : (x - y).Holds (m - n) := by
  obtain ⟨a, rfl, rfl⟩ := hx
  obtain ⟨b, rfl, rfl⟩ := hy
  exact holds_of_words hlow hhigh

/-- A quotient is no larger than what is divided, so it always fits. -/
theorem Holds.div (hx : x.Holds m) (hy : y.Holds n) (hm : 0 ≤ m) (hn : 0 < n) :
    (x / y).Holds (m / n) := by
  obtain ⟨a, hx, rfl⟩ := hx
  obtain ⟨b, hy, rfl⟩ := hy
  have hne : b ≠ 0 := by
    rintro rfl
    exact absurd hn (by decide)
  have hquotient : x / y = ofInt (a.toInt / b.toInt) := by
    rw [hx, hy, ← Int.tdiv_eq_ediv_of_nonneg hm]
    exact if_neg hne
  have hnonneg : 0 ≤ a.toInt / b.toInt := Int.ediv_nonneg hm hn.le
  have hle : a.toInt / b.toInt ≤ a.toInt := Int.ediv_le_self _ hm
  rw [hquotient]
  exact holds_ofInt (le_trans (by decide) hnonneg) (hle.trans BitVec.toInt_le)

end Wide

/-- The trip count, computed in words of 128 bits. -/
def tripCountWide? (op : BinaryOp) (start bound step : Int64) : Option (Option Int64) :=
  let a := Wide.ofWord start
  let b := Wide.ofWord bound
  let s := Wide.ofWord step
  let one := Wide.ofInt 1
  let up := 0 < step.toInt
  let down := step.toInt < 0
  let otherwise := if op.holds start.toInt bound.toInt then some none else (Wide.ofInt 0).word?
  match op with
  | .lt => if up ∧ start.toInt < bound.toInt then ((b - a + s - one) / s).word? else otherwise
  | .le => if up ∧ start.toInt ≤ bound.toInt then ((b - a) / s + one).word? else otherwise
  | .gt => if down ∧ bound.toInt < start.toInt then ((a - b - s - one) / -s).word? else otherwise
  | .ge => if down ∧ bound.toInt ≤ start.toInt then ((a - b) / -s + one).word? else otherwise
  | .ne =>
    if step.toInt = 1 ∧ start.toInt ≤ bound.toInt then (b - a).word?
    else if step.toInt = -1 ∧ bound.toInt ≤ start.toInt then (a - b).word?
    else otherwise
  | _ => otherwise

/-- No step of the computation fails, since a distance between words has 65 bits. -/
theorem tripCountWide?_eq (op : BinaryOp) (start bound step : Int64) :
    tripCountWide? op start bound step = some (tripCount? op start bound step) := by
  have hmin : Int64.minValue.toInt = -9223372036854775808 := by decide
  have hmax : Int64.maxValue.toInt = 9223372036854775807 := by decide
  have hstart := And.intro start.minValue_le_toInt start.toInt_le
  have hbound := And.intro bound.minValue_le_toInt bound.toInt_le
  have hstep := And.intro step.minValue_le_toInt step.toInt_le
  have ha := Wide.holds_ofWord start
  have hb := Wide.holds_ofWord bound
  have hs := Wide.holds_ofWord step
  have hone : (Wide.ofInt 1).Holds 1 := Wide.holds_of_words (by decide) (by decide)
  have hzero : (Wide.ofInt 0).Holds 0 := Wide.holds_of_words (by decide) (by decide)
  have hba := hb.sub ha (by omega) (by omega)
  have hab := ha.sub hb (by omega) (by omega)
  have hotherwise : (if op.holds start.toInt bound.toInt then some none else (Wide.ofInt 0).word?) =
      some (if op.holds start.toInt bound.toInt then none else Word.ofInt? 0) := by
    rw [hzero.word?_eq, apply_ite some]
  unfold tripCountWide? tripCount?
  cases op with
  | lt =>
    refine Wide.word?_rule (fun hup => ?_) hotherwise
    have hreach := (hba.add hs (by omega) (by omega)).sub hone (by omega) (by omega)
    exact hreach.div hs (by omega) hup.1
  | le =>
    refine Wide.word?_rule (fun hup => ?_) hotherwise
    have hle : (bound.toInt - start.toInt) / step.toInt ≤ _ := Int.ediv_le_self _ (by omega)
    have hnonneg : 0 ≤ (bound.toInt - start.toInt) / step.toInt :=
      Int.ediv_nonneg (by omega) hup.1.le
    exact (hba.div hs (by omega) hup.1).add hone (by omega) (by omega)
  | gt =>
    refine Wide.word?_rule (fun hdown => ?_) hotherwise
    have hneg := hs.neg (by omega) (by omega)
    have hreach := (hab.sub hs (by omega) (by omega)).sub hone (by omega) (by omega)
    exact hreach.div hneg (by omega) (by omega)
  | ge =>
    refine Wide.word?_rule (fun hdown => ?_) hotherwise
    have hneg := hs.neg (by omega) (by omega)
    have hle : (start.toInt - bound.toInt) / -step.toInt ≤ _ := Int.ediv_le_self _ (by omega)
    have hnonneg : 0 ≤ (start.toInt - bound.toInt) / -step.toInt :=
      Int.ediv_nonneg (by omega) (by omega)
    exact (hab.div hneg (by omega) (by omega)).add hone (by omega) (by omega)
  | ne =>
    refine Wide.word?_rule (fun _ => hba) ?_
    exact Wide.word?_rule (fun _ => hab) hotherwise
  | add | sub | mul | div | rem | eq | and | or => exact hotherwise

/-- A trip count that is given is exact: it is not negative, the condition holds over the integers
before each of the trips, and it fails after the last one. Words of 128 bits suffice to compute
it. -/
theorem tripCount?_exact (op : BinaryOp) (start bound step : Int64) :
    (∀ n : Int64, tripCount? op start bound step = some n →
      0 ≤ n.toInt ∧
      (∀ j : Int, 0 ≤ j → j < n.toInt →
        op.holds (start.toInt + j * step.toInt) bound.toInt = true) ∧
      op.holds (start.toInt + n.toInt * step.toInt) bound.toInt = false) ∧
    tripCountWide? op start bound step = some (tripCount? op start bound step) := by
  constructor
  · intro n hn
    have htrips := trips_of_tripCount? hn
    exact ⟨htrips.nonneg, htrips.passes, htrips.fails⟩
  · exact tripCountWide?_eq op start bound step

/-- From the largest word down to the smallest by three: the distance does not fit in 64 bits, the
count does. -/
theorem descending_tripCount :
    let trips : Int64 := 6148914691236517205
    tripCount? .gt Int64.maxValue Int64.minValue (-3) = some trips ∧
    BinaryOp.gt.holds (Int64.maxValue.toInt + (trips.toInt - 1) * (-3 : Int64).toInt)
      Int64.minValue.toInt = true ∧
    BinaryOp.gt.holds (Int64.maxValue.toInt + trips.toInt * (-3 : Int64).toInt)
      Int64.minValue.toInt = false ∧
    tripCountWide? .gt Int64.maxValue Int64.minValue (-3) =
      some (tripCount? .gt Int64.maxValue Int64.minValue (-3)) := by
  intro trips
  have hcount : tripCount? .gt Int64.maxValue Int64.minValue (-3) = some trips := by
    decide +kernel
  obtain ⟨hexact, hwide⟩ := tripCount?_exact .gt Int64.maxValue Int64.minValue (-3)
  obtain ⟨-, hpasses, hfails⟩ := hexact trips hcount
  exact ⟨hcount, hpasses _ (by decide) (by decide), hfails, hwide⟩

end IntervalFlow
