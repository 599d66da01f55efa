import IntervalFlow.Proofs.Interval.Lattice
import Mathlib.Data.Set.Card
import Mathlib.Order.Interval.Finset.Nat

/-!
# Intervals — chains of widening and narrowing

Widening gives an upper bound of both operands, and narrowing stays between them. An interval that
is widened again and again settles, whatever it is widened by, and so does one that is narrowed
again and again. Both follow from the `rank`, which counts the infinite ends: a change by widening
raises it, a change by narrowing lowers it, and it never exceeds three.
-/

namespace IntervalFlow.Interval

/-! ## Ranks -/

/-- How far an interval has been widened. -/
def rank : Interval → Nat
  | bottom => 0
  | bounded l u => 1 + (if l = .negInf then 1 else 0) + if u = .posInf then 1 else 0

theorem rank_le (a : Interval) : a.rank ≤ 3 := by
  cases a with
  | bottom => exact Nat.zero_le _
  | bounded l u =>
    simp only [rank]
    split <;> split <;> omega

theorem rank_pos {a : Interval} (h : a ≠ bottom) : 0 < a.rank := by
  cases a with
  | bottom => exact absurd rfl h
  | bounded l u =>
    simp only [rank]
    omega

theorem rank_lt_of_widen {a b : Interval} (h : a.widen b ≠ a) :
    a.rank < (a.widen b).rank := by
  cases a with
  | bottom =>
    cases b with
    | bottom => exact absurd rfl h
    | bounded l u =>
      simp only [widen, rank]
      omega
  | bounded l u =>
    cases b with
    | bottom => exact absurd rfl h
    | bounded l' u' =>
      -- a bound that moves was finite and is infinite afterwards
      have hlower (hlt : l' < l) : l ≠ .negInf := by
        rintro rfl
        exact hlt.not_ge (Bound.negInf_le _)
      have hupper (hlt : u < u') : u ≠ .posInf := by
        rintro rfl
        exact hlt.not_ge (Bound.le_posInf _)
      simp only [widen] at h ⊢
      by_cases hl : l' < l
      · by_cases hu : u < u'
        · simp [rank, hl, hu, hlower hl, hupper hu]
        · simp only [rank, if_pos hl, if_neg hu, if_neg (hlower hl), if_true]
          omega
      · by_cases hu : u < u'
        · simp only [rank, if_neg hl, if_pos hu, if_neg (hupper hu), if_true]
          omega
        · rw [if_neg hl, if_neg hu] at h
          exact absurd rfl h

/-- An end that narrowing moves was infinite on its side and is not so afterwards. -/
theorem narrowed_end (inf x y : Bound) :
    (if x = inf then y else x) = x ∨ x = inf ∧ (if x = inf then y else x) ≠ inf := by
  by_cases hx : x = inf
  · rw [if_pos hx]
    by_cases hy : y = inf
    · exact .inl (hy.trans hx.symm)
    · exact .inr ⟨hx, hy⟩
  · exact .inl (if_neg hx)

theorem rank_lt_of_narrow {a b : Interval} (h : a.narrow b ≠ a) :
    (a.narrow b).rank < a.rank := by
  cases a with
  | bottom => exact absurd rfl h
  | bounded l u =>
    cases b with
    | bottom => exact rank_pos (by simp)
    | bounded l' u' =>
      have hlower := narrowed_end .negInf l l'
      have hupper := narrowed_end .posInf u u'
      simp only [narrow] at h ⊢
      generalize (if l = .negInf then l' else l) = lower at h hlower ⊢
      generalize (if u = .posInf then u' else u) = upper at h hupper ⊢
      by_cases hlt : upper < lower
      · rw [if_pos hlt]
        exact rank_pos (by simp)
      · rw [if_neg hlt] at h ⊢
        rcases hlower with rfl | ⟨rfl, hlower⟩
        · rcases hupper with rfl | ⟨rfl, hupper⟩
          · exact absurd rfl h
          · simp [rank, hupper]
        · rcases hupper with rfl | ⟨rfl, hupper⟩
          · simp [rank, hlower]
          · simp [rank, hlower, hupper]

/-! ## Chains -/

/-- The values that `merge` gives one after the other, from `first` on, each step with its own
operand. -/
def chain (merge : Interval → Interval → Interval) (first : Interval) (operand : Nat → Interval) :
    Nat → Interval
  | 0 => first
  | i + 1 => merge (chain merge first operand i) (operand i)

/-- The steps at which a sequence changes its value. -/
def changes (a : Nat → Interval) : Set Nat := {i | a (i + 1) ≠ a i}

/-- A sequence that climbs with every change makes no more changes than there are steps up to the
highest value. -/
theorem encard_changes_le {a : Nat → Interval} (height : Interval → Nat) {highest : Nat}
    (hclimbs : ∀ i, a (i + 1) ≠ a i → height (a i) < height (a (i + 1)))
    (hhighest : ∀ i, height (a i) ≤ highest) :
    (changes a).encard ≤ (highest - height (a 0) : Nat) := by
  have hmono : Monotone fun i => height (a i) := by
    refine monotone_nat_of_le_succ fun i => ?_
    by_cases hchange : a (i + 1) = a i
    · rw [hchange]
    · exact (hclimbs i hchange).le
  have hmaps : Set.MapsTo (fun i => height (a i)) (changes a)
      (Finset.Ico (height (a 0)) highest : Finset Nat) := by
    intro i hi
    rw [Finset.coe_Ico, Set.mem_Ico]
    exact ⟨hmono (Nat.zero_le i), (hclimbs i hi).trans_le (hhighest (i + 1))⟩
  -- a later change starts at least where an earlier one ended
  have hlater (i j : Nat) (hi : i ∈ changes a) (hlt : i < j) : height (a i) < height (a j) :=
    (hclimbs i hi).trans_le (hmono hlt)
  have hinj : Set.InjOn (fun i => height (a i)) (changes a) := by
    intro i hi j hj heq
    rcases lt_trichotomy i j with hlt | rfl | hlt
    · exact absurd heq (hlater i j hi hlt).ne
    · rfl
    · exact absurd heq (hlater j i hj hlt).ne'
  calc (changes a).encard
      ≤ ((Finset.Ico (height (a 0)) highest : Finset Nat) : Set Nat).encard :=
        Set.encard_le_encard_of_injOn hmaps hinj
    _ = (highest - height (a 0) : Nat) := by rw [Set.encard_coe_eq_coe_finsetCard, Nat.card_Ico]

theorem encard_changes_widen (first : Interval) (operand : Nat → Interval) :
    (changes (chain widen first operand)).encard ≤ (3 - first.rank : Nat) :=
  encard_changes_le rank (fun _ hchange => rank_lt_of_widen hchange) fun _ => rank_le _

theorem encard_changes_narrow (first : Interval) (operand : Nat → Interval) :
    (changes (chain narrow first operand)).encard ≤ first.rank := by
  -- what is missing to the highest rank grows
  have hclimbs (i : Nat)
      (hchange : chain narrow first operand (i + 1) ≠ chain narrow first operand i) :
      3 - (chain narrow first operand i).rank < 3 - (chain narrow first operand (i + 1)).rank := by
    have hfalls : (chain narrow first operand (i + 1)).rank < (chain narrow first operand i).rank :=
      rank_lt_of_narrow hchange
    have hle := (chain narrow first operand i).rank_le
    omega
  calc (changes (chain narrow first operand)).encard
      ≤ (3 - (3 - first.rank) : Nat) :=
        encard_changes_le (fun v => 3 - v.rank) hclimbs fun _ => Nat.sub_le _ _
    _ = first.rank := by rw [Nat.sub_sub_self first.rank_le]

/-! ## Widening -/

/-- Widening gives a well-formed upper bound of two well-formed intervals. A sequence of intervals,
each widened by any interval to give the next, changes its value at most three times, and at most
twice if it does not start with `bottom`. -/
theorem widen_stabilizes :
    (∀ p c : Interval, p.WellFormed → c.WellFormed →
      p.isWithin (p.widen c) = true ∧ c.isWithin (p.widen c) = true ∧ (p.widen c).WellFormed) ∧
    ∀ (first : Interval) (operand : Nat → Interval),
      (changes (chain widen first operand)).encard ≤ 3 ∧
        (first ≠ bottom → (changes (chain widen first operand)).encard ≤ 2) := by
  constructor
  · intro p c hp hc
    exact ⟨isWithin_widen_left hp hc, isWithin_widen_right hp hc, wellFormed_widen hp hc⟩
  · intro first operand
    have hbound := encard_changes_widen first operand
    constructor
    · exact hbound.trans (Nat.cast_le.mpr (Nat.sub_le 3 first.rank))
    · intro hfirst
      have hpos := rank_pos hfirst
      exact hbound.trans (Nat.cast_le.mpr (show 3 - first.rank ≤ 2 by omega))

/-- One interval, then one that reaches further down, then one that reaches further up. -/
def reaching (i : Nat) : Interval := [constant 0, range (-1) 0, range 0 1].getD i bottom

/-- `[0, 5]` widened by `[-1, 3]`, and chains that make as many changes as they may. -/
theorem reaching_widen :
    (range (-1) 3).isWithin ((range 0 5).widen (range (-1) 3)) = true ∧
    (∀ i < 3, chain widen bottom reaching (i + 1) ≠ chain widen bottom reaching i) ∧
    (changes (chain widen bottom reaching)).encard ≤ 3 ∧
    chain widen (constant 0) reaching 2 ≠ chain widen (constant 0) reaching 1 ∧
    chain widen (constant 0) reaching 3 ≠ chain widen (constant 0) reaching 2 ∧
    (changes (chain widen (constant 0) reaching)).encard ≤ 2 := by
  obtain ⟨hbounds, hchains⟩ := widen_stabilizes
  obtain ⟨-, habove, -⟩ := hbounds (range 0 5) (range (-1) 3) (by decide) (by decide)
  exact ⟨habove, by decide, (hchains bottom reaching).1, by decide, by decide,
    (hchains (constant 0) reaching).2 (by decide)⟩

/-! ## Narrowing -/

/-- Narrowing a well-formed interval by a well-formed part of it stays between the two. A sequence
of intervals, each narrowed by any interval to give the next, changes its value at most three
times. -/
theorem narrow_stabilizes :
    (∀ p c : Interval, p.WellFormed → c.WellFormed → c.isWithin p = true →
      c.isWithin (p.narrow c) = true ∧ (p.narrow c).isWithin p = true) ∧
    ∀ (first : Interval) (operand : Nat → Interval),
      (changes (chain narrow first operand)).encard ≤ 3 := by
  constructor
  · intro p c hp _ hwithin
    exact ⟨isWithin_narrow hwithin, narrow_isWithin hp hwithin⟩
  · intro first operand
    exact (encard_changes_narrow first operand).trans (Nat.cast_le.mpr first.rank_le)

/-- One interval with an upper end, then one with a lower end, then none. -/
def closing (i : Nat) : Interval := [atMost 4, atLeast 0].getD i bottom

/-- `[0, +inf]` narrowed by `[2, 7]`, and a chain that makes as many changes as it may. -/
theorem closing_narrow :
    (range 2 7).isWithin ((atLeast 0).narrow (range 2 7)) = true ∧
    ((atLeast 0).narrow (range 2 7)).isWithin (atLeast 0) = true ∧
    (∀ i < 3, chain narrow top closing (i + 1) ≠ chain narrow top closing i) ∧
    (changes (chain narrow top closing)).encard ≤ 3 := by
  obtain ⟨hbounds, hchains⟩ := narrow_stabilizes
  obtain ⟨habove, hbelow⟩ :=
    hbounds (atLeast 0) (range 2 7) (by decide) (by decide) (by decide)
  exact ⟨habove, hbelow, by decide, hchains top closing⟩

end IntervalFlow.Interval
