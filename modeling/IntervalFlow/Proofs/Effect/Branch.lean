import IntervalFlow.Proofs.Effect.Expression
import IntervalFlow.Proofs.Interval.Monotone
import IntervalFlow.Proofs.Interval.Order

/-!
# Exact branches

What flows along an outcome of a comparison with a literal are the values for which the comparison
has that outcome, and no others (`integer_branch`). The one exception is a literal that may not be
equal to the variable: it can be dropped at the ends of an interval only, and not where the word
next to it does not exist.
-/

namespace IntervalFlow

/-! ## Words at the ends -/

namespace Word

theorem add?_one_eq_none {k : Int64} : add? k 1 = none ↔ k = Int64.maxValue := by
  have hone : (1 : Int64).toInt = 1 := rfl
  have hlow := k.minValue_le_toInt
  have hhigh := k.toInt_le
  rw [add?, ofInt?_eq_none_iff, ← Int64.toInt_inj, hone]
  omega

theorem sub?_one_eq_none {k : Int64} : sub? k 1 = none ↔ k = Int64.minValue := by
  have hone : (1 : Int64).toInt = 1 := rfl
  have hlow := k.minValue_le_toInt
  have hhigh := k.toInt_le
  rw [sub?, ofInt?_eq_none_iff, ← Int64.toInt_inj, hone]
  omega

end Word

theorem Bound.eq_posInf_of_maxValue_lt {b : Bound} (h : fin Int64.maxValue < b) : b = posInf := by
  cases b with
  | negInf => exact absurd (negInf_le _) h.not_ge
  | posInf => rfl
  | fin v => exact absurd (fin_lt_fin.mp h) v.toInt_le.not_gt

theorem Bound.eq_negInf_of_lt_minValue {b : Bound} (h : b < fin Int64.minValue) : b = negInf := by
  cases b with
  | negInf => rfl
  | posInf => exact absurd (le_posInf _) h.not_ge
  | fin v => exact absurd (fin_lt_fin.mp h) v.minValue_le_toInt.not_gt

/-! ## Dropping a value -/

namespace Interval

variable {v k : Int64} {a : Interval}

theorem mem_atMost : v ∈ atMost k ↔ v.toInt ≤ k.toInt := by
  rw [atMost, mem_bounded, Bound.fin_le_fin, and_iff_right (Bound.negInf_le _)]

theorem mem_atLeast : v ∈ atLeast k ↔ k.toInt ≤ v.toInt := by
  rw [atLeast, mem_bounded, Bound.fin_le_fin, and_iff_left (Bound.le_posInf _)]

/-- Dropping an end of an interval loses no other value. -/
theorem mem_exclude (hv : v ∈ a) (hk : v ≠ k) : v ∈ a.exclude k := by
  have hne : Bound.fin v ≠ .fin k := fun heq => hk (Bound.fin.inj heq)
  cases a with
  | bottom => exact absurd hv (not_mem_bottom v)
  | bounded l u =>
    rw [exclude]
    by_cases hl : l = .fin k
    · subst hl
      have hlt : Bound.fin k < .fin v := lt_of_le_of_ne hv.1 (Ne.symm hne)
      rw [if_pos rfl]
      by_cases hu : u = .fin k
      · subst hu
        exact absurd hv.2 hlt.not_ge
      · rw [if_neg hu]
        cases hnext : Word.add? k 1 with
        | none => exact hv
        | some next => exact ⟨Bound.fin_succ_le hlt hnext, hv.2⟩
    · rw [if_neg hl]
      by_cases hu : u = .fin k
      · subst hu
        have hlt : Bound.fin v < .fin k := lt_of_le_of_ne hv.2 hne
        rw [if_pos rfl]
        cases hnext : Word.sub? k 1 with
        | none => exact hv
        | some next => exact ⟨hv.1, Bound.le_fin_pred hlt hnext⟩
      · rw [if_neg hu]
        exact hv

/-- The value lies between the ends of the interval and is neither of them. -/
def Inside (k : Int64) : Interval → Prop
  | bottom => False
  | bounded lower upper => lower < .fin k ∧ .fin k < upper

instance (k : Int64) (a : Interval) : Decidable (a.Inside k) :=
  match a with
  | bottom => .isFalse id
  | bounded lower upper => inferInstanceAs (Decidable (lower < .fin k ∧ .fin k < upper))

/-- A value is dropped unless it lies between the ends, or is the only word of an interval that is
open on the other side. -/
theorem mem_exclude_self (h : a.WellFormed) : k ∈ a.exclude k ↔
    a.Inside k ∨ k = Int64.maxValue ∧ a = atLeast Int64.maxValue ∨
      k = Int64.minValue ∧ a = atMost Int64.minValue := by
  cases a with
  | bottom => simp [exclude, Inside, atLeast, atMost]
  | bounded l u =>
    by_cases hl : l = .fin k
    · subst hl
      by_cases hu : u = .fin k
      · simp [exclude, Inside, atLeast, atMost, hu]
      have hlt : Bound.fin k < u := lt_of_le_of_ne h (Ne.symm hu)
      cases hnext : Word.add? k 1 with
      | none =>
        obtain rfl := Word.add?_one_eq_none.mp hnext
        obtain rfl := Bound.eq_posInf_of_maxValue_lt hlt
        simp [exclude, hnext, atLeast]
      | some next =>
        have hk : k ≠ Int64.maxValue := by
          intro hmax
          rw [Word.add?_one_eq_none.mpr hmax] at hnext
          cases hnext
        simp [exclude, Inside, atMost, hu, hnext, hk, Bound.fin_lt_succ hnext]
    · by_cases hu : u = .fin k
      · subst hu
        have hlt : l < .fin k := lt_of_le_of_ne h hl
        cases hprev : Word.sub? k 1 with
        | none =>
          obtain rfl := Word.sub?_one_eq_none.mp hprev
          obtain rfl := Bound.eq_negInf_of_lt_minValue hlt
          simp [exclude, hprev, atMost]
        | some prev =>
          have hk : k ≠ Int64.minValue := by
            intro hmin
            rw [Word.sub?_one_eq_none.mpr hmin] at hprev
            cases hprev
          simp [exclude, Inside, atLeast, hl, hprev, hk, Bound.fin_pred_lt hprev]
      · have hsame : (bounded l u).exclude k = bounded l u := by simp [exclude, hl, hu]
        rw [hsame, mem_bounded]
        constructor
        · rintro ⟨hlower, hupper⟩
          exact .inl ⟨lt_of_le_of_ne hlower hl, lt_of_le_of_ne hupper (Ne.symm hu)⟩
        · rintro (⟨hlower, hupper⟩ | ⟨rfl, heq⟩ | ⟨rfl, heq⟩)
          · exact ⟨hlower.le, hupper.le⟩
          · cases heq
            exact absurd rfl hl
          · cases heq
            exact absurd rfl hu

end Interval

namespace BinaryOp

theorem value?_of_isComparison {op : BinaryOp} (hop : op.isComparison = true) {a b w : Int64}
    (h : op.value? a b = some w) : w ≠ 0 ↔ op.holds a.toInt b.toInt = true := by
  rw [value?, result?_of_isComparison hop, Option.bind_some, Word.ofInt?_eq_some_iff] at h
  rw [ne_eq, ← Word.toInt_eq_zero_iff, h]
  cases op.holds a.toInt b.toInt <;> decide

theorem holds_flip {op flipped : BinaryOp} (h : op.flip? = some flipped) (a b : Int) :
    flipped.holds b a = op.holds a b := by
  cases op <;> cases h <;> simp [holds, eq_comm]

theorem isComparison_of_flip {op flipped : BinaryOp} (h : op.flip? = some flipped) :
    op.isComparison = true := by
  cases op <;> cases h <;> rfl

theorem isComparison_of_negate {op negated : BinaryOp} (h : op.negate? = some negated) :
    negated.isComparison = true := by
  cases op <;> cases h <;> rfl

theorem exists_flip {op : BinaryOp} (hop : op.isComparison = true) :
    ∃ flipped, op.flip? = some flipped ∧ flipped.isComparison = true := by
  cases op <;> first | exact ⟨_, rfl, rfl⟩ | cases hop

theorem holds_negate {op negated : BinaryOp} (h : op.negate? = some negated) (a b : Int) :
    negated.holds a b = !op.holds a b := by
  cases op <;> cases h <;> simp only [holds, ← decide_not, not_lt, not_le, not_not, ne_eq]

end BinaryOp

namespace Constraint

/-- Whether a value meets a constraint. -/
def Admits : Constraint → Int64 → Prop
  | unconstrained, _ => True
  | unsatisfiable, _ => False
  | within range, v => v ∈ range
  | different k, v => v ≠ k

theorem mem_apply {c : Constraint} {current : Interval} {v : Int64} (hv : v ∈ current)
    (h : c.Admits v) : v ∈ c.apply current := by
  cases c with
  | unconstrained => exact hv
  | unsatisfiable => exact h.elim
  | within range => exact Interval.mem_restrict hv h
  | different k => exact Interval.mem_exclude hv h

/-- A comparison constrains its first operand to the values for which it holds. -/
theorem ofComparison_admits_iff {op : BinaryOp} (hop : op.isComparison = true) {v k : Int64} :
    (ofComparison op k).Admits v ↔ op.holds v.toInt k.toInt = true := by
  have hone : (1 : Int64).toInt = 1 := rfl
  cases op with
  | lt =>
    rw [ofComparison, BinaryOp.holds, decide_eq_true_eq]
    cases hpred : Word.sub? k 1 with
    | none =>
      rw [Word.sub?_one_eq_none.mp hpred]
      exact iff_of_false id (not_lt.mpr v.minValue_le_toInt)
    | some pred =>
      have hpred := Word.ofInt?_eq_some_iff.mp hpred
      rw [Option.map_some, Option.getD_some, Admits, Interval.mem_atMost]
      omega
  | gt =>
    rw [ofComparison, BinaryOp.holds, decide_eq_true_eq]
    cases hnext : Word.add? k 1 with
    | none =>
      rw [Word.add?_one_eq_none.mp hnext]
      exact iff_of_false id (not_lt.mpr v.toInt_le)
    | some next =>
      have hnext := Word.ofInt?_eq_some_iff.mp hnext
      rw [Option.map_some, Option.getD_some, Admits, Interval.mem_atLeast]
      omega
  | le => rw [ofComparison, BinaryOp.holds, decide_eq_true_eq, Admits, Interval.mem_atMost]
  | ge => rw [ofComparison, BinaryOp.holds, decide_eq_true_eq, Admits, Interval.mem_atLeast]
  | eq =>
    rw [ofComparison, BinaryOp.holds, decide_eq_true_eq, Admits, Interval.mem_constant_iff,
      Int64.toInt_inj]
  | ne =>
    rw [ofComparison, BinaryOp.holds, decide_eq_true_eq, Admits, ne_eq, ne_eq, Int64.toInt_inj]
  | add | sub | mul | div | rem | and | or => cases hop

variable {op : BinaryOp} {k v : Int64} {current : Interval}

theorem apply_ofComparison_isWithin (h : current.WellFormed) :
    ((ofComparison op k).apply current).isWithin current = true := by
  cases hc : ofComparison op k with
  | unconstrained => exact Interval.isWithin_refl h
  | unsatisfiable => exact Interval.bottom_isWithin _
  | within range => exact Interval.restrict_isWithin_left h (wellFormed_ofComparison hc)
  | different k' => exact Interval.exclude_isWithin_self h k'

theorem eq_ne_of_different {k' : Int64} (h : ofComparison op k = different k') : op = .ne := by
  cases op with
  | lt => cases hpred : Word.sub? k 1 <;> simp [ofComparison, hpred] at h
  | gt => cases hnext : Word.add? k 1 <;> simp [ofComparison, hnext] at h
  | ne => rfl
  | _ => cases h

/-- Only a value that is to be different may stay although the constraint does not admit it. -/
theorem admits_of_mem_apply (h : current.WellFormed) (hop : op ≠ .ne)
    (hv : v ∈ (ofComparison op k).apply current) : (ofComparison op k).Admits v := by
  cases hc : ofComparison op k with
  | unconstrained => trivial
  | unsatisfiable =>
    rw [hc] at hv
    exact absurd hv (Interval.not_mem_bottom v)
  | within range =>
    rw [hc] at hv
    exact ((Interval.mem_restrict_iff h (wellFormed_ofComparison hc)).mp hv).2
  | different k' => exact absurd (eq_ne_of_different hc) hop

end Constraint

/-! ## Comparisons with literals -/

/-- A comparison `x op literal` of the tracked variable, or `literal op x` if it is `reversed`. -/
structure Comparison where
  op : BinaryOp
  literal : Int64
  reversed : Bool

namespace Comparison

/-- The outcome of the comparison, where the variable is the integer `v`. -/
def outcome (c : Comparison) (v : Int) : Bool :=
  if c.reversed then c.op.holds c.literal.toInt v else c.op.holds v c.literal.toInt

/-- The outcome of the comparison, where the variable holds `v`. -/
def holds (c : Comparison) (v : Int64) : Bool := c.outcome v.toInt

/-- The comparison with the variable as its first operand. -/
def normal? (c : Comparison) : Option BinaryOp := if c.reversed then c.op.flip? else some c.op

/-- The comparison of the variable with the literal that holds exactly on the given outcome. -/
def effective? (c : Comparison) (taken : Bool) : Option BinaryOp :=
  c.normal?.bind fun op => if taken then some op else op.negate?

theorem outcome_eq {c : Comparison} {op : BinaryOp} (h : c.normal? = some op) (v : Int) :
    c.outcome v = op.holds v c.literal.toInt := by
  obtain ⟨op', k, reversed⟩ := c
  cases reversed with
  | false =>
    cases h
    rfl
  | true => exact (BinaryOp.holds_flip h _ _).symm

end Comparison

namespace Graph

variable {g : Graph} {name : String} {e : NodeId} {k : Int64}

theorem literal?_eq_some_iff : g.literal? e = some k ↔ g.kind? e = some (.literal (some k)) := by
  unfold literal?
  split
  · rename_i value hkind
    simp [hkind]
  · rename_i hother
    refine ⟨fun h => ?_, fun h => absurd h (hother _)⟩
    cases h

/-- The expression is the comparison, with the variable called `name`. -/
inductive Compares (g : Graph) (name : String) (e : NodeId) : Comparison → Prop
  | variableFirst {op lhs rhs type declaration k} : g.kind? e = some (.binary op lhs rhs) →
      g.kind? lhs = some (.reference name type declaration) →
      g.kind? rhs = some (.literal (some k)) → Compares g name e ⟨op, k, false⟩
  | literalFirst {op lhs rhs type declaration k} : g.kind? e = some (.binary op lhs rhs) →
      g.kind? lhs = some (.literal (some k)) →
      g.kind? rhs = some (.reference name type declaration) → Compares g name e ⟨op, k, true⟩

theorem Compares.unique {c c' : Comparison} (h : g.Compares name e c) (h' : g.Compares name e c') :
    c = c' := by
  cases h with
  | variableFirst hkind hlhs hrhs =>
    cases h' with
    | variableFirst hkind' hlhs' hrhs' =>
      cases hkind.symm.trans hkind'
      cases hrhs.symm.trans hrhs'
      rfl
    | literalFirst hkind' hlhs' hrhs' =>
      cases hkind.symm.trans hkind'
      cases hlhs.symm.trans hlhs'
  | literalFirst hkind hlhs hrhs =>
    cases h' with
    | variableFirst hkind' hlhs' hrhs' =>
      cases hkind.symm.trans hkind'
      cases hlhs.symm.trans hlhs'
    | literalFirst hkind' hlhs' hrhs' =>
      cases hkind.symm.trans hkind'
      cases hlhs.symm.trans hlhs'
      rfl

/-- A comparison is recognised with the variable in front. -/
theorem comparisonWith?_eq_some_iff {op : BinaryOp} : g.comparisonWith? name e = some (op, k) ↔
    ∃ c : Comparison, g.Compares name e c ∧ c.normal? = some op ∧ c.literal = k := by
  constructor
  · intro h
    unfold comparisonWith? at h
    split at h
    · rename_i op' lhs rhs hkind
      split at h
      · rename_i hlhs
        obtain ⟨type, declaration, hlhs⟩ := refersTo_iff.mp hlhs
        obtain ⟨k', hk, hpair⟩ := Option.map_eq_some_iff.mp h
        cases hpair
        exact ⟨_, .variableFirst hkind hlhs (literal?_eq_some_iff.mp hk), rfl, rfl⟩
      · split at h
        · rename_i hrhs
          obtain ⟨type, declaration, hrhs⟩ := refersTo_iff.mp hrhs
          split at h
          · rename_i flipped k' hflip hk
            cases h
            exact ⟨_, .literalFirst hkind (literal?_eq_some_iff.mp hk) hrhs, hflip, rfl⟩
          · cases h
        · cases h
    · cases h
  · rintro ⟨c, hcompares, hnormal, rfl⟩
    cases hcompares with
    | variableFirst hkind hlhs hrhs =>
      cases hnormal
      simp [comparisonWith?, refersTo, literal?, hkind, hlhs, hrhs]
    | literalFirst hkind hlhs hrhs =>
      have hflip : BinaryOp.flip? _ = some op := hnormal
      simp [comparisonWith?, refersTo, literal?, hkind, hlhs, hrhs, hflip]

end Graph

/-- The condition of the branching node is the comparison. -/
def Context.BranchesOn (ctx : Context) (branching : NodeId) (c : Comparison) : Prop :=
  ∃ condition lhs rhs, ctx.graph.condition? branching = some condition ∧
    ctx.graph.kind? condition = some (.binary c.op lhs rhs) ∧ c.op.isComparison = true ∧
    if c.reversed then ctx.graph.literal? lhs = some c.literal ∧ ctx.isTarget rhs = true
    else ctx.isTarget lhs = true ∧ ctx.graph.literal? rhs = some c.literal

namespace Context.BranchesOn

variable {ctx : Context} {branching : NodeId} {c : Comparison}

/-- The comparison is recognised with the variable in front. -/
theorem comparisonWith? (h : ctx.BranchesOn branching c) :
    ∃ condition op, ctx.graph.condition? branching = some condition ∧
      ctx.graph.comparisonWith? ctx.name condition = some (op, c.literal) ∧
      c.normal? = some op ∧ op.isComparison = true ∧
      ∀ v : Int64, op.holds v.toInt c.literal.toInt = c.holds v := by
  obtain ⟨condition, lhs, rhs, hcondition, hkind, hop, hoperands⟩ := h
  have hcompares : ctx.graph.Compares ctx.name condition c := by
    obtain ⟨op, k, reversed⟩ := c
    cases reversed with
    | false =>
      obtain ⟨type, declaration, hlhs⟩ := Graph.refersTo_iff.mp hoperands.1
      exact .variableFirst hkind hlhs (Graph.literal?_eq_some_iff.mp hoperands.2)
    | true =>
      obtain ⟨type, declaration, hrhs⟩ := Graph.refersTo_iff.mp hoperands.2
      exact .literalFirst hkind (Graph.literal?_eq_some_iff.mp hoperands.1) hrhs
  obtain ⟨op, hnormal, hcomparison⟩ : ∃ op, c.normal? = some op ∧ op.isComparison = true := by
    unfold Comparison.normal?
    split
    · exact BinaryOp.exists_flip hop
    · exact ⟨c.op, rfl, hop⟩
  refine ⟨condition, op, hcondition, ?_, hnormal, hcomparison, fun v => ?_⟩
  · exact Graph.comparisonWith?_eq_some_iff.mpr ⟨c, hcompares, hnormal, rfl⟩
  · exact (Comparison.outcome_eq hnormal v.toInt).symm

/-- An outcome constrains the variable by the effective comparison, which holds of the values with
that outcome. -/
theorem branchConstraint (h : ctx.BranchesOn branching c) (taken : Bool) :
    ∃ op, c.effective? taken = some op ∧ op.isComparison = true ∧
      ctx.branchConstraint branching taken = .ofComparison op c.literal ∧
      ∀ v : Int64, op.holds v.toInt c.literal.toInt = true ↔ c.holds v = taken := by
  obtain ⟨condition, op, hcondition, hcomparison, hnormal, hop, hholds⟩ := h.comparisonWith?
  cases taken with
  | true =>
    refine ⟨op, ?_, hop, ?_, fun v => by rw [hholds]⟩
    · simp [Comparison.effective?, hnormal]
    · simp [Context.branchConstraint, hcondition, constraint, hcomparison]
  | false =>
    obtain ⟨negated, hnegate⟩ := Option.isSome_iff_exists.mp hop
    refine ⟨negated, ?_, BinaryOp.isComparison_of_negate hnegate, ?_, fun v => ?_⟩
    · simp [Comparison.effective?, hnormal, hnegate]
    · simp [Context.branchConstraint, hcondition, constraint, hcomparison, hnegate]
    · rw [BinaryOp.holds_negate hnegate, hholds, Bool.not_eq_true']

/-- Along an outcome of a comparison with a literal flow all values of the interval with that
outcome, and nothing from outside the interval. Unless the variable has to differ from the literal,
no other values do; and if it has to, the literal flows on only from between the ends of the
interval, or as the only word of an interval that is open on the other side. -/
theorem integer_branch (h : ctx.BranchesOn branching c) {current : Interval}
    (hcurrent : current.WellFormed) (taken : Bool) :
    (∀ v ∈ current, c.holds v = taken → v ∈ Measure.integer.branch ctx current branching taken) ∧
    (Measure.integer.branch ctx current branching taken).isWithin current = true ∧
    (c.effective? taken ≠ some .ne →
      ∀ v ∈ Measure.integer.branch ctx current branching taken, c.holds v = taken) ∧
    (c.effective? taken = some .ne →
      (c.literal ∈ Measure.integer.branch ctx current branching taken ↔
        current.Inside c.literal ∨
        c.literal = Int64.maxValue ∧ current = .atLeast Int64.maxValue ∨
        c.literal = Int64.minValue ∧ current = .atMost Int64.minValue)) := by
  obtain ⟨op, heffective, hop, hconstraint, hholds⟩ := h.branchConstraint taken
  rw [Measure.branch, hconstraint, heffective]
  refine ⟨?_, Constraint.apply_ofComparison_isWithin hcurrent, ?_, ?_⟩
  · intro v hv houtcome
    exact Constraint.mem_apply hv
      ((Constraint.ofComparison_admits_iff hop).mpr ((hholds v).mpr houtcome))
  · intro hne v hv
    have hadmits := Constraint.admits_of_mem_apply hcurrent (fun heq => hne (congrArg some heq)) hv
    exact (hholds v).mp ((Constraint.ofComparison_admits_iff hop).mp hadmits)
  · intro hne
    cases hne
    exact Interval.mem_exclude_self hcurrent

end Context.BranchesOn

/-! ### A comparison with the largest word

`if (9223372036854775807 == x)` -/

def largest : Context where
  graph := {
    kinds := #[.literal (some Int64.maxValue), .reference "x" "int" none, .binary .eq 0 1,
      .branch 2]
    edges := []
    faultless := by decide +kernel }
  name := "x"
  general := .empty
  declarations := .empty

/-- The largest word takes the first branch. It does not take the second one from `[5, 2^63 - 1]`,
but there is no word above it to which `[2^63 - 1, +inf]` could be cut. -/
theorem largest_branch :
    (∀ v : Int64, v ∈ Measure.integer.branch largest (.atLeast 5) 3 true ↔ v = Int64.maxValue) ∧
    Int64.maxValue ∉ Measure.integer.branch largest (.range 5 Int64.maxValue) 3 false ∧
    Int64.maxValue ∈ Measure.integer.branch largest (.atLeast Int64.maxValue) 3 false := by
  have hbranches : largest.BranchesOn 3 ⟨.eq, Int64.maxValue, true⟩ :=
    ⟨2, 0, 1, rfl, rfl, rfl, rfl, by decide +kernel⟩
  refine ⟨fun v => ⟨fun hv => ?_, ?_⟩, ?_, ?_⟩
  · have hholds := (hbranches.integer_branch (by decide) true).2.2.1 (by decide) v hv
    exact Int64.toInt_inj.mp (of_decide_eq_true hholds).symm
  · rintro rfl
    exact (hbranches.integer_branch (by decide) true).1 _ (by decide) (by decide)
  · rw [(hbranches.integer_branch (by decide) false).2.2.2 (by decide)]
    decide
  · rw [(hbranches.integer_branch (by decide) false).2.2.2 (by decide)]
    exact .inr (.inl ⟨rfl, rfl⟩)

end IntervalFlow
