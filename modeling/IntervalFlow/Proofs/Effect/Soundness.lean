import IntervalFlow.Proofs.Effect.Branch
import IntervalFlow.Proofs.Effect.Expression

/-!
# Sound effects

Whatever an expression evaluates to, a write leaves or a branch lets through is a member of the
interval that the analysis computes for it, when the variables are members of the intervals it
starts from (`Agrees`).
-/

namespace IntervalFlow

/-! ## Names -/

/-- Every reference is resolved and carries the name of its declaration, and no two declarations
share a name. -/
structure Graph.WellNamed (g : Graph) : Prop where
  resolved : ∀ e name type declaration, g.kind? e = some (.reference name type declaration) →
    ∃ d type' initializer, declaration = some d ∧
      g.kind? d = some (.declaration name type' initializer)
  unique : ∀ a b name type type' initializer initializer',
    g.kind? a = some (.declaration name type initializer) →
    g.kind? b = some (.declaration name type' initializer') → a = b

theorem Graph.referent?_eq_some {g : Graph} {e d : NodeId} (h : g.referent? e = some d) :
    ∃ name type, g.kind? e = some (.reference name type (some d)) := by
  unfold referent? at h
  split at h
  · rename_i name type declaration hkind
    cases h
    exact ⟨name, type, hkind⟩
  · cases h

/-- A memory agrees with a context if the tracked variable, declared at `d₀`, is a member of
`current`, and every other variable one of its lifetime. -/
structure Agrees (ctx : Context) (d₀ : NodeId) (current : Interval) (m : Memory) : Prop where
  declared : ∃ type initializer, ctx.graph.kind? d₀ = some (.declaration ctx.name type initializer)
  tracked : ∀ v, m d₀ = some v → v ∈ current
  others : ∀ d v lifetime, m d = some v → ctx.declarations.get? d = some lifetime → v ∈ lifetime

namespace Agrees

variable {ctx : Context} {d₀ : NodeId} {current : Interval} {m : Memory}

/-- The declaration called like the tracked variable is that of the tracked variable. -/
theorem eq_of_name (h : Agrees ctx d₀ current m) (hg : ctx.graph.WellNamed) {d : NodeId}
    {type : String} {initializer : Option NodeId}
    (hd : ctx.graph.kind? d = some (.declaration ctx.name type initializer)) : d = d₀ := by
  obtain ⟨type', initializer', hd₀⟩ := h.declared
  exact hg.unique _ _ _ _ _ _ _ hd hd₀

theorem isTarget_iff (h : Agrees ctx d₀ current m) (hg : ctx.graph.WellNamed) {e : NodeId} :
    ctx.isTarget e = true ↔ ctx.graph.referent? e = some d₀ := by
  constructor
  · intro htarget
    obtain ⟨type, declaration, hkind⟩ := Context.isTarget_iff.mp htarget
    obtain ⟨d, type', initializer, rfl, hd⟩ := hg.resolved _ _ _ _ hkind
    rw [Graph.referent?, hkind, h.eq_of_name hg hd]
  · intro hvariable
    obtain ⟨name, type, hkind⟩ := Graph.referent?_eq_some hvariable
    obtain ⟨d, type', initializer, hsome, hd⟩ := hg.resolved _ _ _ _ hkind
    obtain ⟨type'', initializer', hd₀⟩ := h.declared
    cases hsome
    rw [hd₀] at hd
    cases hd
    exact Context.isTarget_iff.mpr ⟨type, some d₀, hkind⟩

/-! ## Expressions -/

/-- An expression that is not understood is not looked into: where references are resolved, no step
of a variable without a declaration is one of the tracked variable. -/
theorem isUninterpreted (h : Agrees ctx d₀ current m) (hg : ctx.graph.WellNamed) {e : NodeId}
    (huninterpreted : ctx.graph.isOpaque e = true) : ctx.isUninterpreted e = true := by
  have htarget {input : NodeId} (hnone : (ctx.graph.referent? input).isNone = true) :
      ctx.isTarget input = false := by
    rw [Bool.eq_false_iff, ne_eq, h.isTarget_iff hg, Option.isNone_iff_eq_none.mp hnone]
    simp
  unfold Graph.isOpaque at huninterpreted
  unfold Context.isUninterpreted
  cases hkind : ctx.graph.kind? e with
  | none => simp [hkind] at huninterpreted
  | some kind =>
    rw [hkind] at huninterpreted
    cases kind with
    | reference name type declaration => cases huninterpreted
    | unary op input =>
      obtain ⟨hstep, hnone⟩ := Bool.and_eq_true_iff.mp huninterpreted
      simp [hstep, htarget hnone]
    | literal value =>
      cases value with
      | none => rfl
      | some v => cases huninterpreted
    | _ => exact huninterpreted

/-- The names of references tell the variables apart as their declarations do. -/
theorem denotes (h : Agrees ctx d₀ current m) (hg : ctx.graph.WellNamed) {e : NodeId} {v : Int64}
    (hv : Evaluates ctx.graph m e v) : ctx.Denotes (m d₀) m e v := by
  -- a step of another variable is not looked into
  have hstep {e input : NodeId} {op : UnaryOp} {w : Int64}
      (hkind : ctx.graph.kind? e = some (.unary op input)) (hop : op.isStep = true)
      (htarget : ¬ ctx.isTarget input = true) : ctx.Denotes (m d₀) m e w :=
    .anything (by simp [Context.isUninterpreted, hkind, hop, htarget])
  induction hv with
  | literal hkind => exact .literal hkind
  | read hvariable hm =>
    obtain ⟨name, type, hkind⟩ := Graph.referent?_eq_some hvariable
    by_cases hname : name = ctx.name
    · subst hname
      have htarget := Context.isTarget_iff.mpr ⟨type, _, hkind⟩
      cases hvariable.symm.trans ((h.isTarget_iff hg).mp htarget)
      exact .target htarget hm
    · exact .other hkind hname hm
  | @increment e input d v w hkind hvariable hm hw =>
    by_cases htarget : ctx.isTarget input = true
    · cases hvariable.symm.trans ((h.isTarget_iff hg).mp htarget)
      exact .increment hkind htarget hm hw
    · exact hstep hkind rfl htarget
  | @decrement e input d v w hkind hvariable hm hw =>
    by_cases htarget : ctx.isTarget input = true
    · cases hvariable.symm.trans ((h.isTarget_iff hg).mp htarget)
      exact .decrement hkind htarget hm hw
    · exact hstep hkind rfl htarget
  | negate hkind _ hw ih => exact .negate hkind ih hw
  | plus hkind _ ih => exact .plus hkind ih
  | not hkind _ hw ih => exact .not hkind ih hw
  | binary hkind _ _ hw iha ihb => exact .binary hkind iha ihb hw
  | assign hkind _ ih => exact .assign hkind ih
  | anything huninterpreted => exact .anything (h.isUninterpreted hg huninterpreted)

/-- A value of an expression is a member of the interval computed for it. -/
theorem mem_evaluateWithin (h : Agrees ctx d₀ current m) (hg : ctx.graph.WellNamed) {e : NodeId}
    {v : Int64} (hv : Evaluates ctx.graph m e v) {depth : Nat} {value : Interval}
    (hvalue : ctx.evaluateWithin current depth e = .ok value) : v ∈ value :=
  (h.denotes hg hv).mem_evaluateWithin h.tracked h.others hvalue

/-! ## Writes -/

/-- A node that does not write the tracked variable has no effect, `for` and `for`-each heads
apart. -/
theorem integerEffect_untouched (h : Agrees ctx d₀ current m) (hg : ctx.graph.WellNamed)
    {n : NodeId} (hfor : ¬ ctx.graph.ForHead n) (hforEach : ¬ ctx.graph.ForEachHead n)
    (hwritten : ctx.graph.writtenDeclaration? n ≠ some d₀) :
    ctx.integerEffect current n = .ok current := by
  have htarget {e : NodeId} (he : ctx.graph.writtenDeclaration? n = ctx.graph.referent? e) :
      ctx.isTarget e = false := by
    rw [Bool.eq_false_iff, ne_eq, h.isTarget_iff hg, ← he]
    exact hwritten
  cases hkind : ctx.graph.kind? n with
  | none => simp only [Context.integerEffect, hkind]
  | some kind =>
    cases kind with
    | declaration name type initializer =>
      have hname : name ≠ ctx.name := by
        rintro rfl
        apply hwritten
        rw [Graph.writtenDeclaration?_declaration hkind, h.eq_of_name hg hkind]
      simp only [Context.integerEffect, hkind, if_neg hname]
    | assignment op lhs rhs =>
      simp [Context.integerEffect, hkind, htarget (Graph.writtenDeclaration?_assignment hkind)]
    | unary op input =>
      cases op with
      | increment | decrement =>
        simp [Context.integerEffect, hkind, htarget (Graph.writtenDeclaration?_step hkind rfl)]
      | negate | plus | not => simp only [Context.integerEffect, hkind]
    | forLoop initializer condition iteration => exact absurd ⟨_, _, _, hkind⟩ hfor
    | forEachLoop item iterable => exact absurd ⟨_, _, hkind⟩ hforEach
    | _ => simp only [Context.integerEffect, hkind]

/-- What a write leaves in the tracked variable is a member of the effect of the node. -/
theorem mem_integerEffect_write (h : Agrees ctx d₀ current m) (hg : ctx.graph.WellNamed)
    {n : NodeId} {m' : Memory} (hwritten : ctx.graph.writtenDeclaration? n = some d₀)
    (hperform : Performs ctx.graph m n m') {value : Interval}
    (hvalue : ctx.integerEffect current n = .ok value) {v : Int64} (hv : m' d₀ = some v) :
    v ∈ value := by
  have htarget {e : NodeId} (he : ctx.graph.writtenDeclaration? n = ctx.graph.referent? e) :
      ctx.isTarget e = true := by
    rw [h.isTarget_iff hg, ← he, hwritten]
  have hname {name type : String} {initializer : Option NodeId}
      (hkind : ctx.graph.kind? n = some (.declaration name type initializer)) :
      n = d₀ ∧ name = ctx.name := by
    rw [Graph.writtenDeclaration?_declaration hkind] at hwritten
    cases hwritten
    obtain ⟨type', initializer', hd₀⟩ := h.declared
    rw [hd₀] at hkind
    cases hkind
    exact ⟨rfl, rfl⟩
  cases hperform with
  | define hkind hev =>
    obtain ⟨rfl, rfl⟩ := hname hkind
    simp only [Context.integerEffect, hkind, if_true] at hvalue
    rw [Function.update_self] at hv
    cases hv
    exact h.mem_evaluateWithin hg hev hvalue
  | declare w hkind =>
    obtain ⟨rfl, rfl⟩ := hname hkind
    simp only [Context.integerEffect, hkind, if_true] at hvalue
    cases hvalue
    exact Interval.mem_top v
  | assign hkind hvariable hev =>
    have hlhs := Graph.writtenDeclaration?_assignment hkind
    simp only [Context.integerEffect, hkind, htarget hlhs, if_true] at hvalue
    cases hlhs.symm.trans hwritten ▸ hvariable
    rw [Function.update_self] at hv
    cases hv
    obtain ⟨b, hb, hvalue⟩ := bind_eq_ok_iff.mp hvalue
    cases hvalue
    exact h.mem_evaluateWithin hg hev hb
  | combine hkind hop hvariable hm hev hw =>
    have hlhs := Graph.writtenDeclaration?_assignment hkind
    simp only [Context.integerEffect, hkind, htarget hlhs, if_true] at hvalue
    cases hlhs.symm.trans hwritten ▸ hvariable
    rw [Function.update_self] at hv
    cases hv
    obtain ⟨b, hb, hvalue⟩ := bind_eq_ok_iff.mp hvalue
    exact AssignOp.mem_apply hop (h.tracked _ hm) (h.mem_evaluateWithin hg hev hb)
      (Context.arithmetic_eq_ok.mp hvalue) hw
  | increment hkind hvariable hm hw =>
    have hinput := Graph.writtenDeclaration?_step hkind rfl
    simp only [Context.integerEffect, hkind, htarget hinput, if_true] at hvalue
    cases hinput.symm.trans hwritten ▸ hvariable
    rw [Function.update_self] at hv
    cases hv
    exact Context.mem_increment (h.tracked _ hm) hvalue hw
  | decrement hkind hvariable hm hw =>
    have hinput := Graph.writtenDeclaration?_step hkind rfl
    simp only [Context.integerEffect, hkind, htarget hinput, if_true] at hvalue
    cases hinput.symm.trans hwritten ▸ hvariable
    rw [Function.update_self] at hv
    cases hv
    exact Context.mem_decrement (h.tracked _ hm) hvalue hw
  | skip hskip =>
    rw [hwritten] at hskip
    cases hskip

theorem mem_integerEffect (h : Agrees ctx d₀ current m) (hg : ctx.graph.WellNamed) {n : NodeId}
    (hfor : ¬ ctx.graph.ForHead n) (hforEach : ¬ ctx.graph.ForEachHead n) {m' : Memory}
    (hperform : Performs ctx.graph m n m') {value : Interval}
    (hvalue : ctx.integerEffect current n = .ok value) {v : Int64} (hv : m' d₀ = some v) :
    v ∈ value := by
  by_cases hwritten : ctx.graph.writtenDeclaration? n = some d₀
  · exact h.mem_integerEffect_write hg hwritten hperform hvalue hv
  · rw [h.integerEffect_untouched hg hfor hforEach hwritten] at hvalue
    cases hvalue
    rw [hperform.frame hwritten] at hv
    exact h.tracked v hv

end Agrees

/-! ## Branches -/

namespace Evaluates

variable {g : Graph} {m : Memory} {e : NodeId} {v : Int64}

theorem of_variable {d : NodeId} (h : Evaluates g m e v) (hd : g.referent? e = some d) :
    m d = some v := by
  obtain ⟨name, type, hkind⟩ := Graph.referent?_eq_some hd
  cases h with
  | read hvariable hm =>
    rw [hd] at hvariable
    cases hvariable
    exact hm
  | anything huninterpreted => simp [Graph.isOpaque, hkind] at huninterpreted
  | literal h | increment h | decrement h | negate h | plus h | not h | binary h | assign h =>
    rw [hkind] at h
    cases h

theorem of_literal {k : Int64} (h : Evaluates g m e v) (hk : g.literal? e = some k) : v = k := by
  have hkind : g.kind? e = some (.literal (some k)) := by
    unfold Graph.literal? at hk
    split at hk
    · rename_i value hkind
      rw [hkind, hk]
    · cases hk
  cases h with
  | literal h =>
    rw [hkind] at h
    cases h
    rfl
  | read hvariable _ => simp [Graph.referent?, hkind] at hvariable
  | anything huninterpreted => simp [Graph.isOpaque, hkind] at huninterpreted
  | increment h | decrement h | negate h | plus h | not h | binary h | assign h =>
    rw [hkind] at h
    cases h

theorem of_binary {op : BinaryOp} {lhs rhs : NodeId} (h : Evaluates g m e v)
    (hkind : g.kind? e = some (.binary op lhs rhs)) :
    ∃ a b, Evaluates g m lhs a ∧ Evaluates g m rhs b ∧ op.value? a b = some v := by
  cases h with
  | binary h ha hb hv =>
    rw [hkind] at h
    cases h
    exact ⟨_, _, ha, hb, hv⟩
  | read hvariable _ => simp [Graph.referent?, hkind] at hvariable
  | anything huninterpreted => simp [Graph.isOpaque, hkind] at huninterpreted
  | literal h | increment h | decrement h | negate h | plus h | not h | assign h =>
    rw [hkind] at h
    cases h

end Evaluates

namespace Agrees

variable {ctx : Context} {d₀ : NodeId} {current : Interval} {m : Memory}

/-- A comparison of the tracked variable with a literal has the outcome of its condition. -/
theorem holds_of_comparisonWith? (h : Agrees ctx d₀ current m) (hg : ctx.graph.WellNamed)
    {condition : NodeId} {op : BinaryOp} {k v w : Int64} (hm : m d₀ = some v)
    (hcomparison : ctx.graph.comparisonWith? ctx.name condition = some (op, k))
    (hop : op.isComparison = true) (hw : Evaluates ctx.graph m condition w) :
    w ≠ 0 ↔ op.holds v.toInt k.toInt = true := by
  have htracked {e : NodeId} {a : Int64} (he : ctx.graph.refersTo ctx.name e = true)
      (ha : Evaluates ctx.graph m e a) : a = v := by
    have hvalue := ha.of_variable ((h.isTarget_iff hg).mp he)
    rw [hm] at hvalue
    cases hvalue
    rfl
  obtain ⟨c, hcompares, hnormal, rfl⟩ := Graph.comparisonWith?_eq_some_iff.mp hcomparison
  rw [← Comparison.outcome_eq hnormal]
  cases hcompares with
  | variableFirst hkind hlhs hrhs =>
    cases hnormal
    obtain ⟨a, b, ha, hb, hvalue⟩ := hw.of_binary hkind
    obtain rfl := htracked (Graph.refersTo_iff.mpr ⟨_, _, hlhs⟩) ha
    obtain rfl := hb.of_literal (Graph.literal?_eq_some_iff.mpr hrhs)
    exact BinaryOp.value?_of_isComparison hop hvalue
  | literalFirst hkind hlhs hrhs =>
    obtain ⟨a, b, ha, hb, hvalue⟩ := hw.of_binary hkind
    obtain rfl := htracked (Graph.refersTo_iff.mpr ⟨_, _, hrhs⟩) hb
    obtain rfl := ha.of_literal (Graph.literal?_eq_some_iff.mpr hlhs)
    exact BinaryOp.value?_of_isComparison (BinaryOp.isComparison_of_flip hnormal) hvalue

/-- The tracked variable meets what the outcome of a branch says about it. -/
theorem mem_branch (h : Agrees ctx d₀ current m) (hg : ctx.graph.WellNamed) {branching : NodeId}
    {taken : Bool} {v : Int64} (hm : m d₀ = some v)
    (houtcome : ∀ condition, ctx.graph.condition? branching = some condition →
      ∃ w, Evaluates ctx.graph m condition w ∧ (w ≠ 0 ↔ taken = true)) :
    v ∈ (ctx.branchConstraint branching taken).apply current := by
  refine Constraint.mem_apply (h.tracked v hm) ?_
  unfold Context.branchConstraint
  split
  · trivial
  · rename_i condition hcondition
    obtain ⟨w, hw, hiff⟩ := houtcome condition hcondition
    unfold Context.constraint
    split
    · trivial
    · rename_i op k hcomparison
      cases hnegate : op.negate? with
      | none =>
        -- nothing is known unless two values are compared
        cases op <;> cases hnegate <;> cases taken <;> trivial
      | some negated =>
        have hop : op.isComparison = true := by
          rw [BinaryOp.isComparison, hnegate]
          rfl
        have hholds := h.holds_of_comparisonWith? hg hm hcomparison hop hw
        rw [hiff] at hholds
        cases taken with
        | true => exact (Constraint.ofComparison_admits_iff hop).mpr (hholds.mp rfl)
        | false =>
          have hnegated := BinaryOp.isComparison_of_negate hnegate
          rw [if_neg Bool.false_ne_true, Constraint.ofComparison_admits_iff hnegated,
            BinaryOp.holds_negate hnegate, Bool.not_eq_true', Bool.eq_false_iff]
          exact fun htrue => Bool.noConfusion (hholds.mpr htrue)

end Agrees

end IntervalFlow
