import IntervalFlow.Evaluation
import IntervalFlow.Proofs.Fixpoint.Limit
import IntervalFlow.Proofs.Graph.Validity

/-!
# Failures — which errors an analysis can end with

Expressions may share operands and may even contain themselves, so how deep one nests is a matter of
chains: `Links n e f` is a chain of `n` links from the expression `e` to `f`. An evaluation follows
every link, and fails for its depth exactly at the end of a chain that is too long. As all children
of a node exist, the only other failure of an expression is undefined arithmetic, and a run adds
nothing but its limit.
-/

namespace IntervalFlow

namespace Graph

/-! ## Chains of operands -/

/-- `f` is an operand whose interval is needed for that of `e`: the operand of a sign or a negation,
either operand of a binary operator, or the right side of a plain assignment. -/
inductive Link (g : Graph) : NodeId → NodeId → Prop
  | unary {e f : NodeId} {op : UnaryOp} : g.kind? e = some (.unary op f) → op.isStep = false →
      Link g e f
  | left {e f rhs : NodeId} {op : BinaryOp} : g.kind? e = some (.binary op f rhs) → Link g e f
  | right {e f lhs : NodeId} {op : BinaryOp} : g.kind? e = some (.binary op lhs f) → Link g e f
  | assigned {e f lhs : NodeId} : g.kind? e = some (.assignment .assign lhs f) → Link g e f

/-- A chain of as many links leads from one expression to another. -/
inductive Links (g : Graph) : Nat → NodeId → NodeId → Prop
  | here {e : NodeId} : Links g 0 e e
  | there {n : Nat} {e f k : NodeId} : g.Link e f → Links g n f k → Links g (n + 1) e k

theorem child_lt_size {g : Graph} {node child : NodeId} {kind : NodeKind}
    (hkind : g.kind? node = some kind) (hchild : child ∈ kind.children) : child < g.size :=
  (Draft.violation?_eq_none_iff.mp g.faultless).children node kind hkind child hchild

theorem Link.lt_size {g : Graph} {e f : NodeId} (h : g.Link e f) : f < g.size := by
  cases h with
  | unary hkind => exact child_lt_size hkind List.mem_cons_self
  | left hkind => exact child_lt_size hkind List.mem_cons_self
  | right hkind => exact child_lt_size hkind (List.mem_cons_of_mem _ List.mem_cons_self)
  | assigned hkind => exact child_lt_size hkind (List.mem_cons_of_mem _ List.mem_cons_self)

/-- The errors that the nodes of a graph can cause. -/
inductive Failure (g : Graph) : Error → Prop
  | undefined (cause : Undefined) : Failure g (.undefined cause)
  | nested {e f : NodeId} : g.Links Context.maxDepth e f →
      Failure g (.violation (.nestedTooDeeply f))

end Graph

namespace Context

variable {ctx : Context} {current : Interval}

/-! ## Expressions -/

theorem arithmetic_eq_error {α : Type} {result : Except Undefined α} {cause : Error}
    (h : arithmetic result = .error cause) : ∃ undefined, cause = .undefined undefined := by
  cases result with
  | error undefined =>
    cases h
    exact ⟨undefined, rfl⟩
  | ok value => cases h

/-- No link of a chain is left out: where one starts that is as long as the depth, the evaluation
fails. -/
theorem evaluateWithin_of_links {depth : Nat} {e f : NodeId} (h : ctx.graph.Links depth e f) :
    ∃ cause, ctx.evaluateWithin current depth e = .error cause := by
  induction h with
  | here => exact ⟨_, rfl⟩
  | there hlink _ ih =>
    obtain ⟨cause, hcause⟩ := ih
    cases hlink with
    | @unary op hkind hop =>
      refine ⟨cause, ?_⟩
      cases op with
      | increment | decrement => cases hop
      | negate | not =>
        simp only [evaluateWithin, hkind]
        exact bind_eq_error_iff.mpr (.inl hcause)
      | plus => simpa only [evaluateWithin, hkind] using hcause
    | left hkind =>
      refine ⟨cause, ?_⟩
      simp only [evaluateWithin, hkind]
      exact bind_eq_error_iff.mpr (.inl hcause)
    | @right lhs op hkind =>
      simp only [evaluateWithin, hkind]
      -- the left operand comes first and may fail as well
      cases hleft : ctx.evaluateWithin current _ lhs with
      | error cause' => exact ⟨cause', rfl⟩
      | ok a =>
        refine ⟨cause, bind_eq_error_iff.mpr (.inr ⟨a, rfl, ?_⟩)⟩
        exact bind_eq_error_iff.mpr (.inl hcause)
    | assigned hkind =>
      refine ⟨cause, ?_⟩
      simpa only [evaluateWithin, hkind] using hcause

/-- An expression fails for undefined arithmetic, or at the end of a chain as long as the depth. -/
theorem evaluateWithin_error {depth : Nat} {e : NodeId} (he : e < ctx.graph.size) {cause : Error}
    (h : ctx.evaluateWithin current depth e = .error cause) :
    (∃ undefined, cause = .undefined undefined) ∨
      ∃ f, ctx.graph.Links depth e f ∧ cause = .violation (.nestedTooDeeply f) := by
  induction depth generalizing e cause with
  | zero =>
    cases h
    exact .inr ⟨e, .here, rfl⟩
  | succ depth ih =>
    -- a failure of an operand is a failure of the expression
    have hoperand {f : NodeId} (hlink : ctx.graph.Link e f)
        (hf : ctx.evaluateWithin current depth f = .error cause) :
        (∃ undefined, cause = .undefined undefined) ∨
          ∃ k, ctx.graph.Links (depth + 1) e k ∧ cause = .violation (.nestedTooDeeply k) := by
      refine (ih hlink.lt_size hf).imp_right ?_
      rintro ⟨k, hlinks, rfl⟩
      exact ⟨k, .there hlink hlinks, rfl⟩
    rw [evaluateWithin] at h
    split at h
    · rename_i hnone
      obtain ⟨kind, hkind⟩ := Draft.exists_kind he
      rw [hkind] at hnone
      cases hnone
    · cases h
    · split at h <;> cases h
    · split at h
      · exact .inl (arithmetic_eq_error h)
      · cases h
    · split at h
      · exact .inl (arithmetic_eq_error h)
      · cases h
    · rename_i hkind
      rcases bind_eq_error_iff.mp h with h | ⟨a, -, h⟩
      · exact hoperand (.unary hkind rfl) h
      · cases h
    · rename_i hkind
      exact hoperand (.unary hkind rfl) h
    · rename_i hkind
      rcases bind_eq_error_iff.mp h with h | ⟨a, -, h⟩
      · exact hoperand (.unary hkind rfl) h
      · cases h
    · rename_i hkind
      rcases bind_eq_error_iff.mp h with h | ⟨a, -, h⟩
      · exact hoperand (.left hkind) h
      · rcases bind_eq_error_iff.mp h with h | ⟨b, -, h⟩
        · exact hoperand (.right hkind) h
        · exact .inl (arithmetic_eq_error h)
    · rename_i hkind
      exact hoperand (.assigned hkind) h
    · cases h

/-! ## Effects -/

theorem failure_of_arithmetic {g : Graph} {α : Type} {result : Except Undefined α} {cause : Error}
    (h : arithmetic result = .error cause) : g.Failure cause := by
  obtain ⟨undefined, rfl⟩ := arithmetic_eq_error h
  exact .undefined undefined

theorem evaluate_failure {e : NodeId} (he : e < ctx.graph.size) {cause : Error}
    (h : ctx.evaluate current e = .error cause) : ctx.graph.Failure cause := by
  rcases evaluateWithin_error he h with ⟨undefined, rfl⟩ | ⟨f, hlinks, rfl⟩
  · exact .undefined undefined
  · exact .nested hlinks

theorem integerEffect_failure {node : NodeId} {cause : Error}
    (h : ctx.integerEffect current node = .error cause) : ctx.graph.Failure cause := by
  unfold integerEffect at h
  split at h
  · rename_i hkind
    split at h
    · split at h
      · exact evaluate_failure (Graph.child_lt_size hkind List.mem_cons_self) h
      · cases h
    · cases h
  · rename_i hkind
    split at h
    · rcases bind_eq_error_iff.mp h with h | ⟨value, -, h⟩
      · exact evaluate_failure
          (Graph.child_lt_size hkind (List.mem_cons_of_mem _ List.mem_cons_self)) h
      · exact failure_of_arithmetic h
    · cases h
  · split at h
    · exact failure_of_arithmetic h
    · cases h
  · split at h
    · exact failure_of_arithmetic h
    · cases h
  · split at h
    · cases h
    · rcases bind_eq_error_iff.mp h with h | ⟨summary, -, h⟩
      · exact failure_of_arithmetic h
      · split at h <;> cases h
  · split at h <;> cases h
  · cases h

theorem lengthOf_failure {e : NodeId} {cause : Error}
    (h : ctx.lengthOf current e = .error cause) : ctx.graph.Failure cause := by
  unfold lengthOf at h
  split at h
  · rename_i hkind
    rcases bind_eq_error_iff.mp h with h | ⟨value, -, h⟩
    · exact evaluate_failure (Graph.child_lt_size hkind List.mem_cons_self) h
    · cases h
  · cases h
  · split at h <;> cases h
  · cases h

theorem lengthEffect_failure {node : NodeId} {cause : Error}
    (h : ctx.lengthEffect current node = .error cause) : ctx.graph.Failure cause := by
  unfold lengthEffect at h
  split at h
  · split at h
    · split at h
      · exact lengthOf_failure h
      · cases h
    · cases h
  · split at h
    · exact lengthOf_failure h
    · cases h
  · split at h <;> cases h
  · cases h

end Context

theorem Measure.effect_failure {measure : Measure} {ctx : Context} {current : Interval}
    {node : NodeId} {cause : Error} (h : measure.effect ctx current node = .error cause) :
    ctx.graph.Failure cause := by
  cases measure with
  | integer => exact Context.integerEffect_failure h
  | arrayLength => exact Context.lengthEffect_failure h

/-! ## Runs -/

theorem Problem.solve_failure {problem : Problem} {limit : Option Nat} {cause : Error}
    (h : problem.solve limit = .error cause) :
    cause = .visitLimit (permittedVisits limit) ∨ problem.graph.Failure cause := by
  by_cases hlimit : cause = .visitLimit (permittedVisits limit)
  · exact .inl hlimit
  · right
    have hne : problem.solve limit ≠ .error (.visitLimit (permittedVisits limit)) := by
      rw [h]
      intro hreached
      cases hreached
      exact hlimit rfl
    obtain ⟨n, -, hconcludes⟩ := exists_concludes hne
    rw [h] at hconcludes
    obtain ⟨general, input, node, heffect⟩ := hconcludes.effect_error
    exact Measure.effect_failure heffect

namespace Evaluation

/-- Between two nodes of the graph, evaluating is solving. -/
theorem solve_of_run_eq_error {problem : Problem} {limit : Option Nat} {cause : Error}
    (hstart : problem.graph.contains problem.start = true)
    (htarget : problem.graph.contains problem.target = true)
    (h : run problem limit = .error cause) : problem.solve limit = .error cause := by
  simp only [run, hstart, htarget, if_true] at h
  rcases bind_eq_error_iff.mp h with h | ⟨solution, -, h⟩
  · exact h
  · cases h

/-- An expression of the graph fails if a chain of 257 links starts at it. If none does, it can only
fail for undefined arithmetic, and in no case because an expression is missing. Hence an evaluation
between two nodes of the graph can only fail for undefined arithmetic, for its limit, or for an
expression that nests too deeply, which is then the end of such a chain. -/
theorem run_errors :
    (∀ (ctx : Context) (current : Interval) (e : NodeId), e < ctx.graph.size →
      ((∃ f, ctx.graph.Links 257 e f) → ∃ cause, ctx.evaluate current e = .error cause) ∧
      ((¬ ∃ f, ctx.graph.Links 257 e f) → ∀ cause, ctx.evaluate current e = .error cause →
        ∃ undefined, cause = .undefined undefined) ∧
      ∀ missing, ctx.evaluate current e ≠ .error (.violation (.missingExpression missing))) ∧
    ∀ (problem : Problem) (limit : Option Nat), problem.graph.contains problem.start = true →
      problem.graph.contains problem.target = true →
      ∀ cause, run problem limit = .error cause →
        (∃ undefined, cause = .undefined undefined) ∨
        cause = .visitLimit (permittedVisits limit) ∨
        ∃ e f, problem.graph.Links 257 e f ∧ cause = .violation (.nestedTooDeeply f) := by
  constructor
  · intro ctx current e he
    refine ⟨?_, fun hshort cause h => ?_, fun missing h => ?_⟩
    · rintro ⟨f, hlinks⟩
      exact Context.evaluateWithin_of_links hlinks
    · rcases Context.evaluateWithin_error he h with hundefined | ⟨f, hlinks, -⟩
      · exact hundefined
      · exact absurd ⟨f, hlinks⟩ hshort
    · rcases Context.evaluateWithin_error he h with ⟨undefined, hcause⟩ | ⟨f, -, hcause⟩
      · cases hcause
      · cases hcause
  · intro problem limit hstart htarget cause h
    rcases Problem.solve_failure (solve_of_run_eq_error hstart htarget h) with hlimit | hfailure
    · exact .inr (.inl hlimit)
    · cases hfailure with
      | undefined undefined => exact .inl ⟨undefined, rfl⟩
      | nested hlinks => exact .inr (.inr ⟨_, _, hlinks, rfl⟩)

/-! ### An expression that is its own operand

`int x = +(..); x`, where the operand of the sign is the whole expression, and `x / x` apart -/

def endless : Graph where
  kinds := #[.unary .plus 0, .declaration "x" "int" (some 0), .reference "x" "int" (some 1),
    .binary .div 2 2]
  edges := [⟨1, 2, none⟩]
  faultless := by decide +kernel

def endlessProblem : Problem := ⟨endless, .integer, "x", 1, 2, .bottom⟩

theorem endless_links (n : Nat) : endless.Links n 0 0 := by
  induction n with
  | zero => exact .here
  | succ n ih =>
    have hkind : endless.kind? 0 = some (.unary .plus 0) := rfl
    exact .there (.unary hkind rfl) ih

/-- The expression has chains of every length and fails, as does the evaluation of its variable.
Only two operands are linked to the quotient, which fails for its infinite bounds. -/
theorem endless_errors :
    (∃ cause, (endlessProblem.solver.context .empty).evaluate .top 0 = .error cause) ∧
    (∃ undefined, (endlessProblem.solver.context .empty).evaluate (.atLeast 1) 3 =
      .error (.undefined undefined)) ∧
    run endlessProblem none = .error (.violation (.nestedTooDeeply 0)) ∧
    ∃ e, endless.Links 257 e 0 := by
  obtain ⟨hexpression, hrun⟩ := run_errors
  have hquotient : (endlessProblem.solver.context .empty).evaluate (.atLeast 1) 3 =
      .error (.undefined (.quotient .posInf .posInf)) := by decide +kernel
  have hshort : ¬ ∃ f, endless.Links 257 3 f := by
    rintro ⟨f, hlinks⟩
    have hlast {k : NodeId} (hlink : endless.Link 2 k) : False := by
      cases hlink with
      | unary hkind | left hkind | right hkind | assigned hkind => cases hkind
    cases hlinks with
    | there hlink hlinks =>
      cases hlink with
      | unary hkind | assigned hkind => cases hkind
      | left hkind | right hkind =>
        cases hkind
        cases hlinks with
        | there hlink _ => exact hlast hlink
  obtain ⟨hfails, -, -⟩ := hexpression (endlessProblem.solver.context .empty) .top 0 (by decide)
  obtain ⟨-, hundefined, -⟩ :=
    hexpression (endlessProblem.solver.context .empty) (.atLeast 1) 3 (by decide)
  obtain ⟨undefined, hcause⟩ := hundefined hshort _ hquotient
  have hdeep : run endlessProblem none = .error (.violation (.nestedTooDeeply 0)) := by
    decide +kernel
  refine ⟨hfails ⟨0, endless_links 257⟩, ⟨undefined, hcause ▸ hquotient⟩, hdeep, ?_⟩
  rcases hrun endlessProblem none (by decide) (by decide) _ hdeep with
    ⟨undefined, hother⟩ | hother | ⟨e, f, hlinks, hcause⟩
  · cases hother
  · cases hother
  · cases hcause
    exact ⟨e, hlinks⟩

end Evaluation

end IntervalFlow
