import IntervalFlow.Proofs.Effect.Operator

/-!
# Sound expressions

`Context.Denotes` is the concrete meaning of expressions as a context sees it: references are told
apart by the name of the tracked variable, and the expressions that are not interpreted may have any
value. Whatever an expression denotes is a member of the interval computed for it
(`evaluate_sound`), in any graph and at any depth at which an interval is computed.
-/

namespace IntervalFlow

theorem Graph.refersTo_iff {g : Graph} {name : String} {e : NodeId} :
    g.refersTo name e = true ↔
      ∃ type declaration, g.kind? e = some (.reference name type declaration) := by
  unfold refersTo
  split
  · rename_i name' type declaration hkind
    rw [decide_eq_true_eq, hkind]
    constructor
    · rintro rfl
      exact ⟨type, declaration, rfl⟩
    · rintro ⟨type', declaration', h⟩
      cases h
      rfl
  · rename_i hkind
    constructor
    · intro h
      cases h
    · rintro ⟨type, declaration, h⟩
      exact absurd h (hkind _ _ _)

namespace Context

variable {ctx : Context} {tracked : Option Int64} {others : Memory} {current : Interval}

/-- Expressions that the analysis does not look into. -/
def isUninterpreted (ctx : Context) (e : NodeId) : Bool :=
  match ctx.graph.kind? e with
  | none | some (.binary ..) | some (.literal (some _)) => false
  | some (.reference name _ declaration) => name ≠ ctx.name && declaration.isNone
  | some (.unary op input) => op.isStep && !ctx.isTarget input
  | some (.assignment op _ _) => op ≠ .assign
  | some _ => true

/-- The values of an expression, where the tracked variable holds `tracked` and each declared one
its value in `others`. A variable without a value, a result that is no word and a division by zero
leave an expression without a value. -/
inductive Denotes (ctx : Context) (tracked : Option Int64) (others : Memory) :
    NodeId → Int64 → Prop
  | literal {e v} : ctx.graph.kind? e = some (.literal (some v)) → Denotes ctx tracked others e v
  | target {e v} : ctx.isTarget e = true → tracked = some v → Denotes ctx tracked others e v
  | other {e name type d v} : ctx.graph.kind? e = some (.reference name type (some d)) →
      name ≠ ctx.name → others d = some v → Denotes ctx tracked others e v
  | increment {e input v w} : ctx.graph.kind? e = some (.unary .increment input) →
      ctx.isTarget input = true → tracked = some v → w.toInt = v.toInt + 1 →
      Denotes ctx tracked others e w
  | decrement {e input v w} : ctx.graph.kind? e = some (.unary .decrement input) →
      ctx.isTarget input = true → tracked = some v → w.toInt = v.toInt - 1 →
      Denotes ctx tracked others e w
  | negate {e input v w} : ctx.graph.kind? e = some (.unary .negate input) →
      Denotes ctx tracked others input v → w.toInt = -v.toInt → Denotes ctx tracked others e w
  | plus {e input v} : ctx.graph.kind? e = some (.unary .plus input) →
      Denotes ctx tracked others input v → Denotes ctx tracked others e v
  | not {e input v w} : ctx.graph.kind? e = some (.unary .not input) →
      Denotes ctx tracked others input v → w.toInt = ofBool (v = 0) →
      Denotes ctx tracked others e w
  | binary {e op lhs rhs a b w} : ctx.graph.kind? e = some (.binary op lhs rhs) →
      Denotes ctx tracked others lhs a → Denotes ctx tracked others rhs b →
      op.value? a b = some w → Denotes ctx tracked others e w
  | assign {e lhs rhs v} : ctx.graph.kind? e = some (.assignment .assign lhs rhs) →
      Denotes ctx tracked others rhs v → Denotes ctx tracked others e v
  | anything {e v} : ctx.isUninterpreted e = true → Denotes ctx tracked others e v

theorem isTarget_iff {e : NodeId} : ctx.isTarget e = true ↔
    ∃ type declaration, ctx.graph.kind? e = some (.reference ctx.name type declaration) :=
  Graph.refersTo_iff

/-- An expression is only evaluated if some depth is left. -/
theorem exists_depth {value : Interval} {depth : Nat} {e : NodeId}
    (h : ctx.evaluateWithin current depth e = .ok value) : ∃ rest, depth = rest + 1 := by
  cases depth with
  | zero => cases h
  | succ rest => exact ⟨rest, rfl⟩

theorem mem_increment {value : Interval} {v w : Int64} (hv : v ∈ current)
    (h : increment current = .ok value) (hw : w.toInt = v.toInt + 1) : w ∈ value :=
  Interval.mem_add hv (Interval.mem_constant 1) (arithmetic_eq_ok.mp h) hw

theorem mem_decrement {value : Interval} {v w : Int64} (hv : v ∈ current)
    (h : decrement current = .ok value) (hw : w.toInt = v.toInt - 1) : w ∈ value :=
  Interval.mem_sub hv (Interval.mem_constant 1) (arithmetic_eq_ok.mp h) hw

/-- What is not looked into is given all values. -/
theorem evaluateWithin_of_isUninterpreted {e : NodeId} (h : ctx.isUninterpreted e = true)
    (depth : Nat) : ctx.evaluateWithin current (depth + 1) e = .ok .top := by
  cases hkind : ctx.graph.kind? e with
  | none => simp [isUninterpreted, hkind] at h
  | some kind =>
    cases kind with
    | binary op lhs rhs => simp [isUninterpreted, hkind] at h
    | reference name type declaration =>
      simp only [isUninterpreted, hkind, Bool.and_eq_true, decide_eq_true_eq,
        Option.isNone_iff_eq_none] at h
      simp [evaluateWithin, hkind, h.1, h.2]
    | literal value =>
      cases value with
      | none => simp [evaluateWithin, hkind]
      | some v => simp [isUninterpreted, hkind] at h
    | unary op input =>
      simp only [isUninterpreted, hkind, Bool.and_eq_true, Bool.not_eq_true'] at h
      cases op with
      | increment | decrement => simp [evaluateWithin, hkind, h.2]
      | negate | plus | not => cases h.1
    | assignment op lhs rhs =>
      cases op with
      | assign => simp [isUninterpreted, hkind] at h
      | add | sub | mul | div | rem => simp [evaluateWithin, hkind]
    | _ => simp [evaluateWithin, hkind]

/-- What an expression denotes is a member of the interval computed for it, at whatever depth. -/
theorem Denotes.mem_evaluateWithin {e : NodeId} {w : Int64} (h : ctx.Denotes tracked others e w)
    (htracked : ∀ v, tracked = some v → v ∈ current)
    (hothers : ∀ d v lifetime, others d = some v → ctx.declarations.get? d = some lifetime →
      v ∈ lifetime)
    {depth : Nat} {value : Interval} (hvalue : ctx.evaluateWithin current depth e = .ok value) :
    w ∈ value := by
  induction h generalizing depth value with
  | literal hkind =>
    obtain ⟨depth, rfl⟩ := exists_depth hvalue
    simp only [evaluateWithin, hkind] at hvalue
    cases hvalue
    exact Interval.mem_constant _
  | target htarget hv =>
    obtain ⟨depth, rfl⟩ := exists_depth hvalue
    obtain ⟨type, declaration, hkind⟩ := isTarget_iff.mp htarget
    simp only [evaluateWithin, hkind, if_true] at hvalue
    cases hvalue
    exact htracked _ hv
  | other hkind hname hv =>
    obtain ⟨depth, rfl⟩ := exists_depth hvalue
    rename_i d v
    simp only [evaluateWithin, hkind, if_neg hname, Option.bind_some] at hvalue
    cases hvalue
    cases hlifetime : ctx.declarations.get? d with
    | none => exact Interval.mem_top v
    | some lifetime => exact hothers d v lifetime hv hlifetime
  | increment hkind htarget hv hw =>
    obtain ⟨depth, rfl⟩ := exists_depth hvalue
    simp only [evaluateWithin, hkind, htarget, if_true] at hvalue
    exact mem_increment (htracked _ hv) hvalue hw
  | decrement hkind htarget hv hw =>
    obtain ⟨depth, rfl⟩ := exists_depth hvalue
    simp only [evaluateWithin, hkind, htarget, if_true] at hvalue
    exact mem_decrement (htracked _ hv) hvalue hw
  | negate hkind _ hw ih =>
    obtain ⟨depth, rfl⟩ := exists_depth hvalue
    simp only [evaluateWithin, hkind] at hvalue
    obtain ⟨a, ha, hvalue⟩ := bind_eq_ok_iff.mp hvalue
    cases hvalue
    exact Interval.mem_neg (ih ha) hw
  | plus hkind _ ih =>
    obtain ⟨depth, rfl⟩ := exists_depth hvalue
    simp only [evaluateWithin, hkind] at hvalue
    exact ih hvalue
  | not hkind _ hw ih =>
    obtain ⟨depth, rfl⟩ := exists_depth hvalue
    simp only [evaluateWithin, hkind] at hvalue
    obtain ⟨a, ha, hvalue⟩ := bind_eq_ok_iff.mp hvalue
    cases hvalue
    exact Interval.mem_not (ih ha) hw
  | binary hkind _ _ hw iha ihb =>
    obtain ⟨depth, rfl⟩ := exists_depth hvalue
    simp only [evaluateWithin, hkind] at hvalue
    obtain ⟨a, ha, hvalue⟩ := bind_eq_ok_iff.mp hvalue
    obtain ⟨b, hb, hvalue⟩ := bind_eq_ok_iff.mp hvalue
    exact BinaryOp.mem_apply (iha ha) (ihb hb) (arithmetic_eq_ok.mp hvalue) hw
  | assign hkind _ ih =>
    obtain ⟨depth, rfl⟩ := exists_depth hvalue
    simp only [evaluateWithin, hkind] at hvalue
    exact ih hvalue
  | anything huninterpreted =>
    obtain ⟨depth, rfl⟩ := exists_depth hvalue
    rw [evaluateWithin_of_isUninterpreted huninterpreted] at hvalue
    cases hvalue
    exact Interval.mem_top _

/-- Where the tracked variable holds a member of `current` and every other variable a member of its
lifetime, as far as it has one, the computed interval contains every value of the expression. -/
theorem evaluate_sound {e : NodeId} {v w : Int64} {value : Interval} (hv : v ∈ current)
    (hothers : ∀ d x lifetime, others d = some x → ctx.declarations.get? d = some lifetime →
      x ∈ lifetime)
    (hvalue : ctx.evaluate current e = .ok value) (hw : ctx.Denotes (some v) others e w) :
    w ∈ value := by
  refine hw.mem_evaluateWithin ?_ hothers hvalue
  intro v' hv'
  cases hv'
  exact hv

/-! ### An expression of two variables

`(++x > y) - -(x * y % 7)`, where the tracked variable `x` has no declaration -/

def comparing : Context where
  graph := {
    kinds := #[.declaration "y" "int" none, .reference "x" "int" none,
      .reference "y" "int" (some 0), .unary .increment 1, .binary .gt 3 2, .binary .mul 1 2,
      .literal (some 7), .binary .rem 5 6, .unary .negate 7, .binary .sub 4 8]
    edges := []
    faultless := by decide +kernel }
  name := "x"
  general := .empty
  declarations := Table.empty.set 0 (.range 4 5)

/-- With `x` in `[2, 3]` and `y` in `[4, 5]` the value lies in `[0, 6]`. It is `1` if `x` is `3` and
`y` is `5`. -/
theorem comparing_sound :
    comparing.evaluate (.range 2 3) 9 = .ok (.range 0 6) ∧
    comparing.Denotes (some 3) (fun _ => some 5) 9 1 ∧ (1 : Int64) ∈ Interval.range 0 6 := by
  have hvalue : comparing.evaluate (.range 2 3) 9 = .ok (.range 0 6) := by decide +kernel
  have hx : comparing.Denotes (some 3) (fun _ => some 5) 1 3 := .target (by decide +kernel) rfl
  have hy : comparing.Denotes (some 3) (fun _ => some 5) 2 5 := .other rfl (by decide) rfl
  have hgreater : comparing.Denotes (some 3) (fun _ => some 5) 4 0 :=
    .binary rfl (.increment (w := 4) rfl (by decide +kernel) rfl (by decide)) hy (by decide)
  have hremainder : comparing.Denotes (some 3) (fun _ => some 5) 7 1 :=
    .binary rfl (.binary (w := 15) rfl hx hy (by decide)) (.literal rfl) (by decide)
  have hdenotes : comparing.Denotes (some 3) (fun _ => some 5) 9 1 :=
    .binary rfl hgreater (.negate (w := -1) rfl hremainder (by decide)) (by decide)
  refine ⟨hvalue, hdenotes, evaluate_sound (by decide) ?_ hvalue hdenotes⟩
  intro d x lifetime hd hlifetime
  cases hd
  rw [comparing, Table.get?_set] at hlifetime
  split at hlifetime
  · cases hlifetime
    decide
  · cases hlifetime

end Context

end IntervalFlow
