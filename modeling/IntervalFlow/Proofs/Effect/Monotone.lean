import IntervalFlow.Proofs.Interval.Monotone

/-!
# Effects — monotonicity

An expression, an effect or a branch that is given smaller intervals, of the tracked variable and
of the lifetimes, gives a smaller interval wherever both results exist (`transfer_monotone`). Only
`for` heads are left out: their summary compares the values that enter the loop with `bottom`.
-/

namespace IntervalFlow

/-! ## Results -/

/-- Where both results exist, the first lies within the second. -/
def Below {ε : Type} (x x' : Except ε Interval) : Prop :=
  ∀ r r', x = .ok r → x' = .ok r' → r.isWithin r' = true

namespace Below

variable {ε : Type} {x x' y y' : Except ε Interval}

theorem ok {a a' : Interval} (h : a.isWithin a' = true) :
    Below (.ok a : Except ε Interval) (.ok a') := by
  intro r r' hr hr'
  cases hr
  cases hr'
  exact h

theorem bind {f f' : Interval → Except ε Interval} (hx : Below x x')
    (hf : ∀ a a', a.isWithin a' = true → Below (f a) (f' a')) : Below (x >>= f) (x' >>= f') := by
  intro r r' hr hr'
  obtain ⟨a, ha, hr⟩ := bind_eq_ok_iff.mp hr
  obtain ⟨a', ha', hr'⟩ := bind_eq_ok_iff.mp hr'
  exact hf a a' (hx a a' ha ha') r r' hr hr'

theorem ite {p : Prop} [Decidable p] (hx : Below x x') (hy : Below y y') :
    Below (if p then x else y) (if p then x' else y') := by
  by_cases h : p
  · rwa [if_pos h, if_pos h]
  · rwa [if_neg h, if_neg h]

theorem arithmetic {x x' : Except Undefined Interval} (h : Below x x') :
    Below (Context.arithmetic x) (Context.arithmetic x') := by
  intro r r' hr hr'
  exact h r r' (Context.arithmetic_eq_ok.mp hr) (Context.arithmetic_eq_ok.mp hr')

end Below

/-- The stores have the same keys, and every value of the first lies within that of the second. -/
def Store.isBelow {κ : Type} [DecidableEq κ] (s t : Store κ) : Prop :=
  ∀ key, Option.Rel (fun a b => a.isWithin b = true) (s.get? key) (t.get? key)

theorem Store.isBelow_refl {κ : Type} [DecidableEq κ] {s : Store κ} (h : s.WellFormed) :
    s.isBelow s := by
  intro key
  cases hvalue : s.get? key with
  | none => exact .none
  | some value => exact .some (Interval.isWithin_refl (h key value hvalue))

/-! ## Expressions -/

namespace Context

open IntervalFlow.Interval (isWithin_refl wellFormed_top wellFormed_constant wellFormed_atLeast)

variable {g : Graph} {name : String} {general general' lifetimes lifetimes' : Store NodeId}
variable {c c' : Interval}

theorem increment_below (hc : c.isWithin c' = true) : Below (increment c) (increment c') :=
  Below.arithmetic fun _ _ => Interval.add_isWithin hc (isWithin_refl (wellFormed_constant 1))

theorem decrement_below (hc : c.isWithin c' = true) : Below (decrement c) (decrement c') :=
  Below.arithmetic fun _ _ => Interval.sub_isWithin hc (isWithin_refl (wellFormed_constant 1))

/-- A variable whose declaration has no lifetime may hold anything, in both stores. -/
theorem lifetime_isWithin (hl : lifetimes.isBelow lifetimes') (declaration : Option NodeId) :
    ((declaration.bind lifetimes.get?).getD .top).isWithin
      ((declaration.bind lifetimes'.get?).getD .top) = true := by
  cases declaration with
  | none => exact isWithin_refl wellFormed_top
  | some d =>
    have hd := hl d
    rw [Option.bind_some, Option.bind_some]
    generalize lifetimes.get? d = value, lifetimes'.get? d = value' at hd ⊢
    cases hd with
    | none => exact isWithin_refl wellFormed_top
    | some h => exact h

theorem evaluateWithin_below (hl : lifetimes.isBelow lifetimes') (hc : c.isWithin c' = true)
    (depth : Nat) (e : NodeId) :
    Below ((Context.mk g name general lifetimes).evaluateWithin c depth e)
      ((Context.mk g name general' lifetimes').evaluateWithin c' depth e) := by
  induction depth generalizing e with
  | zero =>
    intro r r' h
    cases h
  | succ depth ih =>
    rw [evaluateWithin, evaluateWithin]
    cases g.kind? e with
    | none =>
      intro r r' h
      cases h
    | some kind =>
      have htop : Below (.ok .top : Except Error Interval) (.ok .top) :=
        Below.ok (isWithin_refl wellFormed_top)
      cases kind with
      | literal value =>
        cases value with
        | none => exact htop
        | some v => exact Below.ok (isWithin_refl (wellFormed_constant v))
      | reference n type declaration =>
        exact Below.ite (Below.ok hc) (Below.ok (lifetime_isWithin hl declaration))
      | unary op input =>
        cases op with
        | increment => exact Below.ite (increment_below hc) htop
        | decrement => exact Below.ite (decrement_below hc) htop
        | negate => exact Below.bind (ih input) fun a a' h => Below.ok (Interval.neg_isWithin h)
        | plus => exact ih input
        | not => exact Below.bind (ih input) fun a a' h => Below.ok (Interval.not_isWithin h)
      | binary op lhs rhs =>
        refine Below.bind (ih lhs) fun a a' ha => Below.bind (ih rhs) fun b b' hb => ?_
        exact Below.arithmetic fun _ _ => BinaryOp.apply_isWithin ha hb
      | assignment op lhs rhs =>
        cases op with
        | assign => exact ih rhs
        | _ => exact htop
      | _ => exact htop

/-! ## Effects -/

theorem integerEffect_below (hl : lifetimes.isBelow lifetimes') (hc : c.isWithin c' = true)
    {node : NodeId} (hfor : ¬ g.ForHead node) :
    Below ((Context.mk g name general lifetimes).integerEffect c node)
      ((Context.mk g name general' lifetimes').integerEffect c' node) := by
  rw [integerEffect, integerEffect]
  have hcurrent : Below (.ok c : Except Error Interval) (.ok c') := Below.ok hc
  have htop : Below (.ok .top : Except Error Interval) (.ok .top) :=
    Below.ok (isWithin_refl wellFormed_top)
  cases hkind : g.kind? node with
  | none => exact hcurrent
  | some kind =>
    cases kind with
    | declaration n type initializer =>
      cases initializer with
      | none => exact Below.ite htop hcurrent
      | some e => exact Below.ite (evaluateWithin_below hl hc maxDepth e) hcurrent
    | assignment op lhs rhs =>
      refine Below.ite (Below.bind (evaluateWithin_below hl hc maxDepth rhs) ?_) hcurrent
      exact fun a a' ha => Below.arithmetic fun _ _ => AssignOp.apply_isWithin hc ha
    | unary op input =>
      cases op with
      | increment => exact Below.ite (increment_below hc) hcurrent
      | decrement => exact Below.ite (decrement_below hc) hcurrent
      | _ => exact hcurrent
    | forLoop initializer condition iteration => exact absurd ⟨_, _, _, hkind⟩ hfor
    | forEachLoop item iterable => exact Below.ite htop hcurrent
    | _ => exact hcurrent

theorem lengthOf_below (hl : lifetimes.isBelow lifetimes') (hc : c.isWithin c' = true)
    (e : NodeId) :
    Below ((Context.mk g name general lifetimes).lengthOf c e)
      ((Context.mk g name general' lifetimes').lengthOf c' e) := by
  rw [lengthOf, lengthOf]
  have hlength : Below (.ok (.atLeast 0) : Except Error Interval) (.ok (.atLeast 0)) :=
    Below.ok (isWithin_refl (wellFormed_atLeast 0))
  cases g.kind? e with
  | none => exact hlength
  | some kind =>
    cases kind with
    | arrayCreation dimension =>
      cases dimension with
      | none => exact hlength
      | some d =>
        refine Below.bind (evaluateWithin_below hl (isWithin_refl wellFormed_top) maxDepth d) ?_
        exact fun a a' ha => Below.ok (Interval.restrict_isWithin ha _)
    | initializerList elements => exact Below.ok (isWithin_refl (wellFormed_constant _))
    | reference n type declaration => exact Below.ite (Below.ok hc) hlength
    | _ => exact hlength

theorem lengthEffect_below (hl : lifetimes.isBelow lifetimes') (hc : c.isWithin c' = true)
    (node : NodeId) :
    Below ((Context.mk g name general lifetimes).lengthEffect c node)
      ((Context.mk g name general' lifetimes').lengthEffect c' node) := by
  rw [lengthEffect, lengthEffect]
  have hcurrent : Below (.ok c : Except Error Interval) (.ok c') := Below.ok hc
  have hlength : Below (.ok (.atLeast 0) : Except Error Interval) (.ok (.atLeast 0)) :=
    Below.ok (isWithin_refl (wellFormed_atLeast 0))
  cases g.kind? node with
  | none => exact hcurrent
  | some kind =>
    cases kind with
    | declaration n type initializer =>
      cases initializer with
      | none => exact Below.ite hlength hcurrent
      | some e => exact Below.ite (lengthOf_below hl hc e) hcurrent
    | assignment op lhs rhs =>
      cases op with
      | assign => exact Below.ite (lengthOf_below hl hc rhs) hcurrent
      | _ => exact hcurrent
    | forEachLoop item iterable => exact Below.ite hlength hcurrent
    | _ => exact hcurrent

end Context

namespace Measure

variable {g : Graph} {name : String} {general general' lifetimes lifetimes' : Store NodeId}
variable {c c' : Interval}

theorem effect_below {measure : Measure} (hl : lifetimes.isBelow lifetimes')
    (hc : c.isWithin c' = true) {node : NodeId} (hfor : measure = .integer → ¬ g.ForHead node) :
    Below (measure.effect ⟨g, name, general, lifetimes⟩ c node)
      (measure.effect ⟨g, name, general', lifetimes'⟩ c' node) := by
  cases measure with
  | integer => exact Context.integerEffect_below hl hc (hfor rfl)
  | arrayLength => exact Context.lengthEffect_below hl hc node

theorem branch_isWithin (measure : Measure) (hc : c.isWithin c' = true) (branching : NodeId)
    (taken : Bool) :
    (measure.branch ⟨g, name, general, lifetimes⟩ c branching taken).isWithin
      (measure.branch ⟨g, name, general', lifetimes'⟩ c' branching taken) = true := by
  cases measure with
  | integer => exact Constraint.apply_isWithin hc _
  | arrayLength => exact hc

end Measure

/-! ## All together -/

namespace Context

/-- Expressions, effects and branches are monotone in the interval of the tracked variable and in
the lifetimes of the others. -/
theorem transfer_monotone {g : Graph} {name : String}
    {general general' lifetimes lifetimes' : Store NodeId} {c c' : Interval}
    (hl : lifetimes.isBelow lifetimes') (hc : c.isWithin c' = true) :
    (∀ e, Below ((Context.mk g name general lifetimes).evaluate c e)
      ((Context.mk g name general' lifetimes').evaluate c' e)) ∧
    (∀ (measure : Measure) (node : NodeId), (measure = .integer → ¬ g.ForHead node) →
      Below (measure.effect ⟨g, name, general, lifetimes⟩ c node)
        (measure.effect ⟨g, name, general', lifetimes'⟩ c' node)) ∧
    ∀ (measure : Measure) (branching : NodeId) (taken : Bool),
      (measure.branch ⟨g, name, general, lifetimes⟩ c branching taken).isWithin
        (measure.branch ⟨g, name, general', lifetimes'⟩ c' branching taken) = true := by
  refine ⟨?_, ?_, ?_⟩
  · intro e
    exact evaluateWithin_below hl hc maxDepth e
  · intro measure node hfor
    exact Measure.effect_below hl hc hfor
  · intro measure branching taken
    exact measure.branch_isWithin hc branching taken

/-- `int x = 0; int y = 3; x %= y; if (x != 9)`, with the remainder as an expression, too. -/
def remainders : Graph where
  kinds := #[.literal (some 0), .declaration "x" "int" (some 0), .literal (some 3),
    .declaration "y" "int" (some 2), .reference "x" "int" (some 1), .reference "y" "int" (some 3),
    .binary .rem 4 5, .assignment .rem 4 5, .literal (some 9), .binary .ne 4 8, .branch 9]
  edges := [⟨1, 3, none⟩, ⟨3, 7, none⟩, ⟨7, 10, none⟩]
  faultless := by decide +kernel

/-- A context of `remainders` with the given lifetime of `y`. -/
def remaindersBy (y : Interval) : Context := ⟨remainders, "x", .empty, Table.set .empty 3 y⟩

/-- The remainder of constants is computed exactly, any other one by its limits. -/
theorem remainders_monotone :
    (remaindersBy (.constant 3)).evaluate (.constant 7) 6 = .ok (.constant 1) ∧
      (remaindersBy (.range 2 4)).evaluate (.range 7 9) 6 = .ok (.range 0 3) ∧
      (Interval.constant 1).isWithin (.range 0 3) = true ∧
      Below ((remaindersBy (.constant 3)).integerEffect (.constant 7) 7)
        ((remaindersBy (.range 2 4)).integerEffect (.range 7 9) 7) ∧
      (Measure.integer.branch (remaindersBy (.constant 3)) (.constant 7) 10 true).isWithin
        (Measure.integer.branch (remaindersBy (.range 2 4)) (.range 7 9) 10 true) = true := by
  have hsmall : (remaindersBy (.constant 3)).evaluate (.constant 7) 6 = .ok (.constant 1) := by
    decide +kernel
  have hlarge : (remaindersBy (.range 2 4)).evaluate (.range 7 9) 6 = .ok (.range 0 3) := by
    decide +kernel
  have hbelow : Store.isBelow (Table.set .empty 3 (.constant 3))
      (Table.set .empty 3 (.range 2 4)) := by
    intro key
    rw [Table.get?_set, Table.get?_set]
    split
    · exact .some (by decide)
    · exact .none
  have hwithin : (Interval.constant 7).isWithin (.range 7 9) = true := by decide
  have hnode : ¬ remainders.ForHead 7 := by
    rintro ⟨initializer, condition, iteration, hkind⟩
    cases hkind
  obtain ⟨hexpression, heffect, hbranch⟩ := transfer_monotone (g := remainders) hbelow hwithin
  exact ⟨hsmall, hlarge, hexpression 6 _ _ hsmall hlarge, heffect .integer 7 fun _ => hnode,
    hbranch .integer 10 true⟩

end Context

end IntervalFlow
