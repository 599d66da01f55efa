import IntervalFlow.Proofs.Effect.WellFormed

/-!
# Lengths

A node keeps the length of the tracked array, or it gives the array another one (`allocates`), which
does not depend on the length before it and is not negative (`lengthEffect_isWithin`). Join,
widening and narrowing make no negative end out of such lengths (`IsLength`).
-/

namespace IntervalFlow

/-! ## Intervals of lengths -/

namespace Interval

/-- No end of the interval is a negative number; the lower one may be open. -/
def IsLength : Interval → Prop
  | bottom => True
  | bounded l u => (l = .negInf ∨ .fin 0 ≤ l) ∧ .fin 0 ≤ u

theorem isLength_top : top.IsLength := ⟨.inl rfl, Bound.le_posInf _⟩

theorem IsLength.of_isWithin {a : Interval} (h : a.isWithin (atLeast 0) = true) : a.IsLength := by
  cases a with
  | bottom => trivial
  | bounded l u =>
    obtain ⟨hwf, -, hl, -⟩ := bounded_isWithin_bounded.mp h
    exact ⟨.inr hl, hl.trans hwf⟩

theorem IsLength.isWithin {a : Interval} (h : a.IsLength) (hwf : a.WellFormed)
    (hclosed : ¬ a.UnboundedBelow) : a.isWithin (atLeast 0) = true := by
  cases a with
  | bottom => exact bottom_isWithin _
  | bounded l u =>
    rcases h.1 with rfl | hl
    · exact absurd ⟨u, rfl⟩ hclosed
    · exact bounded_isWithin_bounded.mpr ⟨hwf, Bound.le_posInf _, hl, Bound.le_posInf u⟩

theorem not_unboundedBelow_of_isWithin {a : Interval} (h : a.isWithin (atLeast 0) = true) :
    ¬ a.UnboundedBelow := by
  rintro ⟨u, rfl⟩
  obtain ⟨-, -, hl, -⟩ := bounded_isWithin_bounded.mp h
  exact Bound.not_fin_le_negInf 0 hl

theorem IsLength.join {a b : Interval} (ha : a.IsLength) (hb : b.IsLength) :
    (a.join b).IsLength := by
  cases a with
  | bottom => exact hb
  | bounded l u =>
    cases b with
    | bottom => exact ha
    | bounded l' u' =>
      rw [Interval.join]
      split
      · refine ⟨?_, ha.2.trans (le_max_left u u')⟩
        rcases min_choice l l' with h | h
        · rw [h]
          exact ha.1
        · rw [h]
          exact hb.1
      · exact isLength_top

theorem IsLength.widen {a b : Interval} (ha : a.IsLength) (hb : b.IsLength) :
    (a.widen b).IsLength := by
  cases a with
  | bottom => exact hb
  | bounded l u =>
    cases b with
    | bottom => exact ha
    | bounded l' u' =>
      refine ⟨?_, ?_⟩
      · split
        · exact .inl rfl
        · exact ha.1
      · split
        · exact Bound.le_posInf _
        · exact ha.2

theorem IsLength.narrow {a b : Interval} (ha : a.IsLength) (hb : b.IsLength) :
    (a.narrow b).IsLength := by
  cases a with
  | bottom => trivial
  | bounded l u =>
    cases b with
    | bottom => trivial
    | bounded l' u' =>
      have hlower : (if l = .negInf then l' else l) = .negInf ∨
          .fin 0 ≤ if l = .negInf then l' else l := by
        split
        · exact hb.1
        · exact ha.1
      have hupper : .fin 0 ≤ if u = .posInf then u' else u := by
        split
        · exact hb.2
        · exact ha.2
      simp only [Interval.narrow]
      generalize (if l = .negInf then l' else l) = lower at hlower ⊢
      generalize (if u = .posInf then u' else u) = upper at hupper ⊢
      split
      · trivial
      · exact ⟨hlower, hupper⟩

end Interval

/-! ## Effects on lengths -/

namespace Graph

/-- Whether a node gives the array called `name` a length not taken from the array itself. -/
def allocates (g : Graph) (name : String) (n : NodeId) : Bool :=
  match g.kind? n with
  | some (.declaration declared _ initializer) =>
    declared = name && !(initializer.any (g.refersTo name))
  | some (.assignment .assign lhs rhs) => g.refersTo name lhs && !(g.refersTo name rhs)
  | some (.forEachLoop item _) => g.declares name item
  | _ => false

/-- The lengths of all initializer lists are words. -/
def ListsFit (g : Graph) : Prop :=
  ∀ n elements, g.kind? n = some (.initializerList elements) →
    (elements.length : Int) ≤ Int64.maxValue.toInt

end Graph

namespace Context

variable {ctx : Context} {current value : Interval}

theorem lengthOf_of_refersTo {e : NodeId} (h : ctx.graph.refersTo ctx.name e = true) :
    ctx.lengthOf current e = .ok current := by
  unfold Graph.refersTo at h
  split at h
  · rename_i name _ _ hkind
    rw [lengthOf, hkind]
    exact if_pos (of_decide_eq_true h)
  · cases h

/-- A length that is not taken from the array itself is not negative. -/
theorem lengthOf_isWithin (hdecls : ctx.declarations.WellFormed) (hlists : ctx.graph.ListsFit)
    {e : NodeId} (hother : ctx.graph.refersTo ctx.name e = false)
    (h : ctx.lengthOf current e = .ok value) : value.isWithin (.atLeast 0) = true := by
  have hlength : (Interval.atLeast 0).isWithin (.atLeast 0) = true := by decide
  unfold lengthOf at h
  split at h
  · obtain ⟨dimension, hdimension, h⟩ := bind_eq_ok_iff.mp h
    cases h
    exact Interval.restrict_isWithin_right
      (wellFormed_evaluateWithin hdecls Interval.wellFormed_top hdimension)
      (Interval.wellFormed_atLeast 0)
  · rename_i elements hkind
    cases h
    apply Interval.constant_isWithin
    refine ⟨Bound.fin_le_fin.mpr ?_, Bound.le_posInf _⟩
    have hmin : Int64.minValue.toInt ≤ (elements.length : Int) := by
      rw [Int64.toInt_minValue]
      omega
    rw [← Int64.ofInt_eq_ofNat, Word.toInt_ofInt hmin (hlists e elements hkind)]
    exact Int.natCast_nonneg _
  · rename_i name _ _ hkind
    have hname : name ≠ ctx.name := by
      rw [Graph.refersTo, hkind] at hother
      exact of_decide_eq_false hother
    rw [if_neg hname] at h
    cases h
    exact hlength
  · cases h
    exact hlength

/-- Only the array itself has its own length before the node. -/
theorem lengthOf_congr {e : NodeId} (hother : ctx.graph.refersTo ctx.name e = false)
    (current current' : Interval) : ctx.lengthOf current e = ctx.lengthOf current' e := by
  unfold lengthOf
  split
  · rfl
  · rfl
  · rename_i name _ _ hkind
    have hname : name ≠ ctx.name := by
      rw [Graph.refersTo, hkind] at hother
      exact of_decide_eq_false hother
    rw [if_neg hname, if_neg hname]
  · rfl

/-- A node keeps every length, or it gives one that is unknown or that of an expression other than
the array. -/
theorem lengthEffect_cases (ctx : Context) (node : NodeId) :
    ctx.graph.allocates ctx.name node = false ∧
        (∀ current, ctx.lengthEffect current node = .ok current) ∨
      ctx.graph.allocates ctx.name node = true ∧
        ((∀ current, ctx.lengthEffect current node = .ok (.atLeast 0)) ∨
          ∃ e, ctx.graph.refersTo ctx.name e = false ∧
            ∀ current, ctx.lengthEffect current node = ctx.lengthOf current e) := by
  cases hkind : ctx.graph.kind? node with
  | none => exact .inl ⟨by simp [Graph.allocates, hkind], by simp [lengthEffect, hkind]⟩
  | some kind =>
    cases kind with
    | declaration declared type initializer =>
      by_cases hname : declared = ctx.name
      · cases initializer with
        | none =>
          exact .inr ⟨by simp [Graph.allocates, hkind, hname],
            .inl (by simp [lengthEffect, hkind, hname])⟩
        | some e =>
          cases hself : ctx.graph.refersTo ctx.name e with
          | true =>
            exact .inl ⟨by simp [Graph.allocates, hkind, hself],
              by simp [lengthEffect, hkind, hname, lengthOf_of_refersTo hself]⟩
          | false =>
            exact .inr ⟨by simp [Graph.allocates, hkind, hname, hself],
              .inr ⟨e, hself, by simp [lengthEffect, hkind, hname]⟩⟩
      · exact .inl ⟨by simp [Graph.allocates, hkind, hname], by simp [lengthEffect, hkind, hname]⟩
    | assignment op lhs rhs =>
      cases op with
      | assign =>
        cases htarget : ctx.graph.refersTo ctx.name lhs with
        | true =>
          cases hself : ctx.graph.refersTo ctx.name rhs with
          | true =>
            exact .inl ⟨by simp [Graph.allocates, hkind, hself],
              by simp [lengthEffect, hkind, isTarget, htarget, lengthOf_of_refersTo hself]⟩
          | false =>
            exact .inr ⟨by simp [Graph.allocates, hkind, htarget, hself],
              .inr ⟨rhs, hself, by simp [lengthEffect, hkind, isTarget, htarget]⟩⟩
        | false =>
          exact .inl ⟨by simp [Graph.allocates, hkind, htarget],
            by simp [lengthEffect, hkind, isTarget, htarget]⟩
      | _ => exact .inl ⟨by simp [Graph.allocates, hkind], by simp [lengthEffect, hkind]⟩
    | forEachLoop item iterable =>
      cases hitem : ctx.graph.declares ctx.name item with
      | true =>
        exact .inr ⟨by simp [Graph.allocates, hkind, hitem],
          .inl (by simp [lengthEffect, hkind, hitem])⟩
      | false =>
        exact .inl ⟨by simp [Graph.allocates, hkind, hitem],
          by simp [lengthEffect, hkind, hitem]⟩
    | _ => exact .inl ⟨by simp [Graph.allocates, hkind], by simp [lengthEffect, hkind]⟩

theorem lengthEffect_of_keeps (ctx : Context) {node : NodeId}
    (h : ctx.graph.allocates ctx.name node = false) (current : Interval) :
    ctx.lengthEffect current node = .ok current := by
  rcases ctx.lengthEffect_cases node with ⟨-, hkeeps⟩ | ⟨hallocates, -⟩
  · exact hkeeps current
  · rw [h] at hallocates
    cases hallocates

/-- The length that a node gives the array does not depend on the one before it. -/
theorem lengthEffect_congr (ctx : Context) {node : NodeId}
    (h : ctx.graph.allocates ctx.name node = true) (current current' : Interval) :
    ctx.lengthEffect current node = ctx.lengthEffect current' node := by
  rcases ctx.lengthEffect_cases node with ⟨hkeeps, -⟩ | ⟨-, hunknown | ⟨e, hother, hlength⟩⟩
  · rw [h] at hkeeps
    cases hkeeps
  · rw [hunknown, hunknown]
  · rw [hlength, hlength, lengthOf_congr hother]

theorem lengthEffect_isWithin (hdecls : ctx.declarations.WellFormed) (hlists : ctx.graph.ListsFit)
    {node : NodeId} (hallocates : ctx.graph.allocates ctx.name node = true)
    (h : ctx.lengthEffect current node = .ok value) : value.isWithin (.atLeast 0) = true := by
  rcases ctx.lengthEffect_cases node with ⟨hkeeps, -⟩ | ⟨-, hunknown | ⟨e, hother, hlength⟩⟩
  · rw [hallocates] at hkeeps
    cases hkeeps
  · rw [hunknown] at h
    cases h
    decide
  · rw [hlength] at h
    exact lengthOf_isWithin hdecls hlists hother h

end Context

end IntervalFlow
