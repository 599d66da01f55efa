import IntervalFlow.Proofs.Effect.Statement
import IntervalFlow.Proofs.Interval.Order

/-!
# Writes — which nodes give the variable a new value

What a node does to the tracked variable and whether it counts as a write of it are decided apart. A
node that is no write leaves the interval as it is, or a part of it if it heads a counted loop
(`integerEffect_cases`, `lengthEffect_eq_or`). The exception is a `for`-each head that `Binds` the
variable: it gives every value, and yet is no write.
-/

namespace IntervalFlow

namespace Graph

variable {g : Graph} {name : String} {n : NodeId}

/-- The node heads a `for`-each loop whose item is a variable called `name`. -/
def Binds (g : Graph) (name : String) (n : NodeId) : Prop :=
  ∃ item iterable, g.kind? n = some (.forEachLoop item iterable) ∧ g.declares name item = true

theorem Binds.writes_eq_false {other : String} (h : g.Binds other n) : g.writes name n = false := by
  obtain ⟨item, iterable, hkind, -⟩ := h
  simp [writes, writtenVariable?, assigned?, hkind]

end Graph

namespace Context

variable {ctx : Context} {current value : Interval} {node : NodeId}

theorem integerEffect_cases (hgeneral : ctx.general.WellFormed) (hcurrent : current.WellFormed)
    (h : ctx.integerEffect current node = .ok value) :
    ctx.graph.writes ctx.name node = true ∨ ctx.graph.Binds ctx.name node ∨
      value.isWithin current = true := by
  have hkept (h : (.ok current : Except Error Interval) = .ok value) :
      value.isWithin current = true := by
    cases h
    exact Interval.isWithin_refl hcurrent
  unfold integerEffect at h
  split at h
  · rename_i name type initializer hkind
    split at h
    · rename_i hname
      subst hname
      exact .inl (Graph.writes_iff.mpr (.declares hkind))
    · exact .inr (.inr (hkept h))
  · rename_i op lhs rhs hkind
    split at h
    · rename_i htarget
      obtain ⟨type, declaration, hlhs⟩ := Graph.refersTo_iff.mp htarget
      exact .inl (Graph.writes_iff.mpr (.assigns hkind hlhs))
    · exact .inr (.inr (hkept h))
  · rename_i input hkind
    split at h
    · rename_i htarget
      obtain ⟨type, declaration, hinput⟩ := Graph.refersTo_iff.mp htarget
      exact .inl (Graph.writes_iff.mpr (.increments hkind hinput))
    · exact .inr (.inr (hkept h))
  · rename_i input hkind
    split at h
    · rename_i htarget
      obtain ⟨type, declaration, hinput⟩ := Graph.refersTo_iff.mp htarget
      exact .inl (Graph.writes_iff.mpr (.decrements hkind hinput))
    · exact .inr (.inr (hkept h))
  · -- the summary of a counted loop only takes away
    right
    right
    split at h
    · exact hkept h
    · obtain ⟨summary?, hsummary, h⟩ := bind_eq_ok_iff.mp h
      split at h
      · cases h
        have hwf := CountedLoop.wellFormed_summary hgeneral (arithmetic_eq_ok.mp hsummary)
        exact Interval.restrict_isWithin_left hcurrent hwf
      · exact hkept h
  · rename_i item iterable hkind
    split at h
    · rename_i hitem
      exact .inr (.inl ⟨item, iterable, hkind, hitem⟩)
    · exact .inr (.inr (hkept h))
  · exact .inr (.inr (hkept h))

theorem lengthEffect_eq_or (ctx : Context) (current : Interval) (node : NodeId) :
    ctx.graph.writes ctx.name node = true ∨ ctx.graph.Binds ctx.name node ∨
      ctx.lengthEffect current node = .ok current := by
  unfold lengthEffect
  split
  · rename_i name type initializer hkind
    split
    · rename_i hname
      subst hname
      exact .inl (Graph.writes_iff.mpr (.declares hkind))
    · exact .inr (.inr rfl)
  · rename_i lhs rhs hkind
    split
    · rename_i htarget
      obtain ⟨type, declaration, hlhs⟩ := Graph.refersTo_iff.mp htarget
      exact .inl (Graph.writes_iff.mpr (.assigns hkind hlhs))
    · exact .inr (.inr rfl)
  · rename_i item iterable hkind
    split
    · rename_i hitem
      exact .inr (.inl ⟨item, iterable, hkind, hitem⟩)
    · exact .inr (.inr rfl)
  · exact .inr (.inr rfl)

end Context

namespace Measure

variable {ctx : Context} {current value : Interval} {node : NodeId}

/-- All values that the measure can have. -/
def range : Measure → Interval
  | integer => .top
  | arrayLength => .atLeast 0

theorem effect_of_binds (measure : Measure) (h : ctx.graph.Binds ctx.name node)
    (current : Interval) : measure.effect ctx current node = .ok measure.range := by
  obtain ⟨item, iterable, hkind, hitem⟩ := h
  cases measure with
  | integer => simp only [effect, Context.integerEffect, hkind, hitem, if_true, range]
  | arrayLength => simp only [effect, Context.lengthEffect, hkind, hitem, if_true, range]

theorem effect_cases {measure : Measure} (hgeneral : ctx.general.WellFormed)
    (hcurrent : current.WellFormed) (h : measure.effect ctx current node = .ok value) :
    ctx.graph.writes ctx.name node = true ∨ ctx.graph.Binds ctx.name node ∨
      value.isWithin current = true := by
  cases measure with
  | integer => exact Context.integerEffect_cases hgeneral hcurrent h
  | arrayLength =>
    refine (ctx.lengthEffect_eq_or current node).imp_right (.imp_right fun hkept => ?_)
    cases hkept.symm.trans h
    exact Interval.isWithin_refl hcurrent

/-- A node that gives the variable a value outside the current interval is a write of it, unless it
heads a `for`-each loop whose item is the variable. Such a head gives the variable every value and
is never a write. -/
theorem writes_of_new_value (measure : Measure) (hgeneral : ctx.general.WellFormed)
    (hcurrent : current.WellFormed) :
    (∀ node value, measure.effect ctx current node = .ok value → value.isWithin current = false →
      ¬ ctx.graph.Binds ctx.name node → ctx.graph.writes ctx.name node = true) ∧
    ∀ node, ctx.graph.Binds ctx.name node →
      measure.effect ctx current node = .ok measure.range ∧
        ctx.graph.writes ctx.name node = false := by
  refine ⟨fun node value h hnew hbinds => ?_, fun node hbinds => ?_⟩
  · rcases effect_cases hgeneral hcurrent h with hwrites | hbound | hwithin
    · exact hwrites
    · exact absurd hbound hbinds
    · rw [hwithin] at hnew
      cases hnew
  · exact ⟨measure.effect_of_binds hbinds current, hbinds.writes_eq_false⟩

/-! ### A loop over items

`for (int x : f()) x++; x` -/

def iterating : Graph where
  kinds := #[.declaration "x" "int" none, .call "f" [], .forEachLoop 0 1,
    .reference "x" "int" (some 0), .unary .increment 3]
  edges := [⟨1, 2, none⟩, ⟨2, 4, none⟩, ⟨4, 2, none⟩, ⟨2, 3, none⟩]
  faultless := by decide +kernel

def iteratingContext : Context := ⟨iterating, "x", .empty, .empty⟩

/-- The increment gives a new value and is a write. -/
theorem iterating_writes : integer.effect iteratingContext (.constant 0) 4 = .ok (.constant 1) ∧
    (Interval.constant 1).isWithin (.constant 0) = false ∧ iterating.writes "x" 4 = true := by
  have heffect : integer.effect iteratingContext (.constant 0) 4 = .ok (.constant 1) := by
    decide +kernel
  have hnew : (Interval.constant 1).isWithin (.constant 0) = false := by decide
  have hbinds : ¬ iterating.Binds "x" 4 := by
    rintro ⟨item, iterable, hkind, -⟩
    cases hkind
  have hgeneral : iteratingContext.general.WellFormed := Store.WellFormed.empty
  obtain ⟨hwrites, -⟩ := writes_of_new_value integer hgeneral (Interval.wellFormed_constant 0)
  exact ⟨heffect, hnew, hwrites 4 _ heffect hnew hbinds⟩

/-- The head gives `x` every value, as integer and as array, and is no write of it. -/
theorem iterating_head_not_written :
    integer.effect iteratingContext (.constant 0) 2 = .ok .top ∧
    Interval.top.isWithin (.constant 0) = false ∧
    arrayLength.effect iteratingContext (.constant 0) 2 = .ok (.atLeast 0) ∧
    (Interval.atLeast 0).isWithin (.constant 0) = false ∧ iterating.writes "x" 2 = false := by
  decide +kernel

end Measure

end IntervalFlow
