import IntervalFlow.Effect.Lifetime
import IntervalFlow.Proofs.Interval.Arithmetic

/-!
# Well-formed effects

Effects, branches and lifetimes give well-formed intervals when they start from well-formed ones.
-/

namespace IntervalFlow

/-! ## Loop heads

The effects of `for` and `for`-each heads are not those of the nodes' own writes. -/

def Graph.ForHead (g : Graph) (n : NodeId) : Prop :=
  ∃ initializer condition iteration, g.kind? n = some (.forLoop initializer condition iteration)

def Graph.ForEachHead (g : Graph) (n : NodeId) : Prop :=
  ∃ item iterable, g.kind? n = some (.forEachLoop item iterable)

/-! ## Truth values and constraints -/

namespace Interval

theorem wellFormed_ofTruth (t : Option Bool) : (ofTruth t).WellFormed := by
  rcases t with - | - | -
  · exact wellFormed_between _ _
  · exact wellFormed_constant 0
  · exact wellFormed_constant 1

theorem ofTruth_ite {p q : Prop} [Decidable p] [Decidable q] :
    ofTruth (if p then some true else if q then some false else none) =
      if p then constant 1 else if q then constant 0 else range 0 1 := by
  split_ifs <;> rfl

theorem wellFormed_compare (op : BinaryOp) (a b : Interval) : (compare op a b).WellFormed := by
  cases a with
  | bottom => trivial
  | bounded l u =>
    cases b with
    | bottom => trivial
    | bounded l' u' => exact wellFormed_ofTruth _

theorem wellFormed_not (a : Interval) : a.not.WellFormed := by
  unfold not
  split_ifs <;> simp [range]

theorem wellFormed_and (a b : Interval) : (a.and b).WellFormed := by
  unfold and
  split_ifs <;> simp [range]

theorem wellFormed_or (a b : Interval) : (a.or b).WellFormed := by
  unfold or
  split_ifs <;> simp [range]

/-- Dropping an end of an interval leaves at least one value, unless it was the only one. -/
theorem wellFormed_exclude {a : Interval} (ha : a.WellFormed) (k : Int64) :
    (a.exclude k).WellFormed := by
  cases a with
  | bottom => trivial
  | bounded l u =>
    rw [exclude]
    by_cases hl : l = .fin k
    · subst hl
      rw [if_pos rfl]
      by_cases hu : u = .fin k
      · rw [if_pos hu]
        trivial
      · rw [if_neg hu]
        cases hnext : Word.add? k 1 with
        | none => exact ha
        | some next => exact Bound.fin_succ_le (lt_of_le_of_ne ha (Ne.symm hu)) hnext
    · rw [if_neg hl]
      by_cases hu : u = .fin k
      · subst hu
        rw [if_pos rfl]
        cases hnext : Word.sub? k 1 with
        | none => exact ha
        | some next => exact Bound.le_fin_pred (lt_of_le_of_ne ha hl) hnext
      · rw [if_neg hu]
        exact ha

end Interval

theorem BinaryOp.wellFormed_apply {op : BinaryOp} {a b c : Interval} (ha : a.WellFormed)
    (hb : b.WellFormed) (h : op.apply a b = .ok c) : c.WellFormed := by
  cases op with
  | add => exact Interval.wellFormed_add ha hb h
  | sub => exact Interval.wellFormed_sub ha hb h
  | div => exact Interval.wellFormed_div h
  | mul => cases h; exact Interval.wellFormed_mul a b
  | rem => cases h; exact Interval.wellFormed_rem hb
  | and => cases h; exact Interval.wellFormed_and a b
  | or => cases h; exact Interval.wellFormed_or a b
  | lt | le | gt | ge | eq | ne => cases h; exact Interval.wellFormed_compare _ a b

theorem AssignOp.wellFormed_apply {op : AssignOp} {a b c : Interval} (ha : a.WellFormed)
    (hb : b.WellFormed) (h : op.apply a b = .ok c) : c.WellFormed := by
  cases op with
  | assign => cases h; exact hb
  | add => exact Interval.wellFormed_add ha hb h
  | sub => exact Interval.wellFormed_sub ha hb h
  | div => exact Interval.wellFormed_div h
  | mul => cases h; exact Interval.wellFormed_mul a b
  | rem => cases h; exact Interval.wellFormed_rem hb

theorem Constraint.wellFormed_apply {current : Interval} (h : current.WellFormed) (c : Constraint) :
    (c.apply current).WellFormed := by
  cases c with
  | unconstrained => exact h
  | unsatisfiable => trivial
  | within range => exact Interval.wellFormed_restrict _ _
  | different k => exact Interval.wellFormed_exclude h k

theorem Constraint.wellFormed_ofComparison {op : BinaryOp} {k : Int64} {range : Interval}
    (h : ofComparison op k = within range) : range.WellFormed := by
  cases op with
  | lt =>
    cases hpred : Word.sub? k 1 with
    | none => simp [ofComparison, hpred] at h
    | some pred =>
      simp only [ofComparison, hpred] at h
      cases h
      exact Interval.wellFormed_atMost pred
  | gt =>
    cases hnext : Word.add? k 1 with
    | none => simp [ofComparison, hnext] at h
    | some next =>
      simp only [ofComparison, hnext] at h
      cases h
      exact Interval.wellFormed_atLeast next
  | le => cases h; exact Interval.wellFormed_atMost k
  | ge => cases h; exact Interval.wellFormed_atLeast k
  | eq => cases h; exact Interval.wellFormed_constant k
  | _ => cases h

/-! ## Stores -/

namespace Store

variable {κ : Type} [DecidableEq κ]

def WellFormed (s : Store κ) : Prop := ∀ key value, s.get? key = some value → value.WellFormed

theorem WellFormed.empty : WellFormed (.empty : Store κ) := by
  intro key value h
  cases h

theorem WellFormed.set {s : Store κ} (h : s.WellFormed) (key : κ) {value : Interval}
    (hvalue : value.WellFormed) : WellFormed (Table.set s key value) := by
  intro k v hv
  rw [Table.get?_set] at hv
  split at hv
  · cases hv
    exact hvalue
  · exact h k v hv

theorem valueOf_eq_bottom {s : Store κ} {key : κ} (h : ¬ ∃ value, s.get? key = some value) :
    s.valueOf key = .bottom := by
  unfold valueOf
  cases hvalue : s.get? key with
  | none => rfl
  | some value => exact absurd ⟨value, hvalue⟩ h

theorem WellFormed.valueOf {s : Store κ} (h : s.WellFormed) (key : κ) :
    (s.valueOf key).WellFormed := by
  unfold Store.valueOf
  cases hvalue : s.get? key with
  | none => trivial
  | some value => exact h key value hvalue

end Store

/-! ## Expressions and effects -/

theorem CountedLoop.wellFormed_entry (l : CountedLoop) {general : Store NodeId}
    (h : general.WellFormed) : (l.entry general).WellFormed :=
  List.foldlRecOn _ _ Interval.wellFormed_bottom fun _ hjoined n _ =>
    Interval.wellFormed_join hjoined (h.valueOf n)

theorem CountedLoop.wellFormed_summary {l : CountedLoop} {general : Store NodeId}
    {summary : Interval} (hgeneral : general.WellFormed)
    (h : l.summary? general = .ok (some summary)) : summary.WellFormed := by
  unfold summary? at h
  split at h
  · cases h
  · split at h
    · cases h
    · obtain ⟨value, hvalue, h⟩ := bind_eq_ok_iff.mp ((bind_pure_comp _ _).trans h)
      cases h
      exact Interval.wellFormed_add (l.wellFormed_entry hgeneral) (Interval.wellFormed_between _ _)
        hvalue

namespace Context

theorem arithmetic_eq_ok {α : Type} {result : Except Undefined α} {a : α} :
    arithmetic result = .ok a ↔ result = .ok a := by
  cases result with
  | error e => constructor <;> intro h <;> cases h
  | ok b => constructor <;> intro h <;> cases h <;> rfl

theorem wellFormed_increment {current value : Interval} (hcurrent : current.WellFormed)
    (h : increment current = .ok value) : value.WellFormed :=
  Interval.wellFormed_add hcurrent (Interval.wellFormed_constant 1) (arithmetic_eq_ok.mp h)

theorem wellFormed_decrement {current value : Interval} (hcurrent : current.WellFormed)
    (h : decrement current = .ok value) : value.WellFormed :=
  Interval.wellFormed_sub hcurrent (Interval.wellFormed_constant 1) (arithmetic_eq_ok.mp h)

variable {ctx : Context} {current value : Interval}

theorem wellFormed_evaluateWithin (hdecls : ctx.declarations.WellFormed)
    (hcurrent : current.WellFormed) {depth : Nat} {e : NodeId}
    (h : ctx.evaluateWithin current depth e = .ok value) : value.WellFormed := by
  induction depth generalizing e value with
  | zero => cases h
  | succ depth ih =>
    rw [evaluateWithin] at h
    split at h
    · cases h
    · cases h
      exact Interval.wellFormed_constant _
    · rename_i name _ declaration _
      split at h
      · cases h
        exact hcurrent
      · cases h
        cases declaration with
        | none => exact Interval.wellFormed_top
        | some d =>
          cases hd : ctx.declarations.get? d with
          | none => simp [hd]
          | some lifetime => simpa [hd] using hdecls d lifetime hd
    · split at h
      · exact wellFormed_increment hcurrent h
      · cases h
        exact Interval.wellFormed_top
    · split at h
      · exact wellFormed_decrement hcurrent h
      · cases h
        exact Interval.wellFormed_top
    · obtain ⟨a, ha, h⟩ := bind_eq_ok_iff.mp h
      cases h
      exact Interval.wellFormed_neg (ih ha)
    · exact ih h
    · obtain ⟨a, -, h⟩ := bind_eq_ok_iff.mp h
      cases h
      exact Interval.wellFormed_not a
    · obtain ⟨a, ha, h⟩ := bind_eq_ok_iff.mp h
      obtain ⟨b, hb, h⟩ := bind_eq_ok_iff.mp h
      exact BinaryOp.wellFormed_apply (ih ha) (ih hb) (arithmetic_eq_ok.mp h)
    · exact ih h
    · cases h
      exact Interval.wellFormed_top

theorem wellFormed_integerEffect (hdecls : ctx.declarations.WellFormed)
    (hcurrent : current.WellFormed) {node : NodeId}
    (h : ctx.integerEffect current node = .ok value) : value.WellFormed := by
  unfold integerEffect at h
  split at h
  · split at h
    · split at h
      · exact wellFormed_evaluateWithin hdecls hcurrent h
      · cases h
        exact Interval.wellFormed_top
    · cases h
      exact hcurrent
  · split at h
    · obtain ⟨a, ha, h⟩ := bind_eq_ok_iff.mp h
      exact AssignOp.wellFormed_apply hcurrent (wellFormed_evaluateWithin hdecls hcurrent ha)
        (arithmetic_eq_ok.mp h)
    · cases h
      exact hcurrent
  · split at h
    · exact wellFormed_increment hcurrent h
    · cases h
      exact hcurrent
  · split at h
    · exact wellFormed_decrement hcurrent h
    · cases h
      exact hcurrent
  · split at h
    · cases h
      exact hcurrent
    · obtain ⟨summary?, -, h⟩ := bind_eq_ok_iff.mp h
      split at h
      · cases h
        exact Interval.wellFormed_restrict _ _
      · cases h
        exact hcurrent
  · split at h <;> cases h
    · exact Interval.wellFormed_top
    · exact hcurrent
  · cases h
    exact hcurrent

theorem wellFormed_lengthOf (hcurrent : current.WellFormed) {e : NodeId}
    (h : ctx.lengthOf current e = .ok value) : value.WellFormed := by
  unfold lengthOf at h
  split at h
  · obtain ⟨a, -, h⟩ := bind_eq_ok_iff.mp h
    cases h
    exact Interval.wellFormed_restrict _ _
  · cases h
    exact Interval.wellFormed_constant _
  · split at h <;> cases h
    · exact hcurrent
    · exact Interval.wellFormed_atLeast 0
  · cases h
    exact Interval.wellFormed_atLeast 0

theorem wellFormed_lengthEffect (hcurrent : current.WellFormed) {node : NodeId}
    (h : ctx.lengthEffect current node = .ok value) : value.WellFormed := by
  unfold lengthEffect at h
  split at h
  · split at h
    · split at h
      · exact wellFormed_lengthOf hcurrent h
      · cases h
        exact Interval.wellFormed_atLeast 0
    · cases h
      exact hcurrent
  · split at h
    · exact wellFormed_lengthOf hcurrent h
    · cases h
      exact hcurrent
  · split at h <;> cases h
    · exact Interval.wellFormed_atLeast 0
    · exact hcurrent
  · cases h
    exact hcurrent

end Context

namespace Measure

variable {ctx : Context} {current value : Interval}

theorem wellFormed_effect {measure : Measure} (hdecls : ctx.declarations.WellFormed)
    (hcurrent : current.WellFormed) {node : NodeId}
    (h : measure.effect ctx current node = .ok value) : value.WellFormed := by
  cases measure with
  | integer => exact Context.wellFormed_integerEffect hdecls hcurrent h
  | arrayLength => exact Context.wellFormed_lengthEffect hcurrent h

theorem wellFormed_branch (measure : Measure) (hcurrent : current.WellFormed) (branching : NodeId)
    (taken : Bool) : (measure.branch ctx current branching taken).WellFormed := by
  cases measure with
  | integer => exact Constraint.wellFormed_apply hcurrent _
  | arrayLength => exact hcurrent

end Measure

/-! ## Lifetimes -/

namespace Lifetime

variable {g : Graph} {lifetimes : Store NodeId}

theorem wellFormed_written (h : lifetimes.WellFormed) (w : Write) :
    (written g lifetimes w).WellFormed := by
  unfold written
  split
  · rename_i value hvalue
    exact Context.wellFormed_integerEffect h (h.valueOf _) hvalue
  · exact Interval.wellFormed_top

theorem wellFormed_grown (h : lifetimes.WellFormed) (index : Nat) (w : Write) :
    (grown g index lifetimes w).WellFormed := by
  have hcurrent := h.valueOf w.declaration
  have hjoined := Interval.wellFormed_join hcurrent (wellFormed_written (g := g) h w)
  simp only [grown]
  split
  · exact Interval.wellFormed_widen hcurrent hjoined
  · exact hjoined

theorem wellFormed_step (h : lifetimes.WellFormed) (index : Nat) (changed : Bool) (w : Write) :
    (step g index (lifetimes, changed) w).1.WellFormed := by
  rw [step]
  split
  · exact h
  · exact h.set _ (wellFormed_grown h index w)

theorem wellFormed_round (h : lifetimes.WellFormed) (ws : List Write) (index : Nat) :
    (round g ws index lifetimes).1.WellFormed :=
  List.foldlRecOn (motive := fun state => state.1.WellFormed) ws (step g index) h
    fun state hstate w _ => wellFormed_step hstate index state.2 w

theorem wellFormed_settle (h : lifetimes.WellFormed) (ws : List Write) (fuel index : Nat) :
    (settle g ws fuel index lifetimes).WellFormed := by
  induction fuel generalizing index lifetimes with
  | zero => exact h
  | succ fuel ih =>
    have hround := wellFormed_round (g := g) h ws index
    rw [settle]
    split
    · rename_i next heq
      rw [heq] at hround
      exact ih hround (index + 1)
    · rename_i next heq
      rw [heq] at hround
      exact hround

end Lifetime

theorem Graph.wellFormed_lifetimes (g : Graph) (tracked : String) :
    (g.lifetimes tracked).WellFormed :=
  Lifetime.wellFormed_settle .empty _ _ _

end IntervalFlow
