import IntervalFlow.Graph.Basic
import IntervalFlow.Word
import Mathlib.Logic.Function.Basic

/-!
# Execution — what a graph computes

The concrete meaning of evaluation order graphs, against which the analysis is sound. Variables hold
words. Expressions are evaluated exactly, and a result that does not fit in a word, a division by
zero or a variable without a value leaves an expression without a value. Expressions that are not
understood may have any value. A run performs the writes of its nodes along edges whose conditions
hold.
-/

namespace IntervalFlow

/-- The values of the variables, by declaration. -/
abbrev Memory := NodeId → Option Int64

/-! ## Operators -/

/-- The integer that counts as a truth value. -/
def ofBool (b : Bool) : Int := if b then 1 else 0

namespace BinaryOp

/-- The exact result. Division rounds toward zero, and there is none by zero. -/
def result? : BinaryOp → Int → Int → Option Int
  | add, a, b => some (a + b)
  | sub, a, b => some (a - b)
  | mul, a, b => some (a * b)
  | div, a, b => if b = 0 then none else some (a.tdiv b)
  | rem, a, b => if b = 0 then none else some (a.tmod b)
  | and, a, b => some (ofBool (a ≠ 0 && b ≠ 0))
  | or, a, b => some (ofBool (a ≠ 0 || b ≠ 0))
  | comparison, a, b => some (ofBool (comparison.holds a b))

/-- The result as a word. -/
def value? (op : BinaryOp) (a b : Int64) : Option Int64 :=
  (op.result? a.toInt b.toInt).bind Word.ofInt?

end BinaryOp

/-- The operation with which a compound assignment combines the old value and the new one. -/
def AssignOp.operation? : AssignOp → Option BinaryOp
  | assign => none
  | add => some .add
  | sub => some .sub
  | mul => some .mul
  | div => some .div
  | rem => some .rem

/-! ## Expressions -/

/-- The declaration of the variable that a reference names. -/
def Graph.referent? (g : Graph) (e : NodeId) : Option NodeId :=
  match g.kind? e with
  | some (.reference _ _ declaration) => declaration
  | _ => none

/-- Expressions that are not understood: they may have any value. -/
def Graph.isOpaque (g : Graph) (e : NodeId) : Bool :=
  match g.kind? e with
  | none | some (.reference ..) | some (.binary ..) | some (.literal (some _)) => false
  | some (.unary op input) => op.isStep && (g.referent? input).isNone
  | some (.assignment op _ _) => op ≠ .assign
  | some _ => true

inductive Evaluates (g : Graph) (m : Memory) : NodeId → Int64 → Prop
  | literal {e v} : g.kind? e = some (.literal (some v)) → Evaluates g m e v
  | read {e d v} : g.referent? e = some d → m d = some v → Evaluates g m e v
  | increment {e input d v w} : g.kind? e = some (.unary .increment input) →
      g.referent? input = some d → m d = some v → w.toInt = v.toInt + 1 → Evaluates g m e w
  | decrement {e input d v w} : g.kind? e = some (.unary .decrement input) →
      g.referent? input = some d → m d = some v → w.toInt = v.toInt - 1 → Evaluates g m e w
  | negate {e input v w} : g.kind? e = some (.unary .negate input) → Evaluates g m input v →
      w.toInt = -v.toInt → Evaluates g m e w
  | plus {e input v} : g.kind? e = some (.unary .plus input) → Evaluates g m input v →
      Evaluates g m e v
  | not {e input v w} : g.kind? e = some (.unary .not input) → Evaluates g m input v →
      w.toInt = ofBool (v = 0) → Evaluates g m e w
  | binary {e op lhs rhs a b w} : g.kind? e = some (.binary op lhs rhs) → Evaluates g m lhs a →
      Evaluates g m rhs b → op.value? a b = some w → Evaluates g m e w
  | assign {e lhs rhs v} : g.kind? e = some (.assignment .assign lhs rhs) → Evaluates g m rhs v →
      Evaluates g m e v
  | anything {e v} : g.isOpaque e = true → Evaluates g m e v

/-! ## Runs -/

/-- The write that a node denotes. -/
inductive Performs (g : Graph) (m : Memory) : NodeId → Memory → Prop
  | define {n name type e v} : g.kind? n = some (.declaration name type (some e)) →
      Evaluates g m e v → Performs g m n (Function.update m n (some v))
  | declare {n name type} (v : Int64) : g.kind? n = some (.declaration name type none) →
      Performs g m n (Function.update m n (some v))
  | assign {n lhs rhs d v} : g.kind? n = some (.assignment .assign lhs rhs) →
      g.referent? lhs = some d → Evaluates g m rhs v →
      Performs g m n (Function.update m d (some v))
  | combine {n op operation lhs rhs d a b v} : g.kind? n = some (.assignment op lhs rhs) →
      op.operation? = some operation → g.referent? lhs = some d → m d = some a →
      Evaluates g m rhs b → operation.value? a b = some v →
      Performs g m n (Function.update m d (some v))
  | increment {n input d v w} : g.kind? n = some (.unary .increment input) →
      g.referent? input = some d → m d = some v → w.toInt = v.toInt + 1 →
      Performs g m n (Function.update m d (some w))
  | decrement {n input d v w} : g.kind? n = some (.unary .decrement input) →
      g.referent? input = some d → m d = some v → w.toInt = v.toInt - 1 →
      Performs g m n (Function.update m d (some w))
  | skip {n} : g.writtenDeclaration? n = none → Performs g m n m

/-- Whether an edge may be followed: one that stands for an outcome of a condition needs the
condition to have that outcome. -/
def Follows (g : Graph) (m : Memory) (a b : NodeId) : Prop :=
  b ∈ g.next a ∧ ∀ taken condition, g.branchOf a b = some taken →
    g.condition? a = some condition → ∃ v, Evaluates g m condition v ∧ (v ≠ 0 ↔ taken = true)

theorem Follows.unconditional {g : Graph} {m : Memory} {a b : NodeId} (h : b ∈ g.next a)
    (hcondition : g.condition? a = none) : Follows g m a b := by
  refine ⟨h, ?_⟩
  intro taken condition _ hsome
  rw [hcondition] at hsome
  cases hsome

theorem Follows.of_outcome {g : Graph} {m : Memory} {a b condition : NodeId} {taken : Bool}
    {v : Int64} (h : b ∈ g.next a) (hbranch : g.branchOf a b = some taken)
    (hcondition : g.condition? a = some condition) (heval : Evaluates g m condition v)
    (hv : v ≠ 0 ↔ taken = true) : Follows g m a b := by
  refine ⟨h, ?_⟩
  intro taken' condition' htaken' hcondition'
  rw [hbranch] at htaken'
  rw [hcondition] at hcondition'
  cases htaken'
  cases hcondition'
  exact ⟨v, heval, hv⟩

/-- Runs from `start` with the memory `m₀`, by the last node performed and the memory after it. -/
inductive Executes (g : Graph) (start : NodeId) (m₀ : Memory) : NodeId → Memory → Prop
  | begin {m} : Performs g m₀ start m → Executes g start m₀ start m
  | next {a b m m'} : Executes g start m₀ a m → Follows g m a b → Performs g m b m' →
      Executes g start m₀ b m'

/-- What the writes of a graph may leave in memory, in whatever order they happened and whatever was
forgotten since. -/
inductive Arises (g : Graph) : Memory → Prop
  | empty : Arises g fun _ => none
  | perform {m m' n} : Arises g m → Performs g m n m' → Arises g m'
  | forget {m} (d : NodeId) : Arises g m → Arises g (Function.update m d none)

/-! ## What a write touches -/

namespace Graph

theorem writtenDeclaration?_declaration {g : Graph} {n : NodeId} {name type : String}
    {initializer : Option NodeId} (h : g.kind? n = some (.declaration name type initializer)) :
    g.writtenDeclaration? n = some n := by
  simp only [writtenDeclaration?, h]

theorem writtenDeclaration?_assignment {g : Graph} {n lhs rhs : NodeId} {op : AssignOp}
    (h : g.kind? n = some (.assignment op lhs rhs)) :
    g.writtenDeclaration? n = g.referent? lhs := by
  simp only [writtenDeclaration?, assigned?, h, Option.bind_some]
  rfl

theorem writtenDeclaration?_step {g : Graph} {n input : NodeId} {op : UnaryOp}
    (h : g.kind? n = some (.unary op input)) (hop : op.isStep = true) :
    g.writtenDeclaration? n = g.referent? input := by
  simp only [writtenDeclaration?, assigned?, h, hop, if_true, Option.bind_some]
  rfl

end Graph

/-- A node changes at most the variable that it writes. -/
theorem Performs.frame {g : Graph} {m m' : Memory} {n d : NodeId} (h : Performs g m n m')
    (hd : g.writtenDeclaration? n ≠ some d) : m' d = m d := by
  have hupdate {d' : NodeId} {v : Int64} (hwritten : g.writtenDeclaration? n = some d') :
      Function.update m d' (some v) d = m d := by
    refine Function.update_of_ne ?_ _ _
    rintro rfl
    exact hd hwritten
  cases h with
  | define hkind _ => exact hupdate (Graph.writtenDeclaration?_declaration hkind)
  | declare _ hkind => exact hupdate (Graph.writtenDeclaration?_declaration hkind)
  | assign hkind hvariable _ =>
    exact hupdate ((Graph.writtenDeclaration?_assignment hkind).trans hvariable)
  | combine hkind _ hvariable _ _ _ =>
    exact hupdate ((Graph.writtenDeclaration?_assignment hkind).trans hvariable)
  | increment hkind hvariable _ _ =>
    exact hupdate ((Graph.writtenDeclaration?_step hkind rfl).trans hvariable)
  | decrement hkind hvariable _ _ =>
    exact hupdate ((Graph.writtenDeclaration?_step hkind rfl).trans hvariable)
  | skip _ => rfl

/-- A declaration gives its variable a value. -/
theorem Performs.declared {g : Graph} {m m' : Memory} {n : NodeId} {name type : String}
    {initializer : Option NodeId} (h : Performs g m n m')
    (hkind : g.kind? n = some (.declaration name type initializer)) : ∃ v, m' n = some v := by
  cases h with
  | define _ _ => exact ⟨_, Function.update_self ..⟩
  | declare v _ => exact ⟨v, Function.update_self ..⟩
  | assign h | combine h | increment h | decrement h =>
    rw [hkind] at h
    cases h
  | skip h =>
    rw [Graph.writtenDeclaration?_declaration hkind] at h
    cases h

/-- No write takes a value away. -/
theorem Performs.keeps {g : Graph} {m m' : Memory} {n d : NodeId} {v : Int64}
    (h : Performs g m n m') (hd : m d = some v) : ∃ v', m' d = some v' := by
  have hupdate (d' : NodeId) (w : Int64) : ∃ v', Function.update m d' (some w) d = some v' := by
    by_cases heq : d = d'
    · rw [heq, Function.update_self]
      exact ⟨w, rfl⟩
    · rw [Function.update_of_ne heq]
      exact ⟨v, hd⟩
  cases h with
  | define | declare | assign | combine | increment | decrement => exact hupdate _ _
  | skip _ => exact ⟨v, hd⟩

end IntervalFlow
