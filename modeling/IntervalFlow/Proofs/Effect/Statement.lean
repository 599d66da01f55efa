import IntervalFlow.Proofs.Effect.Branch

/-!
# Statements — what nodes do to variables

Which variable a node sets to a literal, which one it writes and which constant it adds, said by the
kinds of the node and its operands. The readers of the graph find exactly these: `literalStart?` the
literals that variables start with, `writes` the writes, and `constantStep?` the writes that add a
constant.
-/

namespace IntervalFlow.Graph

variable {g : Graph} {name : String} {n : NodeId} {k s : Int64}

/-! ## Literal starts -/

/-- The node sets the variable called `name` to the literal `k`. -/
inductive Initializes (g : Graph) (n : NodeId) (name : String) (k : Int64) : Prop
  | declares {type value} : g.kind? n = some (.declaration name type (some value)) →
      g.kind? value = some (.literal (some k)) → Initializes g n name k
  | assigns {lhs rhs type declaration} : g.kind? n = some (.assignment .assign lhs rhs) →
      g.kind? lhs = some (.reference name type declaration) →
      g.kind? rhs = some (.literal (some k)) → Initializes g n name k

theorem literalStart?_eq_some_iff :
    g.literalStart? n = some (name, k) ↔ g.Initializes n name k := by
  constructor
  · intro h
    unfold literalStart? at h
    split at h
    · rename_i hkind
      obtain ⟨k', hvalue, hpair⟩ := Option.map_eq_some_iff.mp h
      cases hpair
      exact .declares hkind (literal?_eq_some_iff.mp hvalue)
    · rename_i hkind
      split at h
      · rename_i hlhs
        obtain ⟨k', hrhs, hpair⟩ := Option.map_eq_some_iff.mp h
        cases hpair
        exact .assigns hkind hlhs (literal?_eq_some_iff.mp hrhs)
      · cases h
    · cases h
  · intro h
    cases h with
    | declares hkind hvalue => simp [literalStart?, literal?, hkind, hvalue]
    | assigns hkind hlhs hrhs => simp [literalStart?, literal?, hkind, hlhs, hrhs]

/-! ## Writes -/

/-- The node gives the variable called `name` a value. -/
inductive Writes (g : Graph) (name : String) (n : NodeId) : Prop
  | declares {type initializer} : g.kind? n = some (.declaration name type initializer) →
      Writes g name n
  | assigns {op lhs rhs type declaration} : g.kind? n = some (.assignment op lhs rhs) →
      g.kind? lhs = some (.reference name type declaration) → Writes g name n
  | increments {input type declaration} : g.kind? n = some (.unary .increment input) →
      g.kind? input = some (.reference name type declaration) → Writes g name n
  | decrements {input type declaration} : g.kind? n = some (.unary .decrement input) →
      g.kind? input = some (.reference name type declaration) → Writes g name n

theorem writes_iff : g.writes name n = true ↔ g.Writes name n := by
  constructor
  · intro h
    have hwritten := of_decide_eq_true h
    unfold writtenVariable? at hwritten
    split at hwritten
    · rename_i hkind
      cases hwritten
      exact .declares hkind
    · split at hwritten
      · rename_i hoperand
        cases hwritten
        obtain ⟨operand, hassigned, hoperand⟩ := Option.bind_eq_some_iff.mp hoperand
        unfold assigned? at hassigned
        split at hassigned
        · rename_i hkind
          cases hassigned
          exact .assigns hkind hoperand
        · rename_i op input hkind
          cases op with
          | increment =>
            cases hassigned
            exact .increments hkind hoperand
          | decrement =>
            cases hassigned
            exact .decrements hkind hoperand
          | negate | plus | not => cases hassigned
        · cases hassigned
      · cases hwritten
  · intro h
    cases h with
    | declares hkind => simp [writes, writtenVariable?, hkind]
    | assigns hkind hlhs => simp [writes, writtenVariable?, assigned?, hkind, hlhs]
    | increments hkind hinput | decrements hkind hinput =>
      simp [writes, writtenVariable?, assigned?, UnaryOp.isStep, hkind, hinput]

theorem writes_eq_false_iff : g.writes name n = false ↔ ¬ g.Writes name n := by
  rw [← writes_iff, Bool.not_eq_true]

/-! ## Constant steps -/

/-- The node adds the constant `s` to the variable called `name`: `x++`, `x--`, `x += k`, `x -= k`,
`x = x + k`, `x = k + x` or `x = x - k`. A node that does not write it adds nothing. -/
inductive Adds (g : Graph) (name : String) (n : NodeId) : (s : Int64) → Prop
  | nothing : ¬ g.Writes name n → Adds g name n 0
  | increment {input type declaration} : g.kind? n = some (.unary .increment input) →
      g.kind? input = some (.reference name type declaration) → Adds g name n 1
  | decrement {input type declaration} : g.kind? n = some (.unary .decrement input) →
      g.kind? input = some (.reference name type declaration) → Adds g name n (-1)
  | addAssign {lhs rhs type declaration k} : g.kind? n = some (.assignment .add lhs rhs) →
      g.kind? lhs = some (.reference name type declaration) →
      g.kind? rhs = some (.literal (some k)) → Adds g name n k
  | subAssign {lhs rhs type declaration k s} : g.kind? n = some (.assignment .sub lhs rhs) →
      g.kind? lhs = some (.reference name type declaration) →
      g.kind? rhs = some (.literal (some k)) → s.toInt = -k.toInt → Adds g name n s
  | sum {lhs rhs l r type type' declaration declaration' k} :
      g.kind? n = some (.assignment .assign lhs rhs) →
      g.kind? lhs = some (.reference name type declaration) →
      g.kind? rhs = some (.binary .add l r) →
      g.kind? l = some (.reference name type' declaration') →
      g.kind? r = some (.literal (some k)) → Adds g name n k
  | sumReversed {lhs rhs l r type type' declaration declaration' k} :
      g.kind? n = some (.assignment .assign lhs rhs) →
      g.kind? lhs = some (.reference name type declaration) →
      g.kind? rhs = some (.binary .add l r) → g.kind? l = some (.literal (some k)) →
      g.kind? r = some (.reference name type' declaration') → Adds g name n k
  | difference {lhs rhs l r type type' declaration declaration' k s} :
      g.kind? n = some (.assignment .assign lhs rhs) →
      g.kind? lhs = some (.reference name type declaration) →
      g.kind? rhs = some (.binary .sub l r) →
      g.kind? l = some (.reference name type' declaration') →
      g.kind? r = some (.literal (some k)) → s.toInt = -k.toInt → Adds g name n s

/-- The writes that add a constant are recognised. -/
theorem constantStep?_eq_some_iff :
    g.constantStep? name n = some s ↔ g.Writes name n ∧ g.Adds name n s := by
  constructor
  · intro h
    unfold constantStep? at h
    split at h
    · rename_i op input hkind
      split at h
      · rename_i hinput
        obtain ⟨type, declaration, hinput⟩ := refersTo_iff.mp hinput
        cases op with
        | increment =>
          cases h
          exact ⟨.increments hkind hinput, .increment hkind hinput⟩
        | decrement =>
          cases h
          exact ⟨.decrements hkind hinput, .decrement hkind hinput⟩
        | negate | plus | not => cases h
      · cases h
    · rename_i op lhs rhs hkind
      split at h
      · rename_i hlhs
        obtain ⟨type, declaration, hlhs⟩ := refersTo_iff.mp hlhs
        refine ⟨.assigns hkind hlhs, ?_⟩
        split at h
        · exact .addAssign hkind hlhs (literal?_eq_some_iff.mp h)
        · obtain ⟨k, hk, hneg⟩ := Option.bind_eq_some_iff.mp h
          exact .subAssign hkind hlhs (literal?_eq_some_iff.mp hk) (Word.ofInt?_eq_some_iff.mp hneg)
        · split at h
          · rename_i l r hrhs
            split at h
            · rename_i hl
              obtain ⟨_, _, hl⟩ := refersTo_iff.mp hl
              exact .sum hkind hlhs hrhs hl (literal?_eq_some_iff.mp h)
            · split at h
              · rename_i hr
                obtain ⟨_, _, hr⟩ := refersTo_iff.mp hr
                exact .sumReversed hkind hlhs hrhs (literal?_eq_some_iff.mp h) hr
              · cases h
          · rename_i l r hrhs
            split at h
            · rename_i hl
              obtain ⟨_, _, hl⟩ := refersTo_iff.mp hl
              obtain ⟨k, hk, hneg⟩ := Option.bind_eq_some_iff.mp h
              exact .difference hkind hlhs hrhs hl (literal?_eq_some_iff.mp hk)
                (Word.ofInt?_eq_some_iff.mp hneg)
            · cases h
          · cases h
        · cases h
      · cases h
    · cases h
  · rintro ⟨hwrites, hadds⟩
    have hneg {k s : Int64} (h : s.toInt = -k.toInt) : Word.neg? k = some s :=
      Word.ofInt?_eq_some_iff.mpr h
    cases hadds with
    | nothing hnot => exact absurd hwrites hnot
    | increment hkind hinput => simp [constantStep?, refersTo, hkind, hinput]
    | decrement hkind hinput => simp [constantStep?, refersTo, hkind, hinput]
    | addAssign hkind hlhs hrhs => simp [constantStep?, refersTo, literal?, hkind, hlhs, hrhs]
    | subAssign hkind hlhs hrhs hs =>
      simp [constantStep?, refersTo, literal?, hkind, hlhs, hrhs, hneg hs]
    | sum hkind hlhs hrhs hl hr | sumReversed hkind hlhs hrhs hl hr =>
      simp [constantStep?, refersTo, literal?, hkind, hlhs, hrhs, hl, hr]
    | difference hkind hlhs hrhs hl hr hs =>
      simp [constantStep?, refersTo, literal?, hkind, hlhs, hrhs, hl, hr, hneg hs]

/-- The constant that a node adds to the variable called `name`, where it is one. -/
def added? (g : Graph) (name : String) (node : NodeId) : Option Int64 :=
  if g.writes name node then g.constantStep? name node else some 0

theorem added?_eq_some_iff : g.added? name n = some s ↔ g.Adds name n s := by
  unfold added?
  split
  · rename_i hwrites
    rw [constantStep?_eq_some_iff, and_iff_right (writes_iff.mp hwrites)]
  · rename_i hwrites
    rw [writes_iff] at hwrites
    constructor
    · intro h
      cases h
      exact .nothing hwrites
    · intro h
      cases h with
      | nothing => rfl
      | increment hkind hinput => exact absurd (.increments hkind hinput) hwrites
      | decrement hkind hinput => exact absurd (.decrements hkind hinput) hwrites
      | addAssign hkind hlhs | subAssign hkind hlhs | sum hkind hlhs | sumReversed hkind hlhs
      | difference hkind hlhs => exact absurd (.assigns hkind hlhs) hwrites

/-- The same as an integer, where a write by no constant counts as nothing. -/
def added (g : Graph) (name : String) (node : NodeId) : Int :=
  (g.added? name node).elim 0 Int64.toInt

theorem Adds.added_eq (h : g.Adds name n s) : g.added name n = s.toInt := by
  rw [added, added?_eq_some_iff.mpr h, Option.elim_some]

theorem added_of_not_writes (h : ¬ g.Writes name n) : g.added name n = 0 :=
  (Adds.nothing h).added_eq

end IntervalFlow.Graph
