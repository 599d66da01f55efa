import IntervalFlow.Graph.Shape
import IntervalFlow.Proofs.Computation

/-!
# Shapes under replacement

`Shape.map` replaces the operators and children of a node and keeps all else. A traversal succeeds
with a shape exactly if the two become equal under replacements that make each operator and each
child of one equal to its counterpart of the other (`traverse_eq_ok_iff`). What an operator becomes
equal to is its symbol.
-/

namespace IntervalFlow

namespace Shape

variable {U B A ι U' B' A' ι' : Type}

def map (unaryOp : U → U') (binaryOp : B → B') (assignOp : A → A') (child : ι → ι') :
    Shape U B A ι → Shape U' B' A' ι'
  | declaration name type initializer => declaration name type (initializer.map child)
  | reference name type target => reference name type (target.map child)
  | literal value => literal value
  | unary op input => unary (unaryOp op) (child input)
  | binary op lhs rhs => binary (binaryOp op) (child lhs) (child rhs)
  | assignment op lhs rhs => assignment (assignOp op) (child lhs) (child rhs)
  | arrayCreation dimension => arrayCreation (dimension.map child)
  | initializerList elements => initializerList (elements.map child)
  | subscript base index => subscript (child base) (child index)
  | call name arguments => call name (arguments.map child)
  | branch condition => branch (child condition)
  | forLoop initializer condition iteration =>
    forLoop (initializer.map child) (condition.map child) (iteration.map child)
  | whileLoop condition => whileLoop (child condition)
  | doWhileLoop condition => doWhileLoop (child condition)
  | forEachLoop item iterable => forEachLoop (child item) (child iterable)
  | other label => other label

/-- The operator of the shape, where it has one, satisfies the property of its family. -/
def Operators (unaryOp : U → Prop) (binaryOp : B → Prop) (assignOp : A → Prop) :
    Shape U B A ι → Prop
  | unary op _ => unaryOp op
  | binary op _ _ => binaryOp op
  | assignment op _ _ => assignOp op
  | _ => True

section

variable {unaryOp : U → U'} {binaryOp : B → B'} {assignOp : A → A'} {child : ι → ι'}

@[simp] theorem children_map (shape : Shape U B A ι) :
    (shape.map unaryOp binaryOp assignOp child).children = shape.children.map child := by
  cases shape <;> simp [map, children, Option.toList_map]

@[simp] theorem isLoop_map (shape : Shape U B A ι) :
    (shape.map unaryOp binaryOp assignOp child).isLoop = shape.isLoop := by
  cases shape <;> rfl

@[simp] theorem isDeclaration_map (shape : Shape U B A ι) :
    (shape.map unaryOp binaryOp assignOp child).isDeclaration = shape.isDeclaration := by
  cases shape <;> rfl

theorem operators_map {p : U' → Prop} {q : B' → Prop} {r : A' → Prop} (shape : Shape U B A ι) :
    (shape.map unaryOp binaryOp assignOp child).Operators p q r ↔
      shape.Operators (p ∘ unaryOp) (q ∘ binaryOp) (r ∘ assignOp) := by
  cases shape <;> rfl

theorem map_map {U'' B'' A'' ι'' : Type} {unaryOp' : U' → U''} {binaryOp' : B' → B''}
    {assignOp' : A' → A''} {child' : ι' → ι''} (shape : Shape U B A ι) :
    (shape.map unaryOp binaryOp assignOp child).map unaryOp' binaryOp' assignOp' child' =
      shape.map (unaryOp' ∘ unaryOp) (binaryOp' ∘ binaryOp) (assignOp' ∘ assignOp)
        (child' ∘ child) := by
  cases shape <;> simp [map]

/-- Only the replacements of what the shape holds matter. -/
theorem map_congr {unaryOp' : U → U'} {binaryOp' : B → B'} {assignOp' : A → A'} {child' : ι → ι'}
    {shape : Shape U B A ι}
    (hops : shape.Operators (fun op => unaryOp op = unaryOp' op)
      (fun op => binaryOp op = binaryOp' op) fun op => assignOp op = assignOp' op)
    (hchildren : ∀ c ∈ shape.children, child c = child' c) :
    shape.map unaryOp binaryOp assignOp child = shape.map unaryOp' binaryOp' assignOp' child' := by
  have hoption {c : Option ι} (h : ∀ x, c = some x → child x = child' x) :
      (c.map child = c.map child') = True := eq_true (Option.map_congr h)
  cases shape <;> simp_all [map, children, Operators, or_imp, forall_and]

theorem map_eq_reference_iff {shape : Shape U B A ι} {name type : String} {target : ι'} :
    shape.map unaryOp binaryOp assignOp child = .reference name type (some target) ↔
      ∃ c, shape = .reference name type (some c) ∧ child c = target := by
  cases shape <;> simp [map, and_assoc]

end

theorem operators_of_forall {p : U → Prop} {q : B → Prop} {r : A → Prop} (hp : ∀ op, p op)
    (hq : ∀ op, q op) (hr : ∀ op, r op) (shape : Shape U B A ι) : shape.Operators p q r := by
  cases shape <;> simp [Operators, hp, hq, hr]

theorem Operators.imp {p p' : U → Prop} {q q' : B → Prop} {r r' : A → Prop}
    {shape : Shape U B A ι} (h : shape.Operators p q r) (hp : ∀ op, p op → p' op)
    (hq : ∀ op, q op → q' op) (hr : ∀ op, r op → r' op) : shape.Operators p' q' r' := by
  cases shape <;> simp_all [Operators]

section

variable {ε V W X κ : Type} {unaryOp : U → Except ε U'} {binaryOp : B → Except ε B'}
  {assignOp : A → Except ε A'} {child : ι → Except ε ι'}
  {u : U → V} {b : B → W} {a : A → X} {i : ι → κ}
  {u' : U' → V} {b' : B' → W} {a' : A' → X} {i' : ι' → κ}

theorem traverse_eq_ok_iff (hunary : ∀ op op', unaryOp op = .ok op' ↔ u' op' = u op)
    (hbinary : ∀ op op', binaryOp op = .ok op' ↔ b' op' = b op)
    (hassign : ∀ op op', assignOp op = .ok op' ↔ a' op' = a op)
    (hchild : ∀ c c', child c = .ok c' ↔ i' c' = i c) {shape : Shape U B A ι}
    {shape' : Shape U' B' A' ι'} :
    shape.traverse unaryOp binaryOp assignOp child = .ok shape' ↔
      shape'.map u' b' a' i' = shape.map u b a i := by
  have hlist {cs : List ι} {cs' : List ι'} :
      cs.mapM child = .ok cs' ↔ cs'.map i' = cs.map i := mapM_eq_ok_iff hchild
  have hoption {c : Option ι} {c' : Option ι'} :
      c.mapM child = .ok c' ↔ c'.map i' = c.map i := optionMapM_eq_ok_iff hchild
  constructor
  · intro h
    cases shape <;>
      simp only [traverse, bind_eq_ok_iff, hunary, hbinary, hassign, hchild, hoption, hlist, pure,
        Except.pure, Except.ok.injEq] at h <;>
      grind [map]
  · intro h
    -- The replacements keep the constructor, so only pairs of shapes with the same one are left.
    cases shape <;> cases shape' <;> try (cases h <;> rfl)
    all_goals
      simp only [map] at h
      simp only [traverse, bind_eq_ok_iff, hunary, hbinary, hassign, hchild, hoption, hlist, pure,
        Except.pure, Except.ok.injEq]
      grind

end

end Shape

/-! ## Symbols -/

/-- Where each operator of a family is found by its symbol, no other text is accepted. -/
theorem parseOperator_eq_ok_iff {Op : Type} {vocabulary : List Op} {symbol : Op → String}
    (hall : ∀ op, parseOperator vocabulary symbol (symbol op) = .ok op) {text : String} {op : Op} :
    parseOperator vocabulary symbol text = .ok op ↔ symbol op = text := by
  constructor
  · intro h
    unfold parseOperator at h
    split at h
    · rename_i found hfind
      cases h
      simpa using List.find?_some hfind
    · cases h
  · rintro rfl
    exact hall op

theorem UnaryOp.parse_eq_ok_iff (text : String) (op : UnaryOp) :
    parse text = .ok op ↔ op.symbol = text :=
  parseOperator_eq_ok_iff fun op => by cases op <;> rfl

theorem BinaryOp.parse_eq_ok_iff (text : String) (op : BinaryOp) :
    parse text = .ok op ↔ op.symbol = text :=
  parseOperator_eq_ok_iff fun op => by cases op <;> rfl

theorem AssignOp.parse_eq_ok_iff (text : String) (op : AssignOp) :
    parse text = .ok op ↔ op.symbol = text :=
  parseOperator_eq_ok_iff fun op => by cases op <;> rfl

namespace Shape

variable {ι κ : Type}

/-- The operator of the shape, where it has one, belongs to the vocabulary of its family. -/
def InVocabulary (shape : Shape String String String ι) : Prop :=
  shape.Operators (∃ op : UnaryOp, op.symbol = ·) (∃ op : BinaryOp, op.symbol = ·)
    (∃ op : AssignOp, op.symbol = ·)

theorem inVocabulary_map {child : ι → κ} {shape : Shape String String String ι} :
    (shape.map id id id child).InVocabulary ↔ shape.InVocabulary := operators_map shape

theorem inVocabulary_symbols {child : ι → κ} (shape : Shape UnaryOp BinaryOp AssignOp ι) :
    (shape.map UnaryOp.symbol BinaryOp.symbol AssignOp.symbol child).InVocabulary := by
  rw [InVocabulary, operators_map]
  exact operators_of_forall (fun op => ⟨op, rfl⟩) (fun op => ⟨op, rfl⟩) (fun op => ⟨op, rfl⟩) shape

end Shape

end IntervalFlow
