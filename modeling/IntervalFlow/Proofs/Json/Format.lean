import IntervalFlow.Json.Graph
import IntervalFlow.Json.Interval
import IntervalFlow.Proofs.Bound
import IntervalFlow.Proofs.Json.Form
import Mathlib.Logic.Relation

/-!
# JSON formats

Bounds, intervals, names and graph descriptions are read back from what they are written as, as
values and as text. Each of these formats has a form: what is written has all fields of the form,
and what the form leaves open is not seen by the reader.
-/

namespace IntervalFlow

namespace Json

/-! ## Fields -/

@[simp] theorem int64?_ofInt64 (n : Int64) : (ofInt64 n).int64? = some n :=
  Word.ofInt?_eq_some_iff.mpr rfl

@[simp] theorem uint64?_ofUInt64 (n : UInt64) : (ofUInt64 n).uint64? = some n := by
  have hlt : (n.toNat : Int) < UInt64.size := by exact_mod_cast n.toNat_lt_size
  rw [ofUInt64, uint64?, if_pos ⟨Int.natCast_nonneg _, hlt⟩, Int.toNat_natCast, UInt64.ofNat_toNat]

@[simp] theorem string?_str (s : String) : (str s).string? = some s := rfl

@[simp] theorem bool?_bool (b : Bool) : (bool b).bool? = some b := rfl

variable {α : Type} {encode : α → Json} {decode : Json → Option α} {name other : String}
  {value : Json} {entries : List (String × Json)}

theorem listOf?_map (h : ∀ a, decode (encode a) = some a) (items : List α) :
    listOf? decode (.arr (items.map encode)) = some items := by
  simp only [listOf?, list?, Option.bind_some]
  induction items with
  | nil => rfl
  | cons item items ih => simp [h, ih]

@[simp] theorem required_cons_self (hrest : valuesOf entries name = []) :
    required decode ((name, value) :: entries) name = decode value := by
  rw [required, valuesOf_cons_self, hrest]

@[simp] theorem required_cons_of_ne (h : other ≠ name) :
    required decode ((other, value) :: entries) name = required decode entries name := by
  rw [required, valuesOf_cons_of_ne h, required]

@[simp] theorem optional_cons_of_ne (h : other ≠ name) :
    optional decode ((other, value) :: entries) name = optional decode entries name := by
  rw [optional, valuesOf_cons_of_ne h, optional]

theorem optional_cons_self (h : ∀ a, decode (encode a) = some a) (hnull : ∀ a, encode a ≠ .null)
    (hrest : valuesOf entries name = []) (a : Option α) :
    optional decode ((name, ofOption encode a) :: entries) name = some a := by
  have hvalues : valuesOf ((name, ofOption encode a) :: entries) name = [ofOption encode a] := by
    rw [valuesOf_cons_self, hrest]
  cases a with
  | none => rw [optional, hvalues, ofOption]
  | some a => rw [optional_of_ne_null hvalues (hnull a), ofOption, h, Option.map_some]

@[simp] theorem optional_uint64? (hrest : valuesOf entries name = []) (n : Option UInt64) :
    optional uint64? ((name, ofOption ofUInt64 n) :: entries) name = some n :=
  optional_cons_self uint64?_ofUInt64 (by simp [ofUInt64]) hrest n

@[simp] theorem optional_int64? (hrest : valuesOf entries name = []) (n : Option Int64) :
    optional int64? ((name, ofOption ofInt64 n) :: entries) name = some n :=
  optional_cons_self int64?_ofInt64 (by simp [ofInt64]) hrest n

@[simp] theorem optional_bool? (hrest : valuesOf entries name = []) (b : Option Bool) :
    optional bool? ((name, ofOption .bool b) :: entries) name = some b :=
  optional_cons_self bool?_bool (by simp) hrest b

@[simp] theorem listOf?_uint64? (items : List UInt64) :
    listOf? uint64? (.arr (items.map ofUInt64)) = some items :=
  listOf?_map uint64?_ofUInt64 items

end Json

namespace Bound

def form : Json.Form :=
  .choice [("NegativeInfinity", .plain), ("Value", .plain), ("PositiveInfinity", .plain)]

theorem ofJson?_toJson (b : Bound) : ofJson? b.toJson = some b := by
  cases b with
  | negInf => rfl
  | fin v => simp [toJson, ofJson?]
  | posInf => rfl

theorem written_toJson (b : Bound) : form.Written b.toJson := by
  cases b with
  | negInf => exact .name rfl
  | fin v => exact .content rfl (.int _)
  | posInf => exact .name rfl

theorem fits_ofJson? : form.Fits ofJson? := by
  refine Json.Form.fits_choice fun alternative halternative => ?_
  simp only [List.mem_cons, List.not_mem_nil, or_false] at halternative
  rcases halternative with rfl | rfl | rfl
  all_goals exact Json.Form.fits_plain _

end Bound

namespace Interval

def form : Json.Form :=
  .choice [("Bottom", .plain),
    ("Bounded", .record [("lower", .required, Bound.form), ("upper", .required, Bound.form)])]

theorem ofJson?_toJson (a : Interval) : ofJson? a.toJson = some a := by
  cases a with
  | bottom => rfl
  | bounded lower upper => simp [toJson, ofJson?, Bound.ofJson?_toJson]

theorem written_toJson (a : Interval) : form.Written a.toJson := by
  cases a with
  | bottom => exact .name rfl
  | bounded lower upper =>
    refine .content rfl (.record rfl ?_)
    simp [Bound.written_toJson]

theorem fits_ofJson? : form.Fits ofJson? := by
  refine Json.Form.fits_choice fun alternative halternative => ?_
  simp only [List.mem_cons, List.not_mem_nil, or_false] at halternative
  rcases halternative with rfl | rfl
  · exact Json.Form.fits_plain _
  · refine Json.Form.fits_record fun entries entries' hsame => ?_
    simp only [ofJson?]
    rw [hsame.required "lower" rfl Bound.fits_ofJson?,
      hsame.required "upper" rfl Bound.fits_ofJson?]

end Interval

namespace DescribedNode

open Json.Form (needed allowed)

/-- A list of ids. -/
def ids : Json.Presence × Json.Form := (.required, .list .plain)

def shapeForm : Json.Form := .choice
  [("VariableDeclaration", .record [("name", needed), ("ty", needed), ("initializer", allowed)]),
   ("Reference", .record [("name", needed), ("ty", needed), ("declaration", allowed)]),
   ("Literal", .record [("value", allowed)]),
   ("UnaryOperator", .record [("operator", needed), ("input", needed)]),
   ("BinaryOperator", .record [("operator", needed), ("lhs", needed), ("rhs", needed)]),
   ("Assignment", .record [("operator", needed), ("lhs", needed), ("rhs", needed)]),
   ("ArrayCreation", .record [("dimension", allowed)]),
   ("InitializerList", .record [("elements", ids)]),
   ("Subscript", .record [("base", needed), ("index", needed)]),
   ("Call", .record [("name", needed), ("arguments", ids)]),
   ("If", .record [("condition", needed)]),
   ("For", .record [("initializer", allowed), ("condition", allowed), ("iteration", allowed)]),
   ("While", .record [("condition", needed)]),
   ("DoWhile", .record [("condition", needed)]),
   ("ForEach", .record [("variable", needed), ("iterable", needed)]),
   ("Other", .record [("label", needed)])]

theorem shapeOfJson?_shapeToJson (shape : Shape String String String UInt64) :
    shapeOfJson? (shapeToJson shape) = some shape := by
  cases shape <;> simp [shapeToJson, shapeOfJson?, shapeOfFields?]

theorem written_shapeToJson (shape : Shape String String String UInt64) :
    shapeForm.Written (shapeToJson shape) := by
  cases shape <;> refine .content rfl (.record rfl ?_) <;> simp [needed, allowed, ids]

theorem fits_shapeOfJson? : shapeForm.Fits shapeOfJson? := by
  refine Json.Form.fits_choice fun alternative halternative => ?_
  simp only [List.mem_cons, List.not_mem_nil, or_false] at halternative
  rcases halternative with rfl | rfl | rfl | rfl | rfl | rfl | rfl | rfl | rfl | rfl | rfl | rfl |
    rfl | rfl | rfl | rfl
  all_goals
    refine Json.Form.fits_record fun entries entries' hsame => ?_
    simp only [shapeOfJson?, shapeOfFields?]
  · rw [hsame.needed "name" rfl, hsame.needed "ty" rfl, hsame.allowed "initializer" rfl]
  · rw [hsame.needed "name" rfl, hsame.needed "ty" rfl, hsame.allowed "declaration" rfl]
  · rw [hsame.allowed "value" rfl]
  · rw [hsame.needed "operator" rfl, hsame.needed "input" rfl]
  · rw [hsame.needed "operator" rfl, hsame.needed "lhs" rfl, hsame.needed "rhs" rfl]
  · rw [hsame.needed "operator" rfl, hsame.needed "lhs" rfl, hsame.needed "rhs" rfl]
  · rw [hsame.allowed "dimension" rfl]
  · rw [hsame.required "elements" rfl (Json.Form.fits_plain _).list]
  · rw [hsame.needed "base" rfl, hsame.needed "index" rfl]
  · rw [hsame.needed "name" rfl, hsame.required "arguments" rfl (Json.Form.fits_plain _).list]
  · rw [hsame.needed "condition" rfl]
  · rw [hsame.allowed "initializer" rfl, hsame.allowed "condition" rfl,
      hsame.allowed "iteration" rfl]
  · rw [hsame.needed "condition" rfl]
  · rw [hsame.needed "condition" rfl]
  · rw [hsame.needed "variable" rfl, hsame.needed "iterable" rfl]
  · rw [hsame.needed "label" rfl]

def form : Json.Form := .record [("id", needed), ("repr", .required, shapeForm)]

theorem ofJson?_toJson (node : DescribedNode) : ofJson? node.toJson = some node := by
  simp [toJson, ofJson?, shapeOfJson?_shapeToJson]

theorem written_toJson (node : DescribedNode) : form.Written node.toJson := by
  refine .record rfl ?_
  simp [needed, written_shapeToJson]

theorem fits_ofJson? : form.Fits ofJson? := by
  refine Json.Form.fits_record fun entries entries' hsame => ?_
  simp only [ofJson?]
  rw [hsame.needed "id" rfl, hsame.required "repr" rfl fits_shapeOfJson?]

end DescribedNode

namespace DescribedEdge

open Json.Form (needed allowed)

def form : Json.Form := .record [("from", needed), ("to", needed), ("branch", allowed)]

theorem ofJson?_toJson (e : DescribedEdge) : ofJson? e.toJson = some e := by
  simp [toJson, ofJson?]

theorem written_toJson (e : DescribedEdge) : form.Written e.toJson := by
  refine .record rfl ?_
  simp [needed, allowed, Json.Form.Written.bool]

theorem fits_ofJson? : form.Fits ofJson? := by
  refine Json.Form.fits_record fun entries entries' hsame => ?_
  simp only [ofJson?]
  rw [hsame.needed "from" rfl, hsame.needed "to" rfl, hsame.allowed "branch" rfl]

end DescribedEdge

namespace Description

def form : Json.Form :=
  .record [("nodes", .required, .list DescribedNode.form),
    ("edges", .required, .list DescribedEdge.form)]

theorem ofJson?_toJson (d : Description) : ofJson? d.toJson = some d := by
  simp [toJson, ofJson?, Json.listOf?_map DescribedNode.ofJson?_toJson,
    Json.listOf?_map DescribedEdge.ofJson?_toJson]

theorem written_toJson (d : Description) : form.Written d.toJson := by
  refine .record rfl ?_
  simp [DescribedNode.written_toJson, DescribedEdge.written_toJson]

theorem fits_ofJson? : form.Fits ofJson? := by
  refine Json.Form.fits_record fun entries entries' hsame => ?_
  simp only [ofJson?]
  rw [hsame.required "nodes" rfl DescribedNode.fits_ofJson?.list,
    hsame.required "edges" rfl DescribedEdge.fits_ofJson?.list]

end Description

/-! ## Faithfulness -/

namespace Json

/-- Values are written in a form and read back from it. -/
structure Faithful {α : Type} (form : Form) (encode : α → Json) (decode : Json → Option α) :
    Prop where
  /-- What is written has all fields of the form, and no others. -/
  written : ∀ a, form.Written (encode a)
  decode_encode : ∀ a, decode (encode a) = some a
  decode_text : ∀ a, (parse? (encode a).render).bind decode = some a
  /-- However often a value is changed in what its form leaves open, the same is read from it. -/
  decode_altered : ∀ v w, Relation.ReflTransGen form.Alters v w → decode w = decode v
  /-- Writing what was read once more changes nothing. -/
  recode : ∀ v w, (decode v).map encode = some w → (decode w).map encode = some w

theorem faithful_of_fits {α : Type} {form : Form} {encode : α → Json} {decode : Json → Option α}
    (hwritten : ∀ a, form.Written (encode a)) (hread : ∀ a, decode (encode a) = some a)
    (hfits : form.Fits decode) : Faithful form encode decode where
  written := hwritten
  decode_encode := hread
  decode_text a := by rw [parse?_render (hwritten a).exact, Option.bind_some, hread]
  decode_altered v w halters := by
    induction halters with
    | refl => rfl
    | tail _ hlast ih => exact (hfits _ _ hlast).symm.trans ih
  recode v w hw := by
    obtain ⟨a, -, rfl⟩ := Option.map_eq_some_iff.mp hw
    rw [hread, Option.map_some]

/-- Decoding undoes encoding in every format, on values and on text. Fields that are unknown to the
objects inside a value, and null fields that are optional there, make no difference to decoding. -/
theorem formats_faithful :
    Faithful Bound.form Bound.toJson Bound.ofJson? ∧
    Faithful Interval.form Interval.toJson Interval.ofJson? ∧
    Faithful .plain Json.str Json.string? ∧
    Faithful Description.form Description.toJson Description.ofJson? :=
  ⟨faithful_of_fits Bound.written_toJson Bound.ofJson?_toJson Bound.fits_ofJson?,
    faithful_of_fits Interval.written_toJson Interval.ofJson?_toJson Interval.fits_ofJson?,
    faithful_of_fits Form.written_str string?_str (Form.fits_plain _),
    faithful_of_fits Description.written_toJson Description.ofJson?_toJson Description.fits_ofJson?⟩

/-- A literal without its value, in a node with a field that is not known there. -/
example : DescribedNode.ofJson? (.obj [("line", .int 3), ("id", .int 7),
    ("repr", .obj [("Literal", .obj [])])]) = some ⟨7, .literal none⟩ := by
  decide +kernel

end Json

end IntervalFlow
