import IntervalFlow.Json.Basic
import IntervalFlow.Proofs.Json.Text

/-!
# Forms of JSON values

A form says what a reader knows of a value: where there are objects with fields, which fields they
have, and which of these may be missing or null. It leaves two things open, fields that it does not
know and optional fields that are null. A reader fits the form if it does not see what the form
leaves open, and readers that fit compose as forms do. A field that is known and given twice is
refused, whatever its values are.
-/

namespace IntervalFlow.Json

/-! ## Values of a field -/

section ValuesOf

variable {α : Type} {decode : Json → Option α} {name other : String} {value : Json}
  {entries : List (String × Json)}

@[simp] theorem valuesOf_nil (name : String) : valuesOf [] name = [] := by
  simp [valuesOf]

@[simp] theorem valuesOf_cons_self :
    valuesOf ((name, value) :: entries) name = value :: valuesOf entries name := by
  simp [valuesOf]

@[simp] theorem valuesOf_cons_of_ne (h : other ≠ name) :
    valuesOf ((other, value) :: entries) name = valuesOf entries name := by
  simp [valuesOf, h]

@[simp] theorem valuesOf_append (entries entries' : List (String × Json)) (name : String) :
    valuesOf (entries ++ entries') name = valuesOf entries name ++ valuesOf entries' name := by
  simp [valuesOf]

theorem valuesOf_eq_nil (h : ∀ entry ∈ entries, entry.1 ≠ name) : valuesOf entries name = [] := by
  rw [valuesOf, List.filter_eq_nil_iff.mpr fun entry hentry => by simpa using h entry hentry,
    List.map_nil]

theorem required_of_repeated (h : 2 ≤ (valuesOf entries name).length) :
    required decode entries name = none := by
  rw [required]
  split
  · rename_i heq
    simp [heq] at h
  · rfl

theorem optional_of_repeated (h : 2 ≤ (valuesOf entries name).length) :
    optional decode entries name = none := by
  rw [optional]
  split
  · rename_i heq
    simp [heq] at h
  · rename_i heq
    simp [heq] at h
  · rename_i heq
    simp [heq] at h
  · rfl

theorem optional_of_ne_null (hvalues : valuesOf entries name = [value]) (hvalue : value ≠ .null) :
    optional decode entries name = (decode value).map some := by
  rw [optional, hvalues]
  split
  · rename_i heq
    cases heq
  · rename_i heq
    exact absurd (List.cons.inj heq).1 hvalue
  · rename_i heq
    rw [(List.cons.inj heq).1]
  · rename_i hother
    exact absurd rfl (hother value)

end ValuesOf

/-! ## Forms -/

/-- Whether a field has to be there, or may be missing or null. -/
inductive Presence where
  | required
  | optional

inductive Form where
  /-- A number, a text or a truth value, or null where one of them is optional. -/
  | plain
  | list (item : Form)
  /-- One of several alternatives, written as an object with one field that is named for the
  alternative. An alternative that is plain may have no content. -/
  | choice (alternatives : List (String × Form))
  /-- An object with fields. -/
  | record (fields : List (String × Presence × Form))

namespace Form

/-- One change to a value that its form leaves open. Somewhere in the value, a record gets a field
that it does not know, or it loses an optional field that is null and not repeated. -/
inductive Alters : Form → Json → Json → Prop where
  | unknown {fields : List (String × Presence × Form)} {name : String}
      (h : fields.lookup name = none) (before after : List (String × Json)) (value : Json) :
      Alters (.record fields) (.obj (before ++ after)) (.obj (before ++ (name, value) :: after))
  | omitted {fields : List (String × Presence × Form)} {name : String} {form : Form}
      {before after : List (String × Json)} (h : fields.lookup name = some (.optional, form))
      (honce : ∀ entry ∈ before ++ after, entry.1 ≠ name) :
      Alters (.record fields) (.obj (before ++ (name, .null) :: after)) (.obj (before ++ after))
  | field {fields : List (String × Presence × Form)} {name : String} {presence : Presence}
      {form : Form} {v w : Json} (h : fields.lookup name = some (presence, form))
      (hvalue : Alters form v w) (before after : List (String × Json)) :
      Alters (.record fields) (.obj (before ++ (name, v) :: after))
        (.obj (before ++ (name, w) :: after))
  | item {form : Form} {v w : Json} (hitem : Alters form v w) (before after : List Json) :
      Alters (.list form) (.arr (before ++ v :: after)) (.arr (before ++ w :: after))
  | content {alternatives : List (String × Form)} {tag : String} {form : Form} {v w : Json}
      (h : alternatives.lookup tag = some form) (hcontent : Alters form v w) :
      Alters (.choice alternatives) (.obj [(tag, v)]) (.obj [(tag, w)])

/-- A reader fits a form if it does not see what the form leaves open. -/
def Fits {α : Type} (form : Form) (decode : Json → Option α) : Prop :=
  ∀ v w, form.Alters v w → decode v = decode w

variable {α : Type} {decode : Json → Option α} {form : Form}

/-- Only lists and objects are altered. -/
theorem Alters.ne_null {v w : Json} (h : form.Alters v w) : v ≠ .null ∧ w ≠ .null := by
  cases h <;> simp

theorem fits_plain (decode : Json → Option α) : Form.plain.Fits decode := by
  intro v w h
  cases h

theorem Fits.list (h : form.Fits decode) : (Form.list form).Fits (listOf? decode) := by
  intro v w halters
  cases halters with
  | item hitem before after =>
    simp only [listOf?, list?, Option.bind_some, List.mapM_append, List.mapM_cons, h _ _ hitem]

/-- A reader of alternatives fits if it fits each of them. -/
theorem fits_choice {alternatives : List (String × Form)}
    (h : ∀ alternative ∈ alternatives,
      alternative.2.Fits fun content => decode (.obj [(alternative.1, content)])) :
    (Form.choice alternatives).Fits decode := by
  intro v w halters
  cases halters with
  | @content _ tag form v w hlookup hcontent =>
    obtain ⟨before, after, rfl, -⟩ := List.lookup_eq_some_iff.mp hlookup
    exact h (tag, form) (by simp) v w hcontent

/-! ## Records -/

/-- What a form sees of a field before and after a change. -/
inductive Alike (presence : Presence) (form : Form) : List Json → List Json → Prop where
  | same (values : List Json) : Alike presence form values values
  | altered {v w : Json} (h : form.Alters v w) : Alike presence form [v] [w]
  | repeated {values values' : List Json} (h : 2 ≤ values.length) (h' : 2 ≤ values'.length) :
      Alike presence form values values'
  | omitted (h : presence = .optional) : Alike presence form [.null] []

/-- Two objects are alike in the fields that a record knows. -/
def SameFields (fields : List (String × Presence × Form))
    (entries entries' : List (String × Json)) : Prop :=
  ∀ name presence form, fields.lookup name = some (presence, form) →
    Alike presence form (valuesOf entries name) (valuesOf entries' name)

variable {fields : List (String × Presence × Form)} {entries entries' : List (String × Json)}

/-- A change inside a record is a change to one of its fields, or to none that it knows. -/
theorem sameFields_of_alters {v w : Json} (h : (Form.record fields).Alters v w) :
    ∃ entries entries', v = .obj entries ∧ w = .obj entries' ∧
      SameFields fields entries entries' := by
  cases h with
  | @unknown _ other hunknown before after value =>
    refine ⟨_, _, rfl, rfl, ?_⟩
    intro name presence form hname
    have hne : other ≠ name := by
      rintro rfl
      rw [hunknown] at hname
      cases hname
    rw [valuesOf_append, valuesOf_append, valuesOf_cons_of_ne hne]
    exact .same _
  | @omitted _ other _ before after hoptional honce =>
    refine ⟨_, _, rfl, rfl, ?_⟩
    intro name presence form hname
    by_cases heq : other = name
    · subst heq
      rw [hoptional] at hname
      cases hname
      have hnone := valuesOf_eq_nil honce
      rw [valuesOf_append, List.append_eq_nil_iff] at hnone
      rw [valuesOf_append, valuesOf_append, valuesOf_cons_self, hnone.1, hnone.2]
      exact .omitted rfl
    · rw [valuesOf_append, valuesOf_append, valuesOf_cons_of_ne heq]
      exact .same _
  | @field _ other _ _ v w hfield hvalue before after =>
    refine ⟨_, _, rfl, rfl, ?_⟩
    intro name presence form hname
    simp only [valuesOf_append]
    by_cases heq : other = name
    · subst heq
      rw [hfield] at hname
      cases hname
      rw [valuesOf_cons_self, valuesOf_cons_self]
      by_cases honce : valuesOf before other = [] ∧ valuesOf after other = []
      · rw [honce.1, honce.2]
        exact .altered hvalue
      · rw [← List.append_eq_nil_iff, ← List.length_eq_zero_iff, List.length_append] at honce
        refine .repeated ?_ ?_
        all_goals
          rw [List.length_append, List.length_cons]
          omega
    · rw [valuesOf_cons_of_ne heq, valuesOf_cons_of_ne heq]
      exact .same _

theorem fits_record (h : ∀ entries entries', SameFields fields entries entries' →
      decode (.obj entries) = decode (.obj entries')) :
    (Form.record fields).Fits decode := by
  intro v w halters
  obtain ⟨entries, entries', rfl, rfl, hsame⟩ := sameFields_of_alters halters
  exact h entries entries' hsame

theorem SameFields.required (h : SameFields fields entries entries') (name : String)
    (hname : fields.lookup name = some (.required, form)) (hfits : form.Fits decode) :
    Json.required decode entries name = Json.required decode entries' name := by
  have halike := h name .required form hname
  generalize hv : valuesOf entries name = vs, hw : valuesOf entries' name = ws at halike
  cases halike with
  | same => rw [Json.required, Json.required, hv, hw]
  | altered halters =>
    rw [Json.required, Json.required, hv, hw]
    exact hfits _ _ halters
  | repeated hvs hws => rw [required_of_repeated (hv ▸ hvs), required_of_repeated (hw ▸ hws)]
  | omitted hoptional => cases hoptional

theorem SameFields.optional (h : SameFields fields entries entries') (name : String)
    (hname : fields.lookup name = some (.optional, form)) (hfits : form.Fits decode) :
    Json.optional decode entries name = Json.optional decode entries' name := by
  have halike := h name .optional form hname
  generalize hv : valuesOf entries name = vs, hw : valuesOf entries' name = ws at halike
  cases halike with
  | same => rw [Json.optional, Json.optional, hv, hw]
  | altered halters =>
    rw [optional_of_ne_null hv halters.ne_null.1, optional_of_ne_null hw halters.ne_null.2,
      hfits _ _ halters]
  | repeated hvs hws => rw [optional_of_repeated (hv ▸ hvs), optional_of_repeated (hw ▸ hws)]
  | omitted _ => rw [Json.optional, Json.optional, hv, hw]

/-! Plain fields, which most records consist of. -/

/-- A plain field that has to be there. -/
def needed : Presence × Form := (.required, .plain)

/-- A plain field that may be missing or null. -/
def allowed : Presence × Form := (.optional, .plain)

theorem SameFields.needed (h : SameFields fields entries entries') (name : String)
    (hname : fields.lookup name = some Form.needed) :
    Json.required decode entries name = Json.required decode entries' name :=
  h.required name hname (fits_plain decode)

theorem SameFields.allowed (h : SameFields fields entries entries') (name : String)
    (hname : fields.lookup name = some Form.allowed) :
    Json.optional decode entries name = Json.optional decode entries' name :=
  h.optional name hname (fits_plain decode)

/-! ## Writing -/

/-- A value as it is written in a form: its records have all their fields, and no others. -/
inductive Written : Form → Json → Prop where
  | null : Written .plain .null
  | bool (value : Bool) : Written .plain (.bool value)
  | int (value : Int) : Written .plain (.int value)
  | str (value : String) : Written .plain (.str value)
  | list {form : Form} {items : List Json} (h : ∀ item ∈ items, Written form item) :
      Written (.list form) (.arr items)
  | name {alternatives : List (String × Form)} {tag : String}
      (h : alternatives.lookup tag = some .plain) : Written (.choice alternatives) (.str tag)
  | content {alternatives : List (String × Form)} {tag : String} {form : Form} {value : Json}
      (h : alternatives.lookup tag = some form) (hvalue : Written form value) :
      Written (.choice alternatives) (.obj [(tag, value)])
  | record {fields : List (String × Presence × Form)} {entries : List (String × Json)}
      (hnames : entries.map (·.1) = fields.map (·.1))
      (hvalues : ∀ pair ∈ fields.zip entries, Written pair.1.2.2 pair.2.2) :
      Written (.record fields) (.obj entries)

@[simp] theorem written_str (s : String) : Form.plain.Written (.str s) := .str s

@[simp] theorem written_ofInt64 (n : Int64) : Form.plain.Written (ofInt64 n) := .int _

@[simp] theorem written_ofUInt64 (n : UInt64) : Form.plain.Written (ofUInt64 n) := .int _

@[simp] theorem written_ofOption {encode : α → Json} (h : ∀ a, Form.plain.Written (encode a))
    (a : Option α) : Form.plain.Written (ofOption encode a) := by
  cases a with
  | none => exact .null
  | some a => exact h a

@[simp] theorem written_map {encode : α → Json} (h : ∀ a, form.Written (encode a))
    (items : List α) : (Form.list form).Written (.arr (items.map encode)) := by
  refine .list fun item hitem => ?_
  obtain ⟨a, -, rfl⟩ := List.mem_map.mp hitem
  exact h a

/-- All numbers that are written are integers. -/
theorem Written.exact {j : Json} (h : form.Written j) : j.Exact := by
  induction h with
  | null => exact .null
  | bool value => exact .bool value
  | int value => exact .int value
  | str value => exact .str value
  | list _ ih => exact .arr ih
  | name _ => exact .str _
  | content _ _ ih =>
    refine .obj fun entry hentry => ?_
    cases List.mem_singleton.mp hentry
    exact ih
  | @record fields entries hnames _ ih =>
    have hlength : entries.length = fields.length := by
      simpa using congrArg List.length hnames
    have hentries : (fields.zip entries).map Prod.snd = entries :=
      List.map_snd_zip (Nat.le_of_eq hlength)
    refine .obj fun entry hentry => ?_
    rw [← hentries] at hentry
    obtain ⟨pair, hpair, rfl⟩ := List.mem_map.mp hentry
    exact ih pair hpair

end Form

end IntervalFlow.Json
