import IntervalFlow.Json.Reader
import IntervalFlow.Json.Writer

/-!
# JSON text

Reading undoes writing: a value whose numbers are all integers is read back from the text it is
written as (`parse?_render`). A number ends where no character of a number follows, so each kind of
text is read in front of an arbitrary rest, and the levels of the reader are paid for by the length
of the text.
-/

namespace IntervalFlow.Json

/-- Every number in the value is an integer. -/
inductive Exact : Json → Prop where
  | null : Exact .null
  | bool (value : Bool) : Exact (.bool value)
  | int (value : Int) : Exact (.int value)
  | str (value : String) : Exact (.str value)
  | arr {items : List Json} (h : ∀ item ∈ items, Exact item) : Exact (.arr items)
  | obj {fields : List (String × Json)} (h : ∀ field ∈ fields, Exact field.2) : Exact (.obj fields)

namespace Reader

/-! ## Numbers -/

/-- No number goes on with this text. -/
def EndsNumber (rest : List Char) : Prop :=
  ∀ c ∈ rest.head?, c.isDigit = false ∧ c ≠ '.' ∧ c ≠ 'e' ∧ c ≠ 'E'

theorem endsNumber_cons {c : Char} (h : c.isDigit = false ∧ c ≠ '.' ∧ c ≠ 'e' ∧ c ≠ 'E')
    (rest : List Char) : EndsNumber (c :: rest) := by
  intro d hd
  cases hd
  exact h

theorem digits?_append {ds rest : List Char} (hds : ∀ d ∈ ds, d.isDigit = true) (hne : ds ≠ [])
    (hrest : EndsNumber rest) : digits? (ds ++ rest) = some (ds, rest) := by
  have htake : (ds ++ rest).takeWhile Char.isDigit = ds := by
    rw [List.takeWhile_append_of_pos hds]
    cases rest with
    | nil => simp
    | cons c cs => simp [(hrest c rfl).1]
  have hdrop : (ds ++ rest).dropWhile Char.isDigit = rest := by
    rw [List.dropWhile_append_of_pos hds]
    cases rest with
    | nil => simp
    | cons c cs => simp [(hrest c rfl).1]
  rw [digits?, htake, hdrop]
  cases ds with
  | nil => exact absurd rfl hne
  | cons d ds => rfl

/-- A number other than zero is written without a leading zero. -/
theorem head?_toDigits {n : Nat} (hn : n ≠ 0) : (Nat.toDigits 10 n).head? ≠ some '0' := by
  induction n using Nat.strongRecOn with
  | ind n ih =>
    by_cases hlt : n < 10
    · have hdigit : ∀ d < 10, d ≠ 0 → d.digitChar ≠ '0' := by decide
      rw [Nat.toDigits_of_lt_base hlt]
      simpa using hdigit n hlt hn
    · have hrest := ih (n / 10) (by omega) (by omega)
      rw [Nat.toDigits_of_base_le (by decide) (by omega), List.head?_append]
      cases hhead : (Nat.toDigits 10 (n / 10)).head? with
      | none => exact absurd (List.head?_eq_none_iff.mp hhead) Nat.toDigits_ne_nil
      | some c => rwa [hhead] at hrest

theorem integer?_toDigits (n : Nat) {rest : List Char} (hrest : EndsNumber rest) :
    integer? (Nat.toDigits 10 n ++ rest) = some (Nat.toDigits 10 n, rest) := by
  have hdigits : digits? (Nat.toDigits 10 n ++ rest) = some (Nat.toDigits 10 n, rest) :=
    digits?_append (fun d hd => Nat.isDigit_of_mem_toDigits (by decide) (by decide) hd)
      Nat.toDigits_ne_nil hrest
  rw [integer?, hdigits]
  split
  · rename_i heq
    simp only [Option.some.injEq, Prod.mk.injEq] at heq
    by_cases hn : n = 0
    · subst hn
      cases heq.1
    · exact absurd (by rw [heq.1]; rfl) (head?_toDigits hn)
  · rfl

theorem fraction?_of_ends {rest : List Char} (h : EndsNumber rest) :
    fraction? rest = some ([], rest) := by
  rw [fraction?.eq_def]
  split
  · exact absurd rfl (h '.' rfl).2.1
  · rfl

theorem exponent?_of_ends {rest : List Char} (h : EndsNumber rest) :
    exponent? rest = some ([], rest) := by
  cases rest with
  | nil => rfl
  | cons c rest =>
    have hc := (h c rfl).2.2
    rw [exponent?.eq_def]
    exact if_neg (by simp [hc])

/-- A negative zero is not written as an integer. -/
theorem unsigned?_toDigits (negative : Bool) (n : Nat) (hn : negative = true → n ≠ 0)
    {rest : List Char} (hrest : EndsNumber rest) :
    unsigned? negative (Nat.toDigits 10 n ++ rest) =
      some (.int (if negative then -n else n), rest) := by
  have hvalue : natOfDigits (Nat.toDigits 10 n) = n :=
    Nat.ofDigitChars_toDigits (by decide) (by decide)
  rw [unsigned?]
  simp only [integer?_toDigits n hrest, fraction?_of_ends hrest, exponent?_of_ends hrest,
    Option.bind_eq_bind, Option.bind_some, hvalue, List.append_nil, Option.pure_def]
  exact if_pos ⟨trivial, fun hboth => hn hboth.1 hboth.2⟩

theorem toList_natCast (n : Nat) : (toString (n : Int)).toList = Nat.toDigits 10 n :=
  Nat.toList_repr

theorem toList_negSucc (n : Nat) :
    (toString (Int.negSucc n)).toList = '-' :: Nat.toDigits 10 (n + 1) := by
  change ("-" ++ (n + 1).repr).toList = _
  rw [String.toList_append, Nat.toList_repr]
  rfl

/-- The text of an integer starts with a sign or a digit. -/
theorem head_toString (n : Int) :
    ∃ c cs, (toString n).toList = c :: cs ∧ (c = '-' ∨ c.isDigit = true) := by
  cases n with
  | ofNat n =>
    cases hdigits : Nat.toDigits 10 n with
    | nil => exact absurd hdigits Nat.toDigits_ne_nil
    | cons d ds =>
      have hd : d ∈ Nat.toDigits 10 n := hdigits ▸ List.mem_cons_self
      exact ⟨d, ds, (toList_natCast n).trans hdigits,
        .inr (Nat.isDigit_of_mem_toDigits (by decide) (by decide) hd)⟩
  | negSucc n => exact ⟨'-', _, toList_negSucc n, .inl rfl⟩

theorem number?_toString (n : Int) {rest : List Char} (hrest : EndsNumber rest) :
    number? ((toString n).toList ++ rest) = some (.int n, rest) := by
  cases n with
  | ofNat n =>
    rw [Int.ofNat_eq_natCast, toList_natCast, number?.eq_def]
    split
    · rename_i digits heq
      have hminus : '-' ∈ Nat.toDigits 10 n := by
        cases hdigits : Nat.toDigits 10 n with
        | nil => exact absurd hdigits Nat.toDigits_ne_nil
        | cons d ds =>
          rw [hdigits] at heq
          cases heq
          exact List.mem_cons_self
      exact absurd (Nat.isDigit_of_mem_toDigits (by decide) (by decide) hminus) (by decide)
    · exact unsigned?_toDigits false n (by simp) hrest
  | negSucc n =>
    rw [toList_negSucc]
    exact unsigned?_toDigits true (n + 1) (by simp) hrest

/-! ## Strings -/

theorem hexDigit?_hexDigit : ∀ d < 16, hexDigit? (Writer.hexDigit d) = some d := by
  decide

theorem codeUnit?_of_lt {n : Nat} (h : n < 0x20) :
    codeUnit? '0' '0' (Writer.hexDigit (n / 16)) (Writer.hexDigit (n % 16)) = some n := by
  have hzero : hexDigit? '0' = some 0 := rfl
  rw [codeUnit?, hzero, hexDigit?_hexDigit _ (by omega), hexDigit?_hexDigit _ (by omega)]
  simp only [Option.bind_eq_bind, Option.bind_some, Option.pure_def, Option.some.injEq]
  omega

/-- A letter after a backslash, other than the one of a code unit, is read as what it stands for. -/
theorem string?_escaped {letter c : Char} (h : escaped? letter = some c) (rest read : List Char) :
    string? ('\\' :: letter :: rest) read = string? rest (c :: read) := by
  rw [string?, h]
  rintro _ _ _ _ _ rfl
  cases h

/-- One character is read back, whether it is escaped or not. -/
theorem string?_escape (c : Char) (rest read : List Char) :
    string? (Writer.escape c ++ rest) read = string? rest (c :: read) := by
  unfold Writer.escape
  by_cases hquote : c = '"'
  · subst hquote
    exact string?_escaped rfl rest read
  rw [if_neg hquote]
  by_cases hbackslash : c = '\\'
  · subst hbackslash
    exact string?_escaped rfl rest read
  rw [if_neg hbackslash]
  by_cases hnewline : c = '\n'
  · subst hnewline
    exact string?_escaped rfl rest read
  rw [if_neg hnewline]
  by_cases hreturn : c = '\r'
  · subst hreturn
    exact string?_escaped rfl rest read
  rw [if_neg hreturn]
  by_cases htab : c = '\t'
  · subst htab
    exact string?_escaped rfl rest read
  rw [if_neg htab]
  by_cases hcontrol : c.toNat < 0x20
  · rw [if_pos hcontrol]
    simp only [List.cons_append, List.nil_append, string?, codeUnit?_of_lt hcontrol]
    rw [if_pos (.inl (by omega)), Char.ofNat_toNat]
  · rw [if_neg hcontrol, List.singleton_append, string?, if_neg hcontrol]
    · exact hquote
    · intro _ _ _ _ _ h
      exact absurd h hbackslash
    · intro _ _ h
      exact absurd h hbackslash

theorem string?_flatMap_escape (cs rest read : List Char) :
    string? (cs.flatMap Writer.escape ++ '"' :: rest) read =
      some (String.ofList (read.reverse ++ cs), rest) := by
  induction cs generalizing read with
  | nil => simp [string?]
  | cons c cs ih =>
    rw [List.flatMap_cons, List.append_assoc, string?_escape, ih]
    simp

/-- The text of a string after its opening quote. -/
theorem toList_quote (s : String) :
    (Writer.quote s).toList = '"' :: (s.toList.flatMap Writer.escape ++ ['"']) := by
  simp [Writer.quote]

theorem string?_quote (s : String) (rest : List Char) :
    string? (s.toList.flatMap Writer.escape ++ '"' :: rest) [] = some (s, rest) := by
  rw [string?_flatMap_escape]
  simp

/-! ## Values -/

theorem skipBlanks_cons {c : Char} (h : isBlank c = false) (rest : List Char) :
    skipBlanks (c :: rest) = c :: rest := by
  rw [skipBlanks, List.dropWhile_cons, if_neg (by simp [h])]

/-- What starts a number starts nothing else. -/
theorem ne_of_number {c d : Char} (hc : c = '-' ∨ c.isDigit = true)
    (hd : d ∈ [' ', '\n', '\r', '\t', ']', '"', '[', '\x7b', 'n', 't', 'f']) : c ≠ d := by
  have hnone : [' ', '\n', '\r', '\t', ']', '"', '[', '\x7b', 'n', 't', 'f'].all
      (fun d => d ≠ '-' && !d.isDigit) = true := by decide
  rintro rfl
  have hneither := List.all_eq_true.mp hnone c hd
  rcases hc with rfl | hdigit
  · exact absurd hneither (by decide)
  · simp [hdigit] at hneither

theorem isBlank_of_number {c : Char} (hc : c = '-' ∨ c.isDigit = true) : isBlank c = false := by
  simp [isBlank, ne_of_number hc]

theorem value?_number {c : Char} (hc : c = '-' ∨ c.isDigit = true) (levels : Nat) (cs : List Char) :
    value? (levels + 1) (c :: cs) = number? (c :: cs) := by
  rw [value?, skipBlanks_cons (isBlank_of_number hc)]
  split
  all_goals first
    | rfl
    | rename_i heq
      exact absurd (List.cons.inj heq).1 (ne_of_number hc (by simp))

theorem value?_quote (levels : Nat) (cs : List Char) :
    value? (levels + 1) ('"' :: cs) = (string? cs []).map fun (s, rest) => (.str s, rest) :=
  rfl

theorem value?_bracket {c : Char} (hblank : isBlank c = false) (hclosing : c ≠ ']') (levels : Nat)
    (cs : List Char) : value? (levels + 1) ('[' :: c :: cs) = items? levels [] (c :: cs) := by
  rw [value?, skipBlanks_cons (by decide)]
  simp only [skipBlanks_cons hblank]
  split
  · rename_i heq
    exact absurd (List.cons.inj heq).1 hclosing
  · rfl

theorem value?_brace (levels : Nat) (cs : List Char) :
    value? (levels + 1) ('\x7b' :: '"' :: cs) = fields? levels [] ('"' :: cs) :=
  rfl

/-! The texts of lists and objects. -/

theorem toList_render_arr (items : List Json) :
    (arr items).render.toList = '[' :: ((renderItems items).toList ++ [']']) := by
  simp [render]

theorem toList_render_obj (fields : List (String × Json)) :
    (obj fields).render.toList = '\x7b' :: ((renderFields fields).toList ++ ['\x7d']) := by
  simp [render]

theorem toList_renderItems_cons {item : Json} {items : List Json} (h : items ≠ []) :
    (renderItems (item :: items)).toList =
      item.render.toList ++ ',' :: (renderItems items).toList := by
  rw [renderItems]
  · simp
  · exact h

theorem toList_renderFields_single (name : String) (value : Json) :
    (renderFields [(name, value)]).toList =
      '"' :: (name.toList.flatMap Writer.escape ++ '"' :: ':' :: value.render.toList) := by
  simp [renderFields, toList_quote]

theorem toList_renderFields_cons {name : String} {value : Json} {fields : List (String × Json)}
    (h : fields ≠ []) :
    (renderFields ((name, value) :: fields)).toList =
      '"' :: (name.toList.flatMap Writer.escape ++
        '"' :: ':' :: (value.render.toList ++ ',' :: (renderFields fields).toList)) := by
  rw [renderFields]
  · simp [toList_quote]
  · exact h

/-- The text of a value starts with no blank and with no closing bracket. -/
theorem head_render {j : Json} (h : j.Exact) :
    ∃ c cs, j.render.toList = c :: cs ∧ isBlank c = false ∧ c ≠ ']' := by
  cases h with
  | null => exact ⟨'n', _, rfl, by decide, by decide⟩
  | bool value =>
    cases value with
    | true => exact ⟨'t', _, rfl, by decide, by decide⟩
    | false => exact ⟨'f', _, rfl, by decide, by decide⟩
  | int value =>
    obtain ⟨c, cs, htext, hc⟩ := head_toString value
    exact ⟨c, cs, by rw [render, htext], isBlank_of_number hc, ne_of_number hc (by decide)⟩
  | str value => exact ⟨'"', _, toList_quote value, by decide, by decide⟩
  | arr _ => exact ⟨'[', _, toList_render_arr _, by decide, by decide⟩
  | obj _ => exact ⟨'\x7b', _, toList_render_obj _, by decide, by decide⟩

theorem head_renderItems {item : Json} (h : item.Exact) (items : List Json) :
    ∃ c cs, (renderItems (item :: items)).toList = c :: cs ∧ isBlank c = false ∧ c ≠ ']' := by
  obtain ⟨c, cs, htext, hc⟩ := head_render h
  by_cases hne : items = []
  · subst hne
    exact ⟨c, cs, htext, hc⟩
  · rw [toList_renderItems_cons hne, htext]
    exact ⟨c, _, rfl, hc⟩

theorem head_renderFields (field : String × Json) (fields : List (String × Json)) :
    ∃ cs, (renderFields (field :: fields)).toList = '"' :: cs := by
  by_cases hne : fields = []
  · subst hne
    exact ⟨_, toList_renderFields_single field.1 field.2⟩
  · exact ⟨_, toList_renderFields_cons hne⟩

/-! ## Reading back -/

/-- A value is read back from its text, for which as many levels suffice as it has characters. -/
def ReadBack (j : Json) : Prop :=
  ∀ (levels : Nat) (rest : List Char), j.render.toList.length ≤ levels + 1 → EndsNumber rest →
    value? (levels + 1) (j.render.toList ++ rest) = some (j, rest)

def ItemsReadBack (items : List Json) : Prop :=
  ∀ (levels : Nat) (read : List Json) (rest : List Char),
    (renderItems items).toList.length ≤ levels →
      items? (levels + 1) read ((renderItems items).toList ++ ']' :: rest) =
        some (.arr (read.reverse ++ items), rest)

def FieldsReadBack (fields : List (String × Json)) : Prop :=
  ∀ (levels : Nat) (read : List (String × Json)) (rest : List Char),
    (renderFields fields).toList.length ≤ levels →
      fields? (levels + 1) read ((renderFields fields).toList ++ '\x7d' :: rest) =
        some (.obj (read.reverse ++ fields), rest)

/-- The text of a value is not empty, so it pays for the first level. -/
theorem ReadBack.value?_eq {j : Json} (h : ReadBack j) (hexact : j.Exact) {levels : Nat}
    {rest : List Char} (hlevels : j.render.toList.length ≤ levels) (hrest : EndsNumber rest) :
    value? levels (j.render.toList ++ rest) = some (j, rest) := by
  obtain ⟨c, cs, htext, -⟩ := head_render hexact
  cases levels with
  | zero => simp [htext] at hlevels
  | succ levels => exact h levels rest hlevels hrest

theorem itemsReadBack_single {item : Json} (hexact : item.Exact) (h : ReadBack item) :
    ItemsReadBack [item] := by
  intro levels read rest hlevels
  rw [renderItems] at hlevels ⊢
  rw [items?, h.value?_eq hexact hlevels (endsNumber_cons (by decide) rest)]
  simp only [skipBlanks_cons (show isBlank ']' = false by decide)]
  simp

theorem itemsReadBack_cons {item : Json} {items : List Json} (hne : items ≠ [])
    (hexact : item.Exact) (hitem : ReadBack item) (hitems : ItemsReadBack items) :
    ItemsReadBack (item :: items) := by
  intro levels read rest hlevels
  rw [toList_renderItems_cons hne] at hlevels ⊢
  simp only [List.length_append, List.length_cons] at hlevels
  obtain ⟨levels, rfl⟩ : ∃ k, levels = k + 1 := ⟨levels - 1, by omega⟩
  rw [List.append_assoc, List.cons_append, items?,
    hitem.value?_eq hexact (by omega) (endsNumber_cons (by decide) _)]
  simp only [skipBlanks_cons (show isBlank ',' = false by decide)]
  rw [hitems levels _ _ (by omega)]
  simp

theorem fieldsReadBack_single {name : String} {value : Json} (hexact : value.Exact)
    (h : ReadBack value) : FieldsReadBack [(name, value)] := by
  intro levels read rest hlevels
  rw [toList_renderFields_single] at hlevels ⊢
  simp only [List.length_append, List.length_cons] at hlevels
  simp only [List.cons_append, List.append_assoc]
  rw [fields?, skipBlanks_cons (by decide)]
  simp only [string?_quote, skipBlanks_cons (show isBlank ':' = false by decide)]
  rw [h.value?_eq hexact (by omega) (endsNumber_cons (by decide) rest)]
  simp only [skipBlanks_cons (show isBlank '\x7d' = false by decide)]
  simp

theorem fieldsReadBack_cons {name : String} {value : Json} {fields : List (String × Json)}
    (hne : fields ≠ []) (hexact : value.Exact) (hvalue : ReadBack value)
    (hfields : FieldsReadBack fields) : FieldsReadBack ((name, value) :: fields) := by
  intro levels read rest hlevels
  rw [toList_renderFields_cons hne] at hlevels ⊢
  simp only [List.length_append, List.length_cons] at hlevels
  obtain ⟨levels, rfl⟩ : ∃ k, levels = k + 1 := ⟨levels - 1, by omega⟩
  simp only [List.cons_append, List.append_assoc]
  rw [fields?, skipBlanks_cons (by decide)]
  simp only [string?_quote, skipBlanks_cons (show isBlank ':' = false by decide)]
  rw [hvalue.value?_eq hexact (by omega) (endsNumber_cons (by decide) _)]
  simp only [skipBlanks_cons (show isBlank ',' = false by decide)]
  rw [hfields levels _ _ (by omega)]
  simp

theorem readBack_null : ReadBack .null := by
  intro levels rest _ _
  rfl

theorem readBack_bool (value : Bool) : ReadBack (.bool value) := by
  intro levels rest _ _
  cases value with
  | true => rfl
  | false => rfl

theorem readBack_int (n : Int) : ReadBack (.int n) := by
  intro levels rest _ hrest
  obtain ⟨c, cs, htext, hc⟩ := head_toString n
  have hread := number?_toString n hrest
  rw [render, htext, List.cons_append, value?_number hc]
  rwa [htext] at hread

theorem readBack_str (s : String) : ReadBack (.str s) := by
  intro levels rest _ _
  rw [render, toList_quote]
  simp only [List.cons_append, List.append_assoc, List.nil_append]
  rw [value?_quote, string?_quote, Option.map_some]

theorem readBack_arr {items : List Json} (hexact : ∀ item ∈ items, item.Exact)
    (h : items ≠ [] → ItemsReadBack items) : ReadBack (.arr items) := by
  intro levels rest hlevels _
  rw [toList_render_arr] at hlevels ⊢
  simp only [List.length_append, List.length_cons, List.length_nil] at hlevels
  simp only [List.cons_append, List.append_assoc, List.nil_append]
  cases items with
  | nil => rfl
  | cons item items =>
    obtain ⟨levels, rfl⟩ : ∃ k, levels = k + 1 := ⟨levels - 1, by omega⟩
    have hread := h (List.cons_ne_nil _ _) levels [] rest (by omega)
    obtain ⟨c, cs, htext, hblank, hclosing⟩ := head_renderItems (hexact item (by simp)) items
    rw [htext, List.cons_append] at hread ⊢
    rw [value?_bracket hblank hclosing]
    exact hread

theorem readBack_obj {fields : List (String × Json)} (h : fields ≠ [] → FieldsReadBack fields) :
    ReadBack (.obj fields) := by
  intro levels rest hlevels _
  rw [toList_render_obj] at hlevels ⊢
  simp only [List.length_append, List.length_cons, List.length_nil] at hlevels
  simp only [List.cons_append, List.append_assoc, List.nil_append]
  cases fields with
  | nil => rfl
  | cons field fields =>
    obtain ⟨levels, rfl⟩ : ∃ k, levels = k + 1 := ⟨levels - 1, by omega⟩
    have hread := h (List.cons_ne_nil _ _) levels [] rest (by omega)
    obtain ⟨cs, htext⟩ := head_renderFields field fields
    rw [htext, List.cons_append] at hread ⊢
    rw [value?_brace]
    exact hread

/-- By induction over the value, along with its items and its fields. -/
theorem readBack_of_exact {j : Json} (h : j.Exact) : ReadBack j := by
  refine render.induct (fun j => j.Exact → ReadBack j)
    (fun fields => (∀ field ∈ fields, field.2.Exact) → fields ≠ [] → FieldsReadBack fields)
    (fun items => (∀ item ∈ items, item.Exact) → items ≠ [] → ItemsReadBack items)
    ?null ?true ?false ?int ?real ?str ?arr ?obj ?noItem ?item ?items ?noField ?field ?fields j h
  case null => exact fun _ => readBack_null
  case true => exact fun _ => readBack_bool true
  case false => exact fun _ => readBack_bool false
  case int => exact fun n _ => readBack_int n
  case real =>
    intro text hexact
    cases hexact
  case str => exact fun s _ => readBack_str s
  case arr =>
    intro items ih hexact
    cases hexact with
    | arr hitems => exact readBack_arr hitems (ih hitems)
  case obj =>
    intro fields ih hexact
    cases hexact with
    | obj hfields => exact readBack_obj (ih hfields)
  case noItem => exact fun _ hne => absurd rfl hne
  case item =>
    intro item ih hexact _
    have hitem := hexact item (by simp)
    exact itemsReadBack_single hitem (ih hitem)
  case items =>
    intro item items hne ihitem ihitems hexact _
    have hitem := hexact item (by simp)
    exact itemsReadBack_cons hne hitem (ihitem hitem)
      (ihitems (fun i hi => hexact i (List.mem_cons_of_mem _ hi)) hne)
  case noField => exact fun _ hne => absurd rfl hne
  case field =>
    intro name value ih hexact _
    have hvalue := hexact (name, value) (by simp)
    exact fieldsReadBack_single hvalue (ih hvalue)
  case fields =>
    intro name value fields hne ihvalue ihfields hexact _
    have hvalue := hexact (name, value) (by simp)
    exact fieldsReadBack_cons hne hvalue (ihvalue hvalue)
      (ihfields (fun f hf => hexact f (List.mem_cons_of_mem _ hf)) hne)

end Reader

/-- A value is read back from its text if all its numbers are integers. -/
theorem parse?_render {j : Json} (h : j.Exact) : parse? j.render = some j := by
  have hread := Reader.readBack_of_exact h j.render.toList.length [] (Nat.le_succ _)
    (by simp [Reader.EndsNumber])
  rw [List.append_nil] at hread
  simp only [parse?, hread]
  rfl

end IntervalFlow.Json
