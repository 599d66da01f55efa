import IntervalFlow.Interval.Basic
import IntervalFlow.Proofs.Bound

/-!
# Intervals — containment

What the analysis needs of the lattice: `isWithin` on bounds, `join` and `widen` as upper bounds,
`narrow` between its arguments, `restrict` as intersection. Statements about members need no
well-formedness, since an interval with a member is well-formed.
-/

namespace IntervalFlow.Interval

/-! ## Bounds -/

/-- Containment in terms of the ends. -/
theorem bounded_isWithin_bounded {l u l' u' : Bound} :
    (bounded l u).isWithin (bounded l' u') = true ↔ l ≤ u ∧ l' ≤ u' ∧ l' ≤ l ∧ u ≤ u' := by
  rw [isWithin, order?]
  by_cases hwf : l ≤ u ∧ l' ≤ u'
  · rw [if_neg (not_not.mpr hwf)]
    by_cases heq : l = l' ∧ u = u'
    · rw [if_pos heq]
      exact ⟨fun _ => ⟨hwf.1, hwf.2, heq.1.ge, heq.2.le⟩, fun _ => rfl⟩
    · rw [if_neg heq]
      by_cases hin : l' ≤ l ∧ u ≤ u'
      · rw [if_pos hin]
        exact ⟨fun _ => ⟨hwf.1, hwf.2, hin.1, hin.2⟩, fun _ => rfl⟩
      · rw [if_neg hin]
        refine ⟨fun h => ?_, fun h => absurd h.2.2 hin⟩
        by_cases hout : l ≤ l' ∧ u' ≤ u
        · rw [if_pos hout] at h
          cases h
        · rw [if_neg hout] at h
          cases h
  · rw [if_pos hwf]
    refine ⟨fun h => ?_, fun h => absurd ⟨h.1, h.2.1⟩ hwf⟩
    cases h

/-! ## Members -/

@[simp] theorem not_mem_bottom (v : Int64) : v ∉ bottom := id

@[simp] theorem mem_bounded {v : Int64} {l u : Bound} :
    v ∈ bounded l u ↔ l ≤ .fin v ∧ .fin v ≤ u := Iff.rfl

@[simp] theorem mem_top (v : Int64) : v ∈ top := ⟨Bound.negInf_le _, Bound.le_posInf _⟩

theorem mem_constant_iff {v w : Int64} : v ∈ constant w ↔ v = w := by
  rw [constant, mem_bounded, Bound.fin_le_fin, Bound.fin_le_fin, ← Int64.toInt_inj]
  omega

theorem mem_constant (v : Int64) : v ∈ constant v := mem_constant_iff.mpr rfl

theorem mem_range {a b v : Int64} (h : a.toInt ≤ v.toInt ∧ v.toInt ≤ b.toInt ∨
    b.toInt ≤ v.toInt ∧ v.toInt ≤ a.toInt) : v ∈ range a b := by
  rcases h with ⟨hlower, hupper⟩ | ⟨hlower, hupper⟩
  · exact ⟨min_le_of_left_le (Bound.fin_le_fin.mpr hlower),
      le_max_of_le_right (Bound.fin_le_fin.mpr hupper)⟩
  · exact ⟨min_le_of_right_le (Bound.fin_le_fin.mpr hlower),
      le_max_of_le_left (Bound.fin_le_fin.mpr hupper)⟩

theorem wellFormed_of_mem {v : Int64} {a : Interval} (h : v ∈ a) : a.WellFormed := by
  cases a with
  | bottom => exact absurd h (not_mem_bottom v)
  | bounded l u => exact h.1.trans h.2

@[simp] theorem wellFormed_bottom : bottom.WellFormed := trivial

@[simp] theorem wellFormed_top : top.WellFormed := Bound.negInf_le _

@[simp] theorem wellFormed_constant (v : Int64) : (constant v).WellFormed := le_refl (Bound.fin v)

@[simp] theorem wellFormed_atLeast (v : Int64) : (atLeast v).WellFormed := Bound.le_posInf _

@[simp] theorem wellFormed_atMost (v : Int64) : (atMost v).WellFormed := Bound.negInf_le _

@[simp] theorem wellFormed_between (a b : Bound) : (between a b).WellFormed := min_le_max

/-! ## Containment -/

@[simp] theorem bottom_isWithin (a : Interval) : bottom.isWithin a = true := by
  cases a <;> rfl

/-- An interval around bounds has bounds itself. -/
theorem exists_bounds_of_isWithin {l u : Bound} {a : Interval}
    (h : (bounded l u).isWithin a = true) :
    ∃ l' u', a = bounded l' u' ∧ l ≤ u ∧ l' ≤ u' ∧ l' ≤ l ∧ u ≤ u' := by
  cases a with
  | bottom => cases h
  | bounded l' u' => exact ⟨l', u', rfl, bounded_isWithin_bounded.mp h⟩

theorem wellFormed_of_isWithin {a b : Interval} (h : a.isWithin b = true) : a.WellFormed := by
  cases a with
  | bottom => trivial
  | bounded l u =>
    obtain ⟨l', u', -, hwf, -⟩ := exists_bounds_of_isWithin h
    exact hwf

theorem isWithin_refl {a : Interval} (h : a.WellFormed) : a.isWithin a = true := by
  cases a with
  | bottom => rfl
  | bounded l u => exact bounded_isWithin_bounded.mpr ⟨h, h, le_rfl, le_rfl⟩

theorem isWithin_trans {a b c : Interval} (hab : a.isWithin b = true) (hbc : b.isWithin c = true) :
    a.isWithin c = true := by
  cases a with
  | bottom => exact bottom_isWithin c
  | bounded l u =>
    cases b with
    | bottom => cases hab
    | bounded l' u' =>
      cases c with
      | bottom => cases hbc
      | bounded l'' u'' =>
        rw [bounded_isWithin_bounded] at *
        exact ⟨hab.1, hbc.2.1, hbc.2.2.1.trans hab.2.2.1, hab.2.2.2.trans hbc.2.2.2⟩

theorem isWithin_antisymm {a b : Interval} (hab : a.isWithin b = true) (hba : b.isWithin a = true) :
    a = b := by
  cases a with
  | bottom =>
    cases b with
    | bottom => rfl
    | bounded l u => cases hba
  | bounded l u =>
    cases b with
    | bottom => cases hab
    | bounded l' u' =>
      obtain ⟨-, -, hl, hu⟩ := bounded_isWithin_bounded.mp hab
      obtain ⟨-, -, hl', hu'⟩ := bounded_isWithin_bounded.mp hba
      rw [le_antisymm hl' hl, le_antisymm hu hu']

theorem isWithin_top {a : Interval} (h : a.WellFormed) : a.isWithin top = true := by
  cases a with
  | bottom => exact bottom_isWithin _
  | bounded l u =>
    exact bounded_isWithin_bounded.mpr ⟨h, wellFormed_top, Bound.negInf_le l, Bound.le_posInf u⟩

theorem constant_isWithin {v : Int64} {a : Interval} (h : v ∈ a) :
    (constant v).isWithin a = true := by
  cases a with
  | bottom => exact absurd h (not_mem_bottom v)
  | bounded l u =>
    exact bounded_isWithin_bounded.mpr ⟨le_rfl, h.1.trans h.2, h.1, h.2⟩

/-- A constant holds nothing smaller but `bottom`. -/
theorem eq_constant_of_isWithin {l u : Bound} {v : Int64}
    (h : (bounded l u).isWithin (constant v) = true) : bounded l u = constant v := by
  obtain ⟨hwf, -, hl, hu⟩ := bounded_isWithin_bounded.mp h
  rw [constant, le_antisymm (hwf.trans hu) hl, le_antisymm hu (hl.trans hwf)]

theorem mem_of_isWithin {v : Int64} {a b : Interval} (h : a.isWithin b = true) (hv : v ∈ a) :
    v ∈ b := by
  cases a with
  | bottom => exact absurd hv (not_mem_bottom v)
  | bounded l u =>
    cases b with
    | bottom => cases h
    | bounded l' u' =>
      obtain ⟨-, -, hl, hu⟩ := bounded_isWithin_bounded.mp h
      exact ⟨hl.trans hv.1, hv.2.trans hu⟩

/-! ## Join -/

theorem join_of_wellFormed {l u l' u' : Bound} (h : l ≤ u) (h' : l' ≤ u') :
    (bounded l u).join (bounded l' u') = bounded (min l l') (max u u') := if_pos ⟨h, h'⟩

theorem wellFormed_join {a b : Interval} (ha : a.WellFormed) (hb : b.WellFormed) :
    (a.join b).WellFormed := by
  cases a with
  | bottom => exact hb
  | bounded l u =>
    cases b with
    | bottom => exact ha
    | bounded l' u' =>
      rw [join_of_wellFormed ha hb]
      exact (min_le_left l l').trans (le_trans ha (le_max_left u u'))

theorem isWithin_join_left {a b : Interval} (ha : a.WellFormed) (hb : b.WellFormed) :
    a.isWithin (a.join b) = true := by
  have hwf := wellFormed_join ha hb
  cases a with
  | bottom => exact bottom_isWithin _
  | bounded l u =>
    cases b with
    | bottom => exact isWithin_refl ha
    | bounded l' u' =>
      rw [join_of_wellFormed ha hb] at hwf ⊢
      exact bounded_isWithin_bounded.mpr ⟨ha, hwf, min_le_left l l', le_max_left u u'⟩

theorem isWithin_join_right {a b : Interval} (ha : a.WellFormed) (hb : b.WellFormed) :
    b.isWithin (a.join b) = true := by
  have hwf := wellFormed_join ha hb
  cases a with
  | bottom => exact isWithin_refl hb
  | bounded l u =>
    cases b with
    | bottom => exact bottom_isWithin _
    | bounded l' u' =>
      rw [join_of_wellFormed ha hb] at hwf ⊢
      exact bounded_isWithin_bounded.mpr ⟨hb, hwf, min_le_right l l', le_max_right u u'⟩

theorem join_isWithin {a b c : Interval} (ha : a.isWithin c = true) (hb : b.isWithin c = true) :
    (a.join b).isWithin c = true := by
  cases a with
  | bottom => exact hb
  | bounded l u =>
    cases b with
    | bottom => exact ha
    | bounded l' u' =>
      cases c with
      | bottom => cases ha
      | bounded lc uc =>
        obtain ⟨hwf, hc, hl, hu⟩ := bounded_isWithin_bounded.mp ha
        obtain ⟨hwf', -, hl', hu'⟩ := bounded_isWithin_bounded.mp hb
        rw [join_of_wellFormed hwf hwf']
        exact bounded_isWithin_bounded.mpr
          ⟨(min_le_left l l').trans (hwf.trans (le_max_left u u')), hc, le_min hl hl', max_le hu hu'⟩

@[simp] theorem join_bottom (a : Interval) : a.join bottom = a := by
  cases a <;> rfl

theorem exists_bounds_join (l u l' u' : Bound) :
    ∃ p q, (bounded l u).join (bounded l' u') = bounded p q := by
  rw [join]
  split
  · exact ⟨_, _, rfl⟩
  · exact ⟨.negInf, .posInf, rfl⟩

/-- A merge that gives up answers with everything. -/
theorem join_of_malformed {l u l' u' : Bound} (h : ¬ (l ≤ u ∧ l' ≤ u')) :
    (bounded l u).join (bounded l' u') = top := if_neg h

theorem top_join_bounded (l u : Bound) : top.join (bounded l u) = top := by
  by_cases h : l ≤ u
  · rw [top, join_of_wellFormed (Bound.negInf_le _) h, min_eq_left (Bound.negInf_le l),
      max_eq_left (Bound.le_posInf u)]
  · exact join_of_malformed fun hboth => h hboth.2

theorem bounded_join_top (l u : Bound) : (bounded l u).join top = top := by
  by_cases h : l ≤ u
  · rw [top, join_of_wellFormed h (Bound.negInf_le _), min_eq_right (Bound.negInf_le l),
      max_eq_right (Bound.le_posInf u)]
  · exact join_of_malformed fun hboth => h hboth.1

theorem join_assoc (a b c : Interval) : (a.join b).join c = a.join (b.join c) := by
  cases a with
  | bottom => rfl
  | bounded la ua =>
    cases b with
    | bottom => rfl
    | bounded lb ub =>
      cases c with
      | bottom => rw [join_bottom, join_bottom]
      | bounded lc uc =>
        by_cases ha : la ≤ ua
        · by_cases hb : lb ≤ ub
          · by_cases hc : lc ≤ uc
            · have hab : min la lb ≤ max ua ub :=
                (min_le_left la lb).trans (ha.trans (le_max_left ua ub))
              have hbc : min lb lc ≤ max ub uc :=
                (min_le_left lb lc).trans (hb.trans (le_max_left ub uc))
              rw [join_of_wellFormed ha hb, join_of_wellFormed hb hc, join_of_wellFormed hab hc,
                join_of_wellFormed ha hbc, min_assoc, max_assoc]
            · obtain ⟨l, u, hjoin⟩ := exists_bounds_join la ua lb ub
              rw [hjoin, join_of_malformed fun h => hc h.2, join_of_malformed fun h => hc h.2,
                bounded_join_top]
          · rw [join_of_malformed fun h => hb h.2, join_of_malformed fun h => hb h.1,
              top_join_bounded, bounded_join_top]
        · obtain ⟨l, u, hjoin⟩ := exists_bounds_join lb ub lc uc
          rw [hjoin, join_of_malformed fun h => ha h.1, join_of_malformed fun h => ha h.1,
            top_join_bounded]

theorem foldl_join_eq (values : List Interval) (a : Interval) :
    values.foldl join a = a.join (values.foldl join bottom) := by
  induction values generalizing a with
  | nil => exact (join_bottom a).symm
  | cons v rest ih =>
    calc (v :: rest).foldl join a
        = (a.join v).join (rest.foldl join bottom) := ih (a.join v)
      _ = a.join (v.join (rest.foldl join bottom)) := join_assoc ..
      _ = a.join ((v :: rest).foldl join bottom) := by rw [List.foldl_cons, join, ih v]

/-- Joining values one after the other gives the least interval around all of them. -/
theorem foldl_join {α : Type} {f : α → Interval} (hf : ∀ n, (f n).WellFormed) (nodes : List α)
    {first : Interval} (hfirst : first.WellFormed) :
    let joined := nodes.foldl (fun value n => value.join (f n)) first
    first.isWithin joined = true ∧ (∀ n ∈ nodes, (f n).isWithin joined = true) ∧
      ∀ bound : Interval, first.isWithin bound = true →
        (∀ n ∈ nodes, (f n).isWithin bound = true) → joined.isWithin bound = true := by
  induction nodes generalizing first with
  | nil =>
    refine ⟨isWithin_refl hfirst, ?_, ?_⟩
    · intro n hn
      cases hn
    · intro bound hbound _
      exact hbound
  | cons m rest ih =>
    obtain ⟨hbelow, hrest, hleast⟩ := ih (wellFormed_join hfirst (hf m))
    refine ⟨?_, ?_, ?_⟩
    · exact isWithin_trans (isWithin_join_left hfirst (hf m)) hbelow
    · intro n hn
      rcases List.mem_cons.mp hn with rfl | hn
      · exact isWithin_trans (isWithin_join_right hfirst (hf n)) hbelow
      · exact hrest n hn
    · intro bound hbound hall
      apply hleast
      · exact join_isWithin hbound (hall m List.mem_cons_self)
      · intro n hn
        exact hall n (List.mem_cons_of_mem _ hn)

theorem mem_join_left {v : Int64} {a : Interval} (b : Interval) (hv : v ∈ a) : v ∈ a.join b := by
  by_cases hb : b.WellFormed
  · exact mem_of_isWithin (isWithin_join_left (wellFormed_of_mem hv) hb) hv
  · cases a with
    | bottom => exact absurd hv (not_mem_bottom v)
    | bounded l u =>
      cases b with
      | bottom => exact hv
      | bounded l' u' =>
        rw [join, if_neg fun h => hb h.2]
        exact mem_top v

theorem mem_join_right {v : Int64} (a : Interval) {b : Interval} (hv : v ∈ b) : v ∈ a.join b := by
  by_cases ha : a.WellFormed
  · exact mem_of_isWithin (isWithin_join_right ha (wellFormed_of_mem hv)) hv
  · cases a with
    | bottom => exact hv
    | bounded l u =>
      cases b with
      | bottom => exact absurd hv (not_mem_bottom v)
      | bounded l' u' =>
        rw [join, if_neg fun h => ha h.1]
        exact mem_top v

/-- A member that one step of a fold brings in and no other takes away is a member at the end. -/
theorem mem_foldl {α : Type} {step : Interval → α → Interval} {v : Int64} {source : α}
    (hstays : ∀ input n, v ∈ input → v ∈ step input n) (hjoins : ∀ input, v ∈ step input source)
    {sources : List α} (hsource : source ∈ sources) (first : Interval) :
    v ∈ sources.foldl step first := by
  have hkept (rest : List α) (input : Interval) (hinput : v ∈ input) :
      v ∈ rest.foldl step input := by
    induction rest generalizing input with
    | nil => exact hinput
    | cons n rest ih => exact ih _ (hstays input n hinput)
  induction sources generalizing first with
  | nil => cases hsource
  | cons n rest ih =>
    rw [List.foldl_cons]
    rcases List.mem_cons.mp hsource with heq | hrest
    · rw [← heq]
      exact hkept rest _ (hjoins first)
    · exact ih hrest _

/-! ## Widening and narrowing -/

theorem wellFormed_widen {a b : Interval} (ha : a.WellFormed) (hb : b.WellFormed) :
    (a.widen b).WellFormed := by
  cases a with
  | bottom => exact hb
  | bounded l u =>
    cases b with
    | bottom => exact ha
    | bounded l' u' =>
      change (if l' < l then Bound.negInf else l) ≤ if u < u' then Bound.posInf else u
      split_ifs
      · exact Bound.negInf_le _
      · exact Bound.negInf_le _
      · exact Bound.le_posInf _
      · exact ha

theorem isWithin_widen_left {a b : Interval} (ha : a.WellFormed) (hb : b.WellFormed) :
    a.isWithin (a.widen b) = true := by
  have hwf := wellFormed_widen ha hb
  cases a with
  | bottom => exact bottom_isWithin _
  | bounded l u =>
    cases b with
    | bottom => exact isWithin_refl ha
    | bounded l' u' =>
      refine bounded_isWithin_bounded.mpr ⟨ha, hwf, ?_, ?_⟩
      · split_ifs
        · exact Bound.negInf_le l
        · exact le_rfl
      · split_ifs
        · exact Bound.le_posInf u
        · exact le_rfl

theorem isWithin_widen_right {a b : Interval} (ha : a.WellFormed) (hb : b.WellFormed) :
    b.isWithin (a.widen b) = true := by
  have hwf := wellFormed_widen ha hb
  cases a with
  | bottom => exact isWithin_refl hb
  | bounded l u =>
    cases b with
    | bottom => exact bottom_isWithin _
    | bounded l' u' =>
      refine bounded_isWithin_bounded.mpr ⟨hb, hwf, ?_, ?_⟩
      · split_ifs with h
        · exact Bound.negInf_le l'
        · exact not_lt.mp h
      · split_ifs with h
        · exact Bound.le_posInf u'
        · exact not_lt.mp h

/-- Widening by a join covers what was joined. -/
theorem isWithin_widen_join {a b : Interval} (ha : a.WellFormed) (hb : b.WellFormed) :
    b.isWithin (a.widen (a.join b)) = true :=
  isWithin_trans (isWithin_join_right ha hb) (isWithin_widen_right ha (wellFormed_join ha hb))

theorem wellFormed_narrow (a b : Interval) : (a.narrow b).WellFormed := by
  cases a with
  | bottom => trivial
  | bounded l u =>
    cases b with
    | bottom => trivial
    | bounded l' u' =>
      simp only [narrow]
      generalize (if l = .negInf then l' else l) = lower
      generalize (if u = .posInf then u' else u) = upper
      split_ifs with h
      · trivial
      · exact not_lt.mp h

/-- Narrowing by what lies within keeps all of it. -/
theorem isWithin_narrow {a b : Interval} (h : b.isWithin a = true) :
    b.isWithin (a.narrow b) = true := by
  cases b with
  | bottom => exact bottom_isWithin _
  | bounded l' u' =>
    cases a with
    | bottom => cases h
    | bounded l u =>
      obtain ⟨hb, ha, hl, hu⟩ := bounded_isWithin_bounded.mp h
      have hlow : (if l = .negInf then l' else l) ≤ l' := by
        split_ifs
        · exact le_rfl
        · exact hl
      have hhigh : u' ≤ if u = .posInf then u' else u := by
        split_ifs
        · exact le_rfl
        · exact hu
      have hwf := (hlow.trans hb).trans hhigh
      simp only [narrow, if_neg (not_lt.mpr hwf)]
      exact bounded_isWithin_bounded.mpr ⟨hb, hwf, hlow, hhigh⟩

/-- Narrowing by what lies within adds nothing. -/
theorem narrow_isWithin {a b : Interval} (ha : a.WellFormed) (h : b.isWithin a = true) :
    (a.narrow b).isWithin a = true := by
  cases a with
  | bottom => rfl
  | bounded l u =>
    cases b with
    | bottom => exact bottom_isWithin _
    | bounded l' u' =>
      obtain ⟨-, -, hl, hu⟩ := bounded_isWithin_bounded.mp h
      have hlow : l ≤ if l = .negInf then l' else l := by
        split_ifs
        · exact hl
        · exact le_rfl
      have hhigh : (if u = .posInf then u' else u) ≤ u := by
        split_ifs
        · exact hu
        · exact le_rfl
      simp only [narrow]
      generalize (if l = .negInf then l' else l) = lower at hlow ⊢
      generalize (if u = .posInf then u' else u) = upper at hhigh ⊢
      by_cases hlt : upper < lower
      · rw [if_pos hlt]
        exact bottom_isWithin _
      · rw [if_neg hlt]
        exact bounded_isWithin_bounded.mpr ⟨not_lt.mp hlt, ha, hlow, hhigh⟩

/-- The interval has no lower end. -/
def UnboundedBelow (a : Interval) : Prop := ∃ u, a = bounded .negInf u

theorem not_unboundedBelow_bottom : ¬ bottom.UnboundedBelow := by
  rintro ⟨u, h⟩
  cases h

/-- Narrowing leaves a lower end open only where it is given no other. -/
theorem UnboundedBelow.of_narrow {a b : Interval} (h : (a.narrow b).UnboundedBelow) :
    b.UnboundedBelow := by
  cases a with
  | bottom => exact absurd h not_unboundedBelow_bottom
  | bounded l u =>
    cases b with
    | bottom => exact absurd h not_unboundedBelow_bottom
    | bounded l' u' =>
      obtain ⟨high, hnarrow⟩ := h
      simp only [narrow] at hnarrow
      have hlower : (if l = .negInf then l' else l) = .negInf := by
        generalize (if l = .negInf then l' else l) = lower at hnarrow ⊢
        generalize (if u = .posInf then u' else u) = upper at hnarrow
        split at hnarrow
        · cases hnarrow
        · exact (bounded.inj hnarrow).1
      by_cases hl : l = .negInf
      · rw [if_pos hl] at hlower
        exact ⟨u', by rw [hlower]⟩
      · rw [if_neg hl] at hlower
        exact absurd hlower hl

/-! ## Restriction -/

theorem overlap_eq_iff {l u l' u' : Bound} :
    (bounded l u).overlap (bounded l' u') = .eq ↔ l ≤ u' ∧ l' ≤ u := by
  rw [overlap, ← not_lt, ← not_lt]
  split_ifs <;> simp [*]

theorem meet_of_wellFormed {l u l' u' : Bound} (h : l ≤ u) (h' : l' ≤ u') :
    (bounded l u).meet (bounded l' u') =
      if l ≤ u' ∧ l' ≤ u then bounded (max l l') (min u u') else bottom := by
  rw [meet, if_pos ⟨h, h'⟩]
  exact if_congr overlap_eq_iff rfl rfl

theorem restrict_of_wellFormed {l u l' u' : Bound} (h : l ≤ u) (h' : l' ≤ u') :
    (bounded l u).restrict (bounded l' u') =
      if l ≤ u' ∧ l' ≤ u then bounded (max l l') (min u u') else bottom :=
  meet_of_wellFormed h h'

theorem restrict_isWithin_right {a b : Interval} (ha : a.WellFormed) (hb : b.WellFormed) :
    (a.restrict b).isWithin b = true := by
  cases a with
  | bottom => exact bottom_isWithin _
  | bounded l u =>
    cases b with
    | bottom => rfl
    | bounded l' u' =>
      rw [restrict_of_wellFormed ha hb]
      split
      · rename_i hover
        exact bounded_isWithin_bounded.mpr ⟨max_le (le_min ha hover.1) (le_min hover.2 hb), hb,
          le_max_right l l', min_le_right u u'⟩
      · exact bottom_isWithin _

theorem wellFormed_restrict (a b : Interval) : (a.restrict b).WellFormed := by
  cases a with
  | bottom => trivial
  | bounded l u =>
    cases b with
    | bottom => trivial
    | bounded l' u' =>
      by_cases hwf : l ≤ u ∧ l' ≤ u'
      · rw [restrict_of_wellFormed hwf.1 hwf.2]
        split
        · rename_i hover
          exact max_le (le_min hwf.1 hover.1) (le_min hover.2 hwf.2)
        · trivial
      · simp only [restrict, meet, if_neg hwf]
        exact wellFormed_top

theorem mem_restrict {v : Int64} {a b : Interval} (ha : v ∈ a) (hb : v ∈ b) :
    v ∈ a.restrict b := by
  have hwfa := wellFormed_of_mem ha
  have hwfb := wellFormed_of_mem hb
  cases a with
  | bottom => exact absurd ha (not_mem_bottom v)
  | bounded l u =>
    cases b with
    | bottom => exact absurd hb (not_mem_bottom v)
    | bounded l' u' =>
      rw [restrict_of_wellFormed hwfa hwfb, if_pos ⟨ha.1.trans hb.2, hb.1.trans ha.2⟩]
      exact ⟨max_le ha.1 hb.1, le_min ha.2 hb.2⟩

theorem restrict_mono {a a' b b' : Interval} (ha : a.isWithin a' = true)
    (hb : b.isWithin b' = true) : (a.restrict b).isWithin (a'.restrict b') = true := by
  cases a with
  | bottom => exact bottom_isWithin _
  | bounded l u =>
    cases b with
    | bottom => exact bottom_isWithin _
    | bounded lb ub =>
      obtain ⟨l', u', rfl, hwf, hwf', hl, hu⟩ := exists_bounds_of_isWithin ha
      obtain ⟨lb', ub', rfl, hwfb, hwfb', hlb, hub⟩ := exists_bounds_of_isWithin hb
      rw [restrict_of_wellFormed hwf hwfb, restrict_of_wellFormed hwf' hwfb']
      by_cases hover : l ≤ ub ∧ lb ≤ u
      · have hover' : l' ≤ ub' ∧ lb' ≤ u' :=
          ⟨hl.trans (hover.1.trans hub), hlb.trans (hover.2.trans hu)⟩
        rw [if_pos hover, if_pos hover']
        exact bounded_isWithin_bounded.mpr
          ⟨max_le (le_min hwf hover.1) (le_min hover.2 hwfb),
            max_le (le_min hwf' hover'.1) (le_min hover'.2 hwfb'),
            max_le_max hl hlb, min_le_min hu hub⟩
      · rw [if_neg hover]
        exact bottom_isWithin _

end IntervalFlow.Interval
