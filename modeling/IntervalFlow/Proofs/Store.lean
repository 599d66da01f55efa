import IntervalFlow.FlowState
import IntervalFlow.Proofs.Effect.WellFormed
import IntervalFlow.Proofs.Interval.Order

/-!
# Stores — lattices of functions

As far as merging and comparing can tell, a store is a function from its keys to intervals, and so
is a pair of stores. `Domain.Pointwise` says this of a domain and a way to view its values as
functions; that joins are least upper bounds follows from it alone.
-/

namespace IntervalFlow

/-! ## Combined comparisons -/

namespace Compares

variable {le ge le' ge' : Prop} {o o' : Option Ordering}

theorem congr (h : Compares le ge o) (hle : le ↔ le') (hge : ge ↔ ge') : Compares le' ge' o := by
  rwa [← hle, ← hge]

/-- A product lies below another if both its components do. -/
theorem combine (h : Compares le ge o) (h' : Compares le' ge' o') :
    Compares (le ∧ le') (ge ∧ ge') (Domain.combine o o') := by
  cases h <;> cases h' <;> constructor <;> simp_all

/-- Comparisons combined one after the other say whether all of them agree. -/
theorem foldl {α : Type} {below above : α → Prop} {order : α → Option Ordering}
    (h : ∀ x, Compares (below x) (above x) (order x)) (xs : List α) (ho : Compares le ge o) :
    Compares (le ∧ ∀ x ∈ xs, below x) (ge ∧ ∀ x ∈ xs, above x)
      (xs.foldl (fun o x => Domain.combine o (order x)) o) := by
  induction xs generalizing le ge o with
  | nil => exact ho.congr (by simp) (by simp)
  | cons x rest ih =>
    rw [List.foldl_cons]
    refine (ih (ho.combine (h x))).congr ?_ ?_
    · rw [List.forall_mem_cons, and_assoc]
    · rw [List.forall_mem_cons, and_assoc]

end Compares

/-! ## Domains of functions -/

namespace Domain

/-- The first value lies below the second, or compares equal to it. -/
def Within {α : Type} [Domain α] (a b : α) : Prop := order? a b = some .lt ∨ order? a b = some .eq

/-- `j` is the least of the values above `a` and `b`. -/
structure IsJoin {α : Type} [Domain α] (a b j : α) : Prop where
  left : Within a j
  right : Within b j
  least : ∀ c, Within a c → Within b c → Within j c

/-- Seen through `view`, the values are functions into the intervals, merged and compared argument
by argument. -/
structure Pointwise {α ι : Type} [Domain α] (view : α → ι → Interval) : Prop where
  join : ∀ a b i, view (join a b) i = (view a i).join (view b i)
  meet : ∀ a b i, view (meet a b) i = (view a i).meet (view b i)
  widen : ∀ a b i, view (widen a b) i = (view a i).widen (view b i)
  narrow : ∀ a b i, view (narrow a b) i = (view a i).narrow (view b i)
  le_iff : ∀ a b, order? a b = some .lt ∨ order? a b = some .eq ↔
    ∀ i, (view a i).isWithin (view b i) = true
  ge_iff : ∀ a b, order? a b = some .gt ∨ order? a b = some .eq ↔
    ∀ i, (view b i).isWithin (view a i) = true
  none_iff : ∀ a b, order? a b = none ↔ ¬ (∀ i, (view a i).isWithin (view b i) = true) ∧
    ¬ ∀ i, (view b i).isWithin (view a i) = true

namespace Pointwise

variable {α β ι κ : Type} [Domain α] [Domain β] {view : α → ι → Interval} {view' : β → κ → Interval}

theorem compares (h : Pointwise view) (a b : α) :
    Compares (∀ i, (view a i).isWithin (view b i) = true)
      (∀ i, (view b i).isWithin (view a i) = true) (order? a b) := by
  have hle := h.le_iff a b
  have hge := h.ge_iff a b
  cases ho : order? a b with
  | none =>
    rw [ho] at hle hge
    exact .none (by simpa using hle) (by simpa using hge)
  | some o =>
    rw [ho] at hle hge
    cases o with
    | lt => exact .lt (hle.mp (.inl rfl)) (by simpa using hge)
    | eq => exact .eq (hle.mp (.inr rfl)) (hge.mp (.inr rfl))
    | gt => exact .gt (by simpa using hle) (hge.mp (.inl rfl))

/-- A pair of functions is a function on the sum of their arguments. -/
theorem prod (h : Pointwise view) (h' : Pointwise view') :
    Pointwise fun (p : α × β) => Sum.elim (view p.1) (view' p.2) := by
  have hcompares (p q : α × β) :
      Compares
        (∀ i, (Sum.elim (view p.1) (view' p.2) i).isWithin
          (Sum.elim (view q.1) (view' q.2) i) = true)
        (∀ i, (Sum.elim (view q.1) (view' q.2) i).isWithin
          (Sum.elim (view p.1) (view' p.2) i) = true)
        (order? p q) := by
    refine ((h.compares p.1 q.1).combine (h'.compares p.2 q.2)).congr ?_ ?_
    · simp only [Sum.forall, Sum.elim_inl, Sum.elim_inr]
    · simp only [Sum.forall, Sum.elim_inl, Sum.elim_inr]
  refine ⟨?_, ?_, ?_, ?_, fun p q => (hcompares p q).le_iff, fun p q => (hcompares p q).ge_iff,
    fun p q => (hcompares p q).none_iff⟩
  · rintro p q (i | i)
    · exact h.join p.1 q.1 i
    · exact h'.join p.2 q.2 i
  · rintro p q (i | i)
    · exact h.meet p.1 q.1 i
    · exact h'.meet p.2 q.2 i
  · rintro p q (i | i)
    · exact h.widen p.1 q.1 i
    · exact h'.widen p.2 q.2 i
  · rintro p q (i | i)
    · exact h.narrow p.1 q.1 i
    · exact h'.narrow p.2 q.2 i

/-- The least upper bounds of well-formed functions are the values that look like their join. -/
theorem isJoin_iff (h : Pointwise view) {a b j : α} (ha : ∀ i, (view a i).WellFormed)
    (hb : ∀ i, (view b i).WellFormed) :
    IsJoin a b j ↔ ∀ i, view j i = view (Domain.join a b) i := by
  have hwithin (c d : α) : Within c d ↔ ∀ i, (view c i).isWithin (view d i) = true := h.le_iff c d
  have hleft (i : ι) : (view a i).isWithin (view (Domain.join a b) i) = true := by
    rw [h.join]
    exact Interval.isWithin_join_left (ha i) (hb i)
  have hright (i : ι) : (view b i).isWithin (view (Domain.join a b) i) = true := by
    rw [h.join]
    exact Interval.isWithin_join_right (ha i) (hb i)
  have hleast {c : α} (hac : Within a c) (hbc : Within b c) (i : ι) :
      (view (Domain.join a b) i).isWithin (view c i) = true := by
    rw [h.join]
    exact Interval.join_isWithin ((hwithin a c).mp hac i) ((hwithin b c).mp hbc i)
  constructor
  · intro hj i
    have hbelow := hj.least (Domain.join a b) ((hwithin _ _).mpr hleft) ((hwithin _ _).mpr hright)
    exact Interval.isWithin_antisymm ((hwithin _ _).mp hbelow i) (hleast hj.left hj.right i)
  · intro hsame
    refine ⟨(hwithin a j).mpr fun i => ?_, (hwithin b j).mpr fun i => ?_,
      fun c hac hbc => (hwithin j c).mpr fun i => ?_⟩
    · rw [hsame i]
      exact hleft i
    · rw [hsame i]
      exact hright i
    · rw [hsame i]
      exact hleast hac hbc i

/-- Well-formed functions compare equal if they have the same values. -/
theorem eq_iff (h : Pointwise view) {a b : α} (ha : ∀ i, (view a i).WellFormed) :
    order? a b = some .eq ↔ ∀ i, view a i = view b i := by
  rw [(h.compares a b).eq_iff, ← forall_and]
  exact forall_congr' fun i => Interval.isWithin_and_isWithin_iff (ha i)

end Pointwise

end Domain

/-! ## Entries -/

namespace Table

variable {κ β : Type} [DecidableEq κ]

theorem valueAt?_eq_some_iff {entries : List (κ × β)} (h : (entries.map Prod.fst).Nodup) {key : κ}
    {value : β} : valueAt? key entries = some value ↔ (key, value) ∈ entries := by
  induction entries with
  | nil => simp [valueAt?]
  | cons entry rest ih =>
    obtain ⟨k, v⟩ := entry
    rw [List.map_cons, List.nodup_cons] at h
    rw [valueAt?, List.mem_cons]
    by_cases hk : k = key
    · subst hk
      -- the key is listed once, so its entry is not among the rest
      have hrest : (k, value) ∉ rest := fun hmem => h.1 (List.mem_map.mpr ⟨_, hmem, rfl⟩)
      rw [if_pos rfl, or_iff_left hrest, Option.some.injEq, Prod.mk.injEq, and_iff_right rfl,
        eq_comm]
    · rw [if_neg hk, ih h.2]
      refine (or_iff_right ?_).symm
      intro heq
      exact hk (Prod.mk.inj heq).1.symm

theorem get?_eq_some_iff {t : Table κ β} {key : κ} {value : β} :
    t.get? key = some value ↔ (key, value) ∈ t.entries := valueAt?_eq_some_iff t.nodup

/-- What is looked up does not depend on the order of the entries. -/
theorem get?_eq_of_perm {t u : Table κ β} (h : t.entries.Perm u.entries) (key : κ) :
    t.get? key = u.get? key := by
  refine Option.ext fun value => ?_
  rw [get?_eq_some_iff, get?_eq_some_iff, h.mem_iff]

end Table

namespace Store

variable {κ : Type} [DecidableEq κ]

theorem valueOf_of_not_mem_keys {s : Store κ} {key : κ} (h : key ∉ s.keys) :
    s.valueOf key = .bottom := by
  apply valueOf_eq_bottom
  rintro ⟨value, hvalue⟩
  exact h (List.mem_map_of_mem (Table.get?_eq_some_iff.mp hvalue))

/-! ## Merging -/

/-- Every key of either store has been looked at, and what came out as `bottom` is left out. -/
theorem get?_mergeWith (f : Interval → Interval → Interval) (s t : Store κ) (key : κ) :
    (mergeWith f s t).get? key =
      if key ∈ s.keys ++ t.keys ∧ f (s.valueOf key) (t.valueOf key) ≠ .bottom then
        some (f (s.valueOf key) (t.valueOf key))
      else none := by
  have hfold (keys : List κ) (merged : Store κ) :
      (keys.foldl (fun merged key =>
        let value := f (s.valueOf key) (t.valueOf key)
        if value = .bottom then merged else merged.set key value) merged).get? key =
      if key ∈ keys ∧ f (s.valueOf key) (t.valueOf key) ≠ .bottom then
        some (f (s.valueOf key) (t.valueOf key))
      else merged.get? key := by
    induction keys generalizing merged with
    | nil => simp
    | cons k rest ih =>
      rw [List.foldl_cons, ih]
      by_cases hk : key = k
      · subst hk
        by_cases hbottom : f (s.valueOf key) (t.valueOf key) = .bottom
        · simp [hbottom]
        · simp [hbottom, Table.get?_set]
      · by_cases hbottom : f (s.valueOf k) (t.valueOf k) = .bottom
        · simp [hbottom, hk]
        · simp [hbottom, hk, Table.get?_set]
  exact hfold _ .empty

theorem valueOf_mergeWith {f : Interval → Interval → Interval} (hf : f .bottom .bottom = .bottom)
    (s t : Store κ) (key : κ) :
    (mergeWith f s t).valueOf key = f (s.valueOf key) (t.valueOf key) := by
  rw [valueOf, get?_mergeWith]
  by_cases hbottom : f (s.valueOf key) (t.valueOf key) = .bottom
  · rw [if_neg fun h => h.2 hbottom, hbottom]
    rfl
  · by_cases hkey : key ∈ s.keys ++ t.keys
    · rw [if_pos ⟨hkey, hbottom⟩]
      rfl
    · rw [List.mem_append, not_or] at hkey
      rw [valueOf_of_not_mem_keys hkey.1, valueOf_of_not_mem_keys hkey.2] at hbottom
      exact absurd hf hbottom

/-- No entry of the store is `bottom`. -/
def Trimmed (s : Store κ) : Prop := ∀ key, s.get? key ≠ some .bottom

theorem trimmed_mergeWith (f : Interval → Interval → Interval) (s t : Store κ) :
    Trimmed (mergeWith f s t) := by
  intro key h
  rw [get?_mergeWith, Option.ite_none_right_eq_some] at h
  exact h.1.2 (Option.some.inj h.2)

/-! ## Comparing -/

theorem compares_order? (s t : Store κ) :
    Compares (∀ key, (s.valueOf key).isWithin (t.valueOf key) = true)
      (∀ key, (t.valueOf key).isWithin (s.valueOf key) = true) (Domain.order? s t) := by
  -- keys without an entry do not count
  have hlisted (below : Interval → Interval → Prop) (hbottom : below .bottom .bottom) :
      (True ∧ ∀ key ∈ s.keys ++ t.keys, below (s.valueOf key) (t.valueOf key)) ↔
        ∀ key, below (s.valueOf key) (t.valueOf key) := by
    rw [true_and]
    refine ⟨fun h key => ?_, fun h key _ => h key⟩
    by_cases hkey : key ∈ s.keys ++ t.keys
    · exact h key hkey
    · rw [List.mem_append, not_or] at hkey
      rw [valueOf_of_not_mem_keys hkey.1, valueOf_of_not_mem_keys hkey.2]
      exact hbottom
  have hfold := Compares.foldl
    (fun key => Interval.compares_order? (s.valueOf key) (t.valueOf key)) (s.keys ++ t.keys)
    (Compares.eq trivial trivial)
  exact hfold.congr (hlisted (fun a b => a.isWithin b = true) rfl)
    (hlisted (fun a b => b.isWithin a = true) rfl)

theorem pointwise : Domain.Pointwise fun (s : Store κ) key => s.valueOf key where
  join := valueOf_mergeWith rfl
  meet := valueOf_mergeWith rfl
  widen := valueOf_mergeWith rfl
  narrow := valueOf_mergeWith rfl
  le_iff s t := (compares_order? s t).le_iff
  ge_iff s t := (compares_order? s t).ge_iff
  none_iff s t := (compares_order? s t).none_iff

/-- How stores compare does not depend on the order of their entries. -/
theorem order?_eq_of_perm {s s' t t' : Store κ} (hs : s.entries.Perm s'.entries)
    (ht : t.entries.Perm t'.entries) : Domain.order? s t = Domain.order? s' t' := by
  have hvalue {u u' : Store κ} (hu : u.entries.Perm u'.entries) (key : κ) :
      u.valueOf key = u'.valueOf key := by
    rw [valueOf, Table.get?_eq_of_perm hu, valueOf]
  refine (compares_order? s t).unique ((compares_order? s' t').congr ?_ ?_)
  · simp only [hvalue hs, hvalue ht]
  · simp only [hvalue hs, hvalue ht]

/-! ## The lattices of stores and of pairs of stores -/

/-- Stores are merged and compared key by key, in whatever order their entries come, and no merge
leaves an entry with `bottom`. Of well-formed stores `join` is the least upper bound, and stores are
told apart by their values only, not by whether a `bottom` has an entry. All this holds of pairs of
stores as well. -/
theorem pointwise_lattice {κ' : Type} [DecidableEq κ'] :
    Domain.Pointwise (fun (s : Store κ) key => s.valueOf key) ∧
    (∀ s t : Store κ, Trimmed (Domain.join s t) ∧ Trimmed (Domain.meet s t) ∧
      Trimmed (Domain.widen s t) ∧ Trimmed (Domain.narrow s t)) ∧
    (∀ s s' t t' : Store κ, s.entries.Perm s'.entries → t.entries.Perm t'.entries →
      Domain.order? s t = Domain.order? s' t') ∧
    (∀ s t : Store κ, s.WellFormed → t.WellFormed →
      Domain.IsJoin s t (Domain.join s t) ∧
      (∀ j, Domain.IsJoin s t j ↔ ∀ key, j.valueOf key = (Domain.join s t).valueOf key) ∧
      (Domain.order? s t = some .eq ↔ ∀ key, s.valueOf key = t.valueOf key)) ∧
    Domain.Pointwise (fun (p : Store κ × Store κ') => Sum.elim p.1.valueOf p.2.valueOf) ∧
    ∀ p q : Store κ × Store κ', p.1.WellFormed → p.2.WellFormed → q.1.WellFormed → q.2.WellFormed →
      Domain.IsJoin p q (Domain.join p q) ∧
      (∀ j, Domain.IsJoin p q j ↔ (∀ key, j.1.valueOf key = (Domain.join p q).1.valueOf key) ∧
        ∀ key, j.2.valueOf key = (Domain.join p q).2.valueOf key) ∧
      (Domain.order? p q = some .eq ↔ (∀ key, p.1.valueOf key = q.1.valueOf key) ∧
        ∀ key, p.2.valueOf key = q.2.valueOf key) := by
  have hpair : Domain.Pointwise
      (fun (p : Store κ × Store κ') => Sum.elim p.1.valueOf p.2.valueOf) := pointwise.prod pointwise
  refine ⟨pointwise, fun s t => ?_, fun s s' t t' => order?_eq_of_perm, fun s t hs ht => ?_, hpair,
    fun p q hp hp' hq hq' => ?_⟩
  · exact ⟨trimmed_mergeWith _ s t, trimmed_mergeWith _ s t, trimmed_mergeWith _ s t,
      trimmed_mergeWith _ s t⟩
  · have hjoin (j : Store κ) := pointwise.isJoin_iff (j := j) hs.valueOf ht.valueOf
    exact ⟨(hjoin _).mpr fun _ => rfl, hjoin, pointwise.eq_iff hs.valueOf⟩
  · have hwf (r : Store κ × Store κ') (hr : r.1.WellFormed) (hr' : r.2.WellFormed) :
        ∀ i, (Sum.elim r.1.valueOf r.2.valueOf i).WellFormed :=
      Sum.forall.mpr ⟨hr.valueOf, hr'.valueOf⟩
    have hjoin (j : Store κ × Store κ') :=
      hpair.isJoin_iff (j := j) (hwf p hp hp') (hwf q hq hq')
    refine ⟨(hjoin _).mpr fun _ => rfl, fun j => ?_, ?_⟩
    · exact (hjoin j).trans Sum.forall
    · exact (hpair.eq_iff (hwf p hp hp')).trans Sum.forall

/-! ### Two stores that share a key

One of them lists a `bottom`. -/

def listsBottom : Store NodeId := (Table.empty.set 1 (.constant 1)).set 3 .bottom

def listsTop : Store NodeId := (Table.empty.set 1 (.constant 4)).set 2 .top

def listsTopFirst : Store NodeId := (Table.empty.set 2 .top).set 1 (.constant 4)

/-- The shared key is joined, the `bottom` is dropped, and the order of entries does not matter. -/
theorem shared_key_lattice :
    (Domain.join listsBottom listsTop).valueOf 1 = .range 1 4 ∧
    Trimmed (Domain.join listsBottom listsTop) ∧
    Domain.order? listsBottom listsTop = Domain.order? listsBottom listsTopFirst ∧
    Domain.IsJoin listsBottom listsTop (Domain.join listsBottom listsTop) ∧
    Domain.IsJoin (listsBottom, listsTop) (listsTop, listsBottom)
      (Domain.join (listsBottom, listsTop) (listsTop, listsBottom)) := by
  have hbottom : listsBottom.WellFormed :=
    (WellFormed.empty.set 1 (Interval.wellFormed_constant 1)).set 3 Interval.wellFormed_bottom
  have htop : listsTop.WellFormed :=
    (WellFormed.empty.set 1 (Interval.wellFormed_constant 4)).set 2 Interval.wellFormed_top
  obtain ⟨hpointwise, htrimmed, hperm, hjoin, -, hpairs⟩ :=
    @pointwise_lattice NodeId _ NodeId _
  refine ⟨(hpointwise.join listsBottom listsTop 1).trans (by decide),
    (htrimmed listsBottom listsTop).1, hperm _ _ _ _ (.refl _) (.swap _ _ []),
    (hjoin listsBottom listsTop hbottom htop).1, ?_⟩
  exact (hpairs (listsBottom, listsTop) (listsTop, listsBottom) hbottom htop htop hbottom).1

end Store

end IntervalFlow
