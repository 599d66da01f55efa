/-!
# Computations that may fail

What is known of the parts of a computation that succeeds, or fails. A traversal succeeds if each of
its steps does; where the steps are known by an equation between their arguments and results, so is
the traversal.
-/

namespace IntervalFlow

/-- Opens a computation that may fail. -/
theorem bind_eq_ok_iff {ε α β : Type} {x : Except ε α} {f : α → Except ε β} {b : β} :
    x >>= f = .ok b ↔ ∃ a, x = .ok a ∧ f a = .ok b := by
  cases x with
  | error e =>
    constructor
    · intro h
      cases h
    · rintro ⟨a, h, -⟩
      cases h
  | ok a =>
    constructor
    · intro h
      exact ⟨a, rfl, h⟩
    · rintro ⟨a', h, hf⟩
      cases h
      exact hf

/-- A computation in two steps fails in the first or in the second. -/
theorem bind_eq_error_iff {ε α β : Type} {x : Except ε α} {f : α → Except ε β} {e : ε} :
    x >>= f = .error e ↔ x = .error e ∨ ∃ a, x = .ok a ∧ f a = .error e := by
  cases x with
  | error e' =>
    constructor
    · intro h
      cases h
      exact .inl rfl
    · rintro (h | ⟨a, h, -⟩)
      · cases h
        rfl
      · cases h
  | ok a =>
    constructor
    · intro h
      exact .inr ⟨a, rfl, h⟩
    · rintro (h | ⟨a', h, hf⟩)
      · cases h
      · cases h
        exact hf

/-- Where the first step has no influence on whether the second fails, a computation fails if either
of them does. -/
theorem exists_error_bind_iff {ε α β : Type} {x : Except ε α} {f : α → Except ε β} {fails : Prop}
    (h : ∀ a, (∃ e, f a = .error e) ↔ fails) :
    (∃ e, x >>= f = .error e) ↔ (∃ e, x = .error e) ∨ fails := by
  cases x with
  | error e => exact ⟨fun _ => .inl ⟨e, rfl⟩, fun _ => ⟨e, rfl⟩⟩
  | ok a =>
    constructor
    · intro hf
      exact .inr ((h a).mp hf)
    · rintro (⟨e, he⟩ | hf)
      · cases he
      · exact (h a).mpr hf

theorem exists_error_pure_iff {ε α : Type} (a : α) :
    (∃ e, (pure a : Except ε α) = .error e) ↔ False := by
  simp [pure, Except.pure]

theorem exists_ok_of_any {ε α : Type} {x : Except ε α} {p : α → Bool}
    (h : x.toOption.any p = true) : ∃ a, x = .ok a ∧ p a = true := by
  cases x with
  | error e => cases h
  | ok a => exact ⟨a, rfl, h⟩

/-! ## Traversals -/

section

variable {ε α β γ : Type} {f : α → Except ε β} {given : α → γ} {found : β → γ}

theorem mapM_eq_ok_iff (h : ∀ x y, f x = .ok y ↔ found y = given x) {xs : List α} {ys : List β} :
    xs.mapM f = .ok ys ↔ ys.map found = xs.map given := by
  induction xs generalizing ys with
  | nil => cases ys <;> simp [pure, Except.pure]
  | cons x rest ih =>
    cases ys with
    | nil => simp [List.mapM_cons, bind_eq_ok_iff, pure, Except.pure]
    | cons y ys => simp [List.mapM_cons, bind_eq_ok_iff, pure, Except.pure, h, ih]

theorem optionMapM_eq_ok_iff (h : ∀ x y, f x = .ok y ↔ found y = given x) {o : Option α}
    {o' : Option β} : o.mapM f = .ok o' ↔ o'.map found = o.map given := by
  cases o with
  | none => cases o' <;> simp [pure, Except.pure]
  | some x =>
    cases o' with
    | none => cases hx : f x <;> simp [hx, Functor.map, Except.map]
    | some y =>
      rw [Option.map_some, Option.map_some, Option.some.injEq, ← h]
      cases hx : f x <;> simp [hx, Functor.map, Except.map]

/-- A list has a counterpart if each of its elements has one. -/
theorem exists_map_eq_map {xs : List α} :
    (∃ ys : List β, ys.map found = xs.map given) ↔ ∀ x ∈ xs, ∃ y, found y = given x := by
  constructor
  · rintro ⟨ys, h⟩ x hx
    have hmem : given x ∈ xs.map given := List.mem_map_of_mem hx
    rw [← h] at hmem
    obtain ⟨y, -, hy⟩ := List.mem_map.mp hmem
    exact ⟨y, hy⟩
  · intro h
    induction xs with
    | nil => exact ⟨[], rfl⟩
    | cons x rest ih =>
      obtain ⟨y, hy⟩ := h x List.mem_cons_self
      obtain ⟨ys, hys⟩ := ih fun x' hx' => h x' (List.mem_cons_of_mem x hx')
      exact ⟨y :: ys, by simp [hy, hys]⟩

end

end IntervalFlow
