import Mathlib.Data.List.Forall2
import Mathlib.Tactic.Tauto
/-!
# Computations that may fail

What is known of the parts of a computation from how the whole of it ended. A list that is worked
through item by item fails as its first item that fails.
-/
namespace ApiDocs

variable {ε α β : Type}

theorem bind_eq_ok_iff {x : Except ε α} {f : α → Except ε β} {b : β} :
    (x >>= f) = .ok b ↔ ∃ a, x = .ok a ∧ f a = .ok b := by
  cases x with
  | error e => simp [bind, Except.bind]
  | ok a => simp [bind, Except.bind]

theorem bind_eq_error_iff {x : Except ε α} {f : α → Except ε β} {e : ε} :
    (x >>= f) = .error e ↔ x = .error e ∨ ∃ a, x = .ok a ∧ f a = .error e := by
  cases x with
  | error e' => simp [bind, Except.bind]
  | ok a => simp [bind, Except.bind]

theorem pure_eq_ok_iff {a b : α} : (pure a : Except ε α) = .ok b ↔ a = b := by
  simp [pure, Except.pure]

theorem pure_ne_error {a : α} {e : ε} : (pure a : Except ε α) ≠ .error e := by
  simp [pure, Except.pure]

theorem bind_pure_eq_error_iff {x : Except ε α} {f : α → β} {e : ε} :
    (x >>= fun a => pure (f a)) = .error e ↔ x = .error e := by
  simp only [bind_eq_error_iff, pure_ne_error, and_false, exists_false, or_false]

theorem map_eq_ok_iff {x : Except ε α} {f : α → β} {b : β} :
    x.map f = .ok b ↔ ∃ a, x = .ok a ∧ f a = b := by
  cases x with
  | error e => simp [Except.map]
  | ok a => simp [Except.map]

theorem map_eq_error_iff {x : Except ε α} {f : α → β} {e : ε} :
    x.map f = .error e ↔ x = .error e := by
  cases x with
  | error e' => simp [Except.map]
  | ok a => simp [Except.map]

theorem exists_map_eq_ok_iff {x : Except ε α} {f : α → β} :
    (∃ b, x.map f = .ok b) ↔ ∃ a, x = .ok a := by
  cases x with
  | error e => simp [Except.map]
  | ok a => simp [Except.map]

theorem exists_eq_error_iff {x : Except ε α} : (∃ e, x = .error e) ↔ ¬ ∃ a, x = .ok a := by
  cases x <;> simp

/-- An item of a list fails with an error, and all items before it succeed. -/
def FirstFailure (f : α → Except ε β) (items : List α) (e : ε) : Prop :=
  ∃ front item back, items = front ++ item :: back ∧ (∀ a ∈ front, ∃ b, f a = .ok b) ∧
    f item = .error e

section Lists

variable {γ : Type} {f : α → Except ε β} {e : ε}

theorem not_firstFailure_nil : ¬ FirstFailure f [] e := by
  rintro ⟨front, item, back, hsplit, _⟩
  cases front <;> cases hsplit

theorem firstFailure_cons {a : α} {items : List α} :
    FirstFailure f (a :: items) e ↔
      f a = .error e ∨ (∃ b, f a = .ok b) ∧ FirstFailure f items e := by
  constructor
  · rintro ⟨front, item, back, hsplit, hfront, hitem⟩
    cases front with
    | nil =>
      cases hsplit
      exact .inl hitem
    | cons first front =>
      cases hsplit
      obtain ⟨ha, hfront⟩ := List.forall_mem_cons.mp hfront
      exact .inr ⟨ha, front, item, back, rfl, hfront, hitem⟩
  · rintro (ha | ⟨ha, front, item, back, rfl, hfront, hitem⟩)
    · exact ⟨[], a, items, rfl, List.forall_mem_nil _, ha⟩
    · exact ⟨a :: front, item, back, rfl, List.forall_mem_cons.mpr ⟨ha, hfront⟩, hitem⟩

theorem firstFailure_append {front back : List α} :
    FirstFailure f (front ++ back) e ↔
      FirstFailure f front e ∨ (∀ a ∈ front, ∃ b, f a = .ok b) ∧ FirstFailure f back e := by
  induction front with
  | nil => simp [not_firstFailure_nil]
  | cons a front ih =>
    rw [List.cons_append, firstFailure_cons, ih, firstFailure_cons, List.forall_mem_cons]
    tauto

theorem firstFailure_congr {g : α → Except ε β} {items : List α}
    (h : ∀ a ∈ items, f a = g a) : FirstFailure f items e ↔ FirstFailure g items e := by
  induction items with
  | nil => exact iff_of_false not_firstFailure_nil not_firstFailure_nil
  | cons a items ih =>
    obtain ⟨ha, hitems⟩ := List.forall_mem_cons.mp h
    rw [firstFailure_cons, firstFailure_cons, ha, ih hitems]

theorem firstFailure_map {g : α → β → γ} {items : List α} :
    FirstFailure (fun a => (f a).map (g a)) items e ↔ FirstFailure f items e := by
  simp only [FirstFailure, exists_map_eq_ok_iff, map_eq_error_iff]

theorem mapM_eq_ok_iff {items : List α} {results : List β} :
    items.mapM f = .ok results ↔ List.Forall₂ (fun a b => f a = .ok b) items results := by
  induction items generalizing results with
  | nil =>
    rw [List.mapM_nil, pure_eq_ok_iff, List.forall₂_nil_left_iff]
    exact eq_comm
  | cons a items ih =>
    simp only [List.mapM_cons, bind_eq_ok_iff, pure_eq_ok_iff, ih, List.forall₂_cons_left_iff]
    constructor
    · rintro ⟨b, ha, rest, hrest, rfl⟩
      exact ⟨b, rest, ha, hrest, rfl⟩
    · rintro ⟨b, rest, ha, hrest, rfl⟩
      exact ⟨b, ha, rest, hrest, rfl⟩

theorem mapM_eq_error_iff {items : List α} :
    items.mapM f = .error e ↔ FirstFailure f items e := by
  induction items with
  | nil => exact iff_of_false pure_ne_error not_firstFailure_nil
  | cons a items ih =>
    rw [List.mapM_cons, bind_eq_error_iff]
    simp only [bind_pure_eq_error_iff, ih, firstFailure_cons, exists_and_right]

theorem exists_forall₂_iff {items : List α} :
    (∃ results, List.Forall₂ (fun a b => f a = .ok b) items results) ↔
      ∀ a ∈ items, ∃ b, f a = .ok b := by
  induction items with
  | nil => simp
  | cons a items ih =>
    rw [List.forall_mem_cons, ← ih]
    constructor
    · intro ⟨_, h⟩
      obtain ⟨b, results, ha, hitems, _⟩ := List.forall₂_cons_left_iff.mp h
      exact ⟨⟨b, ha⟩, results, hitems⟩
    · intro ⟨⟨b, ha⟩, results, hitems⟩
      exact ⟨b :: results, .cons ha hitems⟩

theorem exists_firstFailure_iff {items : List α} :
    (∃ e, FirstFailure f items e) ↔ ¬ ∀ a ∈ items, ∃ b, f a = .ok b := by
  rw [← exists_forall₂_iff]
  simp only [← mapM_eq_error_iff, ← mapM_eq_ok_iff, exists_eq_error_iff]

end Lists

end ApiDocs
