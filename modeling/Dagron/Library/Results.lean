import Mathlib.Data.List.Forall2

/-! Computations that return a value or an error.
-/

namespace Dagron.Library

variable {Error Other First Second Value : Type}

theorem exists_of_bind_eq_ok {first : Except Error First} {second : First → Except Error Second}
    {value : Second} (ok : first >>= second = .ok value)
    : ∃ middle, first = .ok middle ∧ second middle = .ok value := by
  cases first with
  | error problem => cases ok
  | ok middle => exact ⟨middle, rfl, ok⟩

theorem ok_bind (value : First) (next : First → Except Error Second)
    : (.ok value : Except Error First) >>= next = next value :=
  rfl

theorem bind_eq_ok_iff {first : Except Error First} {second : First → Except Error Second} {value : Second}
    : first >>= second = .ok value ↔ ∃ middle, first = .ok middle ∧ second middle = .ok value := by
  refine ⟨exists_of_bind_eq_ok, ?_⟩
  rintro ⟨middle, here, later⟩
  rw [here]
  exact later

/-- What a computation after another one comes to, if anything, comes of what the first does. -/
theorem toOption_bind (first : Except Error First) (second : First → Except Error Second)
    : (first >>= second).toOption = first.toOption.bind (fun middle => (second middle).toOption) := by
  cases first <;> rfl

theorem ok_of_mapError {first : Except Error Value} {into : Error → Other} {value : Value}
    (ok : first.mapError into = .ok value)
    : first = .ok value := by
  cases first with
  | error problem => cases ok
  | ok made => exact congrArg Except.ok (Except.ok.inj ok)

theorem mapError_eq_ok_iff {first : Except Error Value} {into : Error → Other} {value : Value}
    : first.mapError into = .ok value ↔ first = .ok value := by
  refine ⟨ok_of_mapError, ?_⟩
  rintro rfl
  rfl

theorem mapM_eq_ok {one : First → Except Error Second} {items : List First} {values : List Second}
    : items.mapM one = .ok values ↔ List.Forall₂ (fun item value => one item = .ok value) items values := by
  induction items generalizing values with
  | nil =>
      rw [List.mapM_nil, List.forall₂_nil_left_iff]
      exact ⟨fun ok => (Except.ok.inj ok).symm, fun empty => empty ▸ rfl⟩
  | cons item rest ih =>
      rw [List.mapM_cons]
      constructor
      · intro ok
        obtain ⟨value, first, ok⟩ := exists_of_bind_eq_ok ok
        obtain ⟨others, more, ok⟩ := exists_of_bind_eq_ok ok
        obtain rfl := Except.ok.inj ok
        exact .cons first (ih.mp more)
      · intro each
        cases each with
        | cons first more => rw [first, ih.mpr more]; rfl

end Dagron.Library
