import Mathlib.Data.Finset.Card
import Mathlib.Data.Finset.Range

/-! The first of a sequence of names that is not taken. As the names differ, it is found among as many as
are taken and one more.
-/

namespace Dagron.Library

variable {Name : Type} [DecidableEq Name]

/-- (firstFree fuel number) is the first name from (number) on that is not taken. -/
def firstFree (taken : List Name) (name : Nat → Name) : Nat → Nat → Name
  | 0, number => name number
  | fuel + 1, number =>
      if name number ∈ taken then firstFree taken name fuel (number + 1) else name number

theorem firstFree_eq (taken : List Name) (name : Nat → Name) (fuel number : Nat)
    : ∃ more, firstFree taken name fuel number = name (number + more) ∧ more ≤ fuel
      ∧ (∀ before < more, name (number + before) ∈ taken)
      ∧ (more < fuel → name (number + more) ∉ taken) := by
  induction fuel generalizing number with
  | zero => exact ⟨0, rfl, Nat.le_refl 0, fun _ less => absurd less (Nat.not_lt_zero _),
      fun less => absurd less (Nat.lt_irrefl 0)⟩
  | succ fuel ih =>
      rw [firstFree]
      by_cases there : name number ∈ taken
      · rw [if_pos there]
        obtain ⟨more, same, le, before, free⟩ := ih (number + 1)
        have shift : ∀ count, number + 1 + count = number + (count + 1) := fun count => by omega
        refine ⟨more + 1, by rw [same, shift], by omega, ?_, ?_⟩
        · intro count less
          cases count with
          | zero => exact there
          | succ count =>
              rw [← shift]
              exact before count (by omega)
        · intro less
          rw [← shift]
          exact free (by omega)
      · rw [if_neg there]
        exact ⟨0, rfl, Nat.zero_le _, fun _ less => absurd less (Nat.not_lt_zero _), fun _ => there⟩

theorem firstFree_not_mem {taken : List Name} {name : Nat → Name} (distinct : Function.Injective name)
    {fuel : Nat} (enough : taken.length ≤ fuel) (number : Nat)
    : firstFree taken name fuel number ∉ taken := by
  obtain ⟨more, same, le, before, free⟩ := firstFree_eq taken name fuel number
  rw [same]
  rcases Nat.lt_or_eq_of_le le with less | rfl
  · exact free less
  · intro there
    -- All of the names that were tried would be taken, and they are too many.
    have tried : (Finset.range (more + 1)).image (fun count => name (number + count))
        ⊆ taken.toFinset := by
      intro tried htried
      obtain ⟨count, hcount, rfl⟩ := Finset.mem_image.mp htried
      have within := Finset.mem_range.mp hcount
      rcases Nat.lt_or_eq_of_le (Nat.le_of_lt_succ within) with less | rfl
      · exact List.mem_toFinset.mpr (before count less)
      · exact List.mem_toFinset.mpr there
    have many := Finset.card_le_card tried
    rw [Finset.card_image_of_injective _ fun _ _ same => Nat.add_left_cancel (distinct same),
      Finset.card_range] at many
    have few := taken.toFinset_card_le
    omega

end Dagron.Library
