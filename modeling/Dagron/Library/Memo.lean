import Mathlib.Data.List.Basic

/-! A table of the answers that are known of a question with two numbers, some of which are still to be
found.
-/

namespace Dagron.Library

variable {Answer : Type}

abbrev Memo (Answer : Type) := List (List (Option Answer))

namespace Memo

def blank (rows columns : Nat) : Memo Answer :=
  List.replicate rows (List.replicate columns none)

def cell (memo : Memo Answer) (row column : Nat) : Option Answer :=
  (memo[row]?.bind fun cells => cells[column]?).join

def fill (memo : Memo Answer) (row column : Nat) (answer : Answer) : Memo Answer :=
  memo.modify row fun cells => cells.set column (some answer)

def Sound (right : Nat → Nat → Answer) (memo : Memo Answer) : Prop :=
  ∀ row column answer, memo.cell row column = some answer → answer = right row column

theorem cell_blank (rows columns row column : Nat)
    : (blank rows columns : Memo Answer).cell row column = none := by
  unfold cell blank
  rw [List.getElem?_replicate]
  by_cases within : row < rows
  · rw [if_pos within, Option.bind_some, List.getElem?_replicate]
    by_cases inside : column < columns
    · rw [if_pos inside]
      rfl
    · rw [if_neg inside]
      rfl
  · rw [if_neg within]
    rfl

/-- What is read of a table after a cell of it is filled was there before, or is what the cell was filled
with.
-/
theorem cell_fill (memo : Memo Answer) {row column row' column' : Nat} {answer answer' : Answer}
    (read : (memo.fill row column answer).cell row' column' = some answer')
    : memo.cell row' column' = some answer'
      ∨ (row' = row ∧ column' = column ∧ answer' = answer) := by
  unfold cell fill at read
  rw [List.getElem?_modify] at read
  by_cases sameRow : row = row'
  · subst sameRow
    unfold cell
    cases found : memo[row]? with
    | none =>
        rw [found] at read
        cases read
    | some cells =>
        rw [found, Option.map_eq_map, Option.map_some, Option.bind_some] at read
        simp only [if_true, List.getElem?_set] at read
        by_cases sameColumn : column = column'
        · subst sameColumn
          by_cases inside : column < cells.length
          · simp only [inside, if_true, Option.join_some, Option.some_inj] at read
            exact Or.inr ⟨rfl, rfl, read.symm⟩
          · simp only [inside, if_true, if_false] at read
            cases read
        · simp only [sameColumn, if_false] at read
          exact Or.inl read
  · simp only [sameRow, if_false, Option.map_eq_map, Option.map_id_fun', id_eq] at read
    exact Or.inl read

theorem sound_blank (right : Nat → Nat → Answer) (rows columns : Nat)
    : Sound right (blank rows columns) := by
  intro row column answer read
  rw [cell_blank] at read
  cases read

theorem Sound.fill {right : Nat → Nat → Answer} {memo : Memo Answer} (sound : Sound right memo)
    (row column : Nat)
    : Sound right (memo.fill row column (right row column)) := by
  intro row' column' answer read
  rcases cell_fill memo read with before | ⟨rfl, rfl, same⟩
  · exact sound row' column' answer before
  · exact same

end Memo

end Dagron.Library
