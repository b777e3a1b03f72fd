import Mathlib.Data.List.Basic
import Mathlib.Data.List.Infix

/-! Lines of a sequence that only grows: each is ended by the same item, and what follows the last end
is a line that is not finished.
-/

namespace Dagron.Library

variable {Item : Type} {end_ : Item}

def Finished (end_ : Item) (items : List Item) : Prop :=
  ∀ last ∈ items.getLast?, last = end_

theorem finished_nil
    : Finished end_ [] :=
  nofun

theorem finished_concat (items : List Item)
    : Finished end_ (items ++ [end_]) := by
  intro last is
  simpa using is.symm

theorem Finished.append {first second : List Item} (finished : Finished end_ first)
    (more : Finished end_ second)
    : Finished end_ (first ++ second) := by
  intro last is
  rw [List.getLast?_append] at is
  cases ends : second.getLast? with
  | none =>
      rw [ends] at is
      exact finished last is
  | some other =>
      rw [ends] at is
      exact more last (ends.trans is)

variable [DecidableEq Item]

/-- The finished lines of a sequence, each with its end. -/
@[simp] def linesOf (end_ : Item) : List Item → List (List Item)
  | [] => []
  | item :: rest =>
      if item = end_ then [item] :: linesOf end_ rest
      else
        match linesOf end_ rest with
        | [] => []
        | line :: more => (item :: line) :: more

/-- The first line of a sequence with its end, or all of it where none is finished. -/
def firstLineOf (end_ : Item) : List Item → List Item
  | [] => []
  | item :: rest => if item = end_ then [item] else item :: firstLineOf end_ rest

theorem linesOf_unfinished {items : List Item} (unfinished : end_ ∉ items)
    : linesOf end_ items = [] := by
  induction items with
  | nil => rfl
  | cons item rest ih =>
      obtain ⟨other, rest_⟩ := List.ne_and_not_mem_of_not_mem_cons unfinished
      rw [linesOf, if_neg other.symm, ih rest_]

theorem linesOf_ne_nil {items : List Item} (listed : end_ ∈ items)
    : linesOf end_ items ≠ [] := by
  induction items with
  | nil => exact absurd listed List.not_mem_nil
  | cons item rest ih =>
      rw [linesOf]
      split_ifs with here
      · exact List.cons_ne_nil _ _
      · have more := ih ((List.mem_cons.mp listed).resolve_left (Ne.symm here))
        split
        case h_1 none_ => exact absurd none_ more
        case h_2 => exact List.cons_ne_nil _ _

theorem linesOf_append {first : List Item} (finished : Finished end_ first) (second : List Item)
    : linesOf end_ (first ++ second) = linesOf end_ first ++ linesOf end_ second := by
  induction first with
  | nil => rfl
  | cons item rest ih =>
      cases rest with
      | nil =>
          obtain rfl : item = end_ := finished item rfl
          simp [linesOf]
      | cons next others =>
          have tail : Finished end_ (next :: others) := fun last is =>
            finished last (by rw [List.getLast?_cons_cons]; exact is)
          have last : (next :: others).getLast (List.cons_ne_nil _ _) = end_ :=
            tail _ (List.getLast?_eq_some_getLast _)
          have some_ : linesOf end_ (next :: others) ≠ [] :=
            linesOf_ne_nil (last ▸ List.getLast_mem _)
          rw [List.cons_append, linesOf, linesOf, ih tail]
          split_ifs
          · rfl
          · cases lines : linesOf end_ (next :: others) with
            | nil => exact absurd lines some_
            | cons line more => rfl

theorem linesOf_grows (first second : List Item)
    : linesOf end_ first <+: linesOf end_ (first ++ second) := by
  induction first with
  | nil => exact List.nil_prefix
  | cons item rest ih =>
      rw [List.cons_append, linesOf, linesOf]
      split_ifs
      · exact List.cons_prefix_cons.mpr ⟨rfl, ih⟩
      · cases before : linesOf end_ rest with
        | nil => exact List.nil_prefix
        | cons line more =>
            rw [before] at ih
            cases after : linesOf end_ (rest ++ second) with
            | nil =>
                rw [after] at ih
                exact absurd (List.prefix_nil.mp ih) (List.cons_ne_nil _ _)
            | cons line' more' =>
                rw [after] at ih
                obtain ⟨rfl, grown⟩ := List.cons_prefix_cons.mp ih
                exact List.cons_prefix_cons.mpr ⟨rfl, grown⟩

theorem linesOf_line {items : List Item} (unfinished : end_ ∉ items)
    : linesOf end_ (items ++ [end_]) = [items ++ [end_]] := by
  induction items with
  | nil => simp [linesOf]
  | cons item rest ih =>
      obtain ⟨other, rest_⟩ := List.ne_and_not_mem_of_not_mem_cons unfinished
      rw [List.cons_append, linesOf, if_neg other.symm, ih rest_]

/-- The first line of a sequence begins it, and ends where it ends, or there is no end at all. -/
theorem firstLineOf_spec (items : List Item)
    : (∃ body rest, firstLineOf end_ items = body ++ [end_] ∧ end_ ∉ body
        ∧ items = body ++ [end_] ++ rest)
      ∨ end_ ∉ items ∧ firstLineOf end_ items = items := by
  induction items with
  | nil => exact Or.inr ⟨List.not_mem_nil, rfl⟩
  | cons item rest ih =>
      by_cases here : item = end_
      · subst here
        refine Or.inl ⟨[], rest, ?_, List.not_mem_nil, rfl⟩
        simp [firstLineOf]
      · rw [firstLineOf, if_neg here]
        obtain ⟨body, others, same, unfinished, rfl⟩ | ⟨unfinished, same⟩ := ih
        · exact Or.inl ⟨item :: body, others, congrArg (List.cons item) same,
            List.not_mem_cons_of_ne_of_not_mem (Ne.symm here) unfinished, rfl⟩
        · exact Or.inr ⟨List.not_mem_cons_of_ne_of_not_mem (Ne.symm here) unfinished, by rw [same]⟩

/-- All lines of a sequence without their ends, the last one also where it is not finished. -/
@[simp] def allLines (end_ : Item) : List Item → List (List Item)
  | [] => []
  | item :: rest =>
      if item = end_ then [] :: allLines end_ rest
      else
        match allLines end_ rest with
        | [] => [[item]]
        | line :: more => (item :: line) :: more

theorem allLines_line {line : List Item} (unfinished : end_ ∉ line) (rest : List Item)
    : allLines end_ (line ++ end_ :: rest) = line :: allLines end_ rest := by
  induction line with
  | nil => simp [allLines]
  | cons item more ih =>
      obtain ⟨other, more_⟩ := List.ne_and_not_mem_of_not_mem_cons unfinished
      rw [List.cons_append, allLines, if_neg other.symm, ih more_]

theorem allLines_unfinished {items : List Item} (unfinished : end_ ∉ items)
    : allLines end_ items = if items = [] then [] else [items] := by
  induction items with
  | nil => rfl
  | cons item more ih =>
      obtain ⟨other, more_⟩ := List.ne_and_not_mem_of_not_mem_cons unfinished
      rw [allLines, if_neg other.symm, ih more_]
      cases more <;> rfl

example : linesOf 0 [1, 2, 0, 0, 3] = [[1, 2, 0], [0]] := by decide

end Dagron.Library
