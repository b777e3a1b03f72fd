import Mathlib.Computability.Language

/-! The languages that wildcards stand for, over any letters, one of which separates parts: a single
letter, a run within a part, any run, and any number of whole parts. Each is described by what a word that
goes on in a further language begins with.
-/

namespace Dagron.Library

open scoped Computability

variable {Letter : Type}

def single (letters : Letter → Prop) : Language Letter :=
  {word | ∃ letter, word = [letter] ∧ letters letter}

def within (separator : Letter) : Language Letter :=
  {word | separator ∉ word}

def anyRun : Language Letter :=
  {_word | True}

/-- Any number of whole parts, each with the separator that ends it. -/
def parts (separator : Letter) : Language Letter :=
  (within separator * single (· = separator))∗

variable {separator : Letter} {further : Language Letter} {word : List Letter}

theorem mem_single_mul_iff {letters : Letter → Prop}
    : word ∈ single letters * further
      ↔ ∃ letter rest, word = letter :: rest ∧ letters letter ∧ rest ∈ further := by
  rw [Language.mem_mul]
  constructor
  · rintro ⟨_, ⟨letter, rfl, chosen⟩, rest, hrest, rfl⟩
    exact ⟨letter, rest, rfl, chosen, hrest⟩
  · rintro ⟨letter, rest, rfl, chosen, hrest⟩
    exact ⟨[letter], ⟨letter, rfl, chosen⟩, rest, hrest, rfl⟩

theorem mem_within_mul_iff
    : word ∈ within separator * further
      ↔ word ∈ further
        ∨ ∃ letter rest, word = letter :: rest ∧ letter ≠ separator
          ∧ rest ∈ within separator * further := by
  simp only [Language.mem_mul]
  constructor
  · rintro ⟨run, hrun, rest, hrest, rfl⟩
    cases run with
    | nil => exact Or.inl hrest
    | cons letter run =>
        obtain ⟨first, others⟩ := not_or.mp (mt List.mem_cons.mpr hrun)
        exact Or.inr ⟨letter, run ++ rest, rfl, Ne.symm first, run, others, rest, hrest, rfl⟩
  · rintro (here | ⟨letter, _, rfl, hne, run, hrun, rest, hrest, rfl⟩)
    · exact ⟨[], List.not_mem_nil, word, here, rfl⟩
    · have wider : separator ∉ letter :: run :=
        mt List.mem_cons.mp (not_or.mpr ⟨Ne.symm hne, hrun⟩)
      exact ⟨letter :: run, wider, rest, hrest, rfl⟩

theorem mem_anyRun_mul_iff
    : word ∈ anyRun * further
      ↔ word ∈ further ∨ ∃ letter rest, word = letter :: rest ∧ rest ∈ anyRun * further := by
  simp only [Language.mem_mul]
  constructor
  · rintro ⟨run, _, rest, hrest, rfl⟩
    cases run with
    | nil => exact Or.inl hrest
    | cons letter run => exact Or.inr ⟨letter, run ++ rest, rfl, run, trivial, rest, hrest, rfl⟩
  · rintro (here | ⟨letter, _, rfl, run, _, rest, hrest, rfl⟩)
    · exact ⟨[], trivial, word, here, rfl⟩
    · exact ⟨letter :: run, trivial, rest, hrest, rfl⟩

theorem mem_parts_iff
    : word ∈ parts separator ↔ word = [] ∨ ∃ before, word = before ++ [separator] := by
  constructor
  · intro hword
    obtain ⟨pieces, rfl, each⟩ := Language.mem_kstar.mp hword
    rcases List.eq_nil_or_concat pieces with rfl | ⟨others, last, rfl⟩
    · exact Or.inl rfl
    · obtain ⟨run, _, _, ⟨_, rfl, rfl⟩, rfl⟩ :=
        Language.mem_mul.mp (each last (by simp))
      exact Or.inr ⟨others.flatten ++ run, by simp⟩
  · rintro (rfl | ⟨before, rfl⟩)
    · exact Language.nil_mem_kstar _
    · -- The parts are cut off the front, one separator at a time.
      induction hsize : before.length using Nat.strong_induction_on generalizing before with
      | _ size ih =>
          by_cases has : separator ∈ before
          · obtain ⟨run, rest, rfl, first⟩ := List.eq_append_cons_of_mem has
            have shorter : rest.length < size := by
              rw [← hsize, List.length_append, List.length_cons]
              omega
            obtain ⟨pieces, joined, each⟩ :=
              Language.mem_kstar.mp (ih rest.length shorter rest rfl)
            have piece : run ++ [separator] ∈ within separator * single (· = separator) :=
              Language.append_mem_mul first ⟨separator, rfl, rfl⟩
            refine Language.mem_kstar.mpr ⟨(run ++ [separator]) :: pieces, ?_, ?_⟩
            · rw [List.flatten_cons, ← joined]
              simp
            · intro next hnext
              rcases List.mem_cons.mp hnext with rfl | hnext
              · exact piece
              · exact each next hnext
          · have piece : before ++ [separator] ∈ within separator * single (· = separator) :=
              Language.append_mem_mul has ⟨separator, rfl, rfl⟩
            have alone : ([before ++ [separator]] : List (List Letter)).flatten ∈ parts separator :=
              Language.join_mem_kstar (by simpa using piece)
            simpa using alone

theorem mem_parts_mul_iff
    : word ∈ parts separator * further
      ↔ word ∈ further
        ∨ ∃ place, word[place]? = some separator ∧ word.drop (place + 1) ∈ further := by
  rw [Language.mem_mul]
  constructor
  · rintro ⟨run, hrun, rest, hrest, rfl⟩
    rcases mem_parts_iff.mp hrun with rfl | ⟨before, rfl⟩
    · exact Or.inl hrest
    · refine Or.inr ⟨before.length, by simp, ?_⟩
      rw [List.drop_left' (by simp)]
      exact hrest
  · rintro (here | ⟨place, hplace, hrest⟩)
    · exact ⟨[], Language.nil_mem_kstar _, word, here, rfl⟩
    · obtain ⟨inside, rfl⟩ := List.getElem?_eq_some_iff.mp hplace
      refine ⟨word.take (place + 1), mem_parts_iff.mpr (Or.inr ⟨word.take place, ?_⟩),
        word.drop (place + 1), hrest, List.take_append_drop _ _⟩
      rw [List.take_succ_eq_append_getElem inside]

end Dagron.Library
