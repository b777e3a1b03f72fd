import Mathlib.Data.List.Infix
import Mathlib.Order.Bounds.Basic

/-! How much of the beginning of one sequence is the end of another, found by reading the other once:
where the next item does not go on, what is held falls back to its own longest proper border.
-/

namespace Dagron.Library

variable {α : Type}

/-- A size of a beginning that is the end of what was read. -/
def Ends (head read : List α) (size : Nat) : Prop :=
  size ≤ head.length ∧ head.take size <:+ read

section Ends

variable {head read : List α} {item : α} {size : Nat}

theorem ends_zero (head read : List α)
    : Ends head read 0 :=
  ⟨Nat.zero_le _, List.take_zero ▸ List.nil_suffix⟩

theorem Ends.le_length (ends : Ends head read size)
    : size ≤ read.length := by
  have within := ends.2.length_le
  rwa [List.length_take, Nat.min_eq_left ends.1] at within

/-- Within a beginning that is held, a shorter one is held where it is a proper border of it. -/
theorem ends_tail_iff (ends : Ends head read size) {shorter : Nat} (less : shorter < size)
    : Ends head (head.tail.take (size - 1)) shorter ↔ Ends head read shorter := by
  have tail : head.tail.take (size - 1) = (head.take size).tail := by
    cases head with
    | nil => simp
    | cons first rest =>
        obtain ⟨more, rfl⟩ : ∃ more, size = more + 1 := ⟨size - 1, by omega⟩
        rfl
  have onto : (head.take size).tail <:+ head.take size := List.tail_suffix _
  rw [tail]
  refine and_congr_right fun within => ⟨fun inner => (inner.trans onto).trans ends.2, fun inner => ?_⟩
  have first := List.suffix_of_suffix_length_le inner ends.2 (by
    rw [List.length_take, List.length_take]
    omega)
  refine List.suffix_of_suffix_length_le first onto ?_
  rw [List.length_tail, List.length_take, List.length_take]
  have := ends.1
  omega

theorem ends_concat_iff
    : Ends head (read ++ [item]) (size + 1) ↔ Ends head read size ∧ head[size]? = some item := by
  by_cases within : size < head.length
  · have taken : head.take (size + 1) = head.take size ++ [head[size]] :=
      List.take_succ_eq_append_getElem within
    have last : head[size]? = some head[size] := List.getElem?_eq_getElem within
    unfold Ends
    rw [taken, last, Option.some_inj]
    constructor
    · rintro ⟨_, before, same⟩
      rw [← List.append_assoc] at same
      obtain ⟨front, end_⟩ := List.append_inj' same rfl
      exact ⟨⟨within.le, before, front⟩, List.singleton_inj.mp end_⟩
    · rintro ⟨⟨_, before, rfl⟩, rfl⟩
      exact ⟨within, before, (List.append_assoc _ _ _).symm⟩
  · rw [List.getElem?_eq_none (Nat.not_lt.mp within)]
    exact ⟨fun ends => absurd ends.1 (by omega), fun both => by cases both.2⟩

end Ends

variable [DecidableEq α]

/-- (fallBack head back item fuel size) is how much of (head) is still held when (item) is next, of
(size) that was; (back) are the borders of its beginnings.
-/
def fallBack (head : List α) (back : List Nat) (item : α) : Nat → Nat → Nat
  | 0, size => size
  | fuel + 1, size =>
      if 0 < size ∧ head[size]? ≠ some item then
        fallBack head back item fuel (back.getD (size - 1) 0)
      else size

/-- How much of a sequence is held once an item is read after so much of it. -/
def advance (head : List α) (back : List Nat) (size : Nat) (item : α) : Nat :=
  let size := fallBack head back item size size
  if head[size]? = some item then size + 1 else size

/-- For each beginning of a sequence but the empty one, its longest proper border. -/
def borders : List α → List Nat
  | [] => []
  | first :: rest =>
      rest.foldl (fun back item =>
        back ++ [advance (first :: rest) back (back.getLastD 0) item]) [0]

/-- How much of the beginning of one sequence is the end of another. -/
def overlap (head read : List α) : Nat :=
  read.foldl (advance head (borders head)) 0

section Borders

variable {head read : List α} {back : List Nat} {item : α} {size : Nat}

/-- The longest proper borders of a sequence's beginnings, for as many as there are. -/
def Borders (head : List α) (back : List Nat) : Prop :=
  ∀ place (within : place < back.length),
    IsGreatest {size | Ends head (head.tail.take place) size} back[place]

/-- What is fallen back to is the most that the next item goes on from, if anything is; by induction
on how much was held.
-/
theorem fallBack_spec (known : Borders head back) {fuel : Nat} (room : size ≤ fuel)
    (listed : size ≤ back.length) (ends : Ends head read size)
    : let held := fallBack head back item fuel size
      Ends head read held ∧ (held = 0 ∨ head[held]? = some item)
        ∧ ∀ other, Ends head read other → held < other → other ≤ size →
            head[other]? ≠ some item := by
  induction fuel generalizing size with
  | zero =>
      obtain rfl := Nat.le_zero.mp room
      exact ⟨ends, .inl rfl, fun other _ more less => absurd more (Nat.not_lt.mpr less)⟩
  | succ fuel ih =>
      rw [fallBack]
      split_ifs with stuck
      · obtain ⟨some_, mismatch⟩ := stuck
        have place : size - 1 < back.length := by omega
        have border := known (size - 1) place
        have next : back.getD (size - 1) 0 = back[size - 1] := by
          rw [List.getD_eq_getElem?_getD, List.getElem?_eq_getElem place, Option.getD_some]
        have less : back[size - 1] < size := by
          have within := Ends.le_length border.1
          rw [List.length_take] at within
          omega
        rw [next]
        obtain ⟨holds, stops, none_⟩ := @ih back[size - 1] (by omega) (by omega)
          ((ends_tail_iff ends less).mp border.1)
        refine ⟨holds, stops, fun other other_ more within => ?_⟩
        rcases Nat.lt_or_eq_of_le within with shorter | rfl
        · exact none_ other other_ more (border.2 ((ends_tail_iff ends shorter).mpr other_))
        · exact mismatch
      · refine ⟨ends, ?_, fun other _ more less => absurd more (Nat.not_lt.mpr less)⟩
        by_cases some_ : 0 < size
        · exact .inr (not_not.mp fun mismatch => stuck ⟨some_, mismatch⟩)
        · exact .inl (Nat.eq_zero_of_not_pos some_)

theorem advance_spec (known : Borders head back) (listed : size ≤ back.length)
    (greatest : IsGreatest {size | Ends head read size} size)
    : IsGreatest {size | Ends head (read ++ [item]) size} (advance head back size item) := by
  obtain ⟨holds, stops, none_⟩ := @fallBack_spec _ _ head read back item size known size (Nat.le_refl _)
    listed greatest.1
  have most {other : Nat} (ends : Ends head (read ++ [item]) (other + 1))
      : other ≤ fallBack head back item size size ∧ head[other]? = some item := by
    obtain ⟨ends, goes⟩ := ends_concat_iff.mp ends
    refine ⟨Nat.not_lt.mp fun more => ?_, goes⟩
    exact none_ other ends more (greatest.2 ends) goes
  unfold advance
  dsimp only
  split_ifs with goes
  · refine ⟨ends_concat_iff.mpr ⟨holds, goes⟩, fun other ends => ?_⟩
    cases other with
    | zero => exact Nat.zero_le _
    | succ other => exact Nat.succ_le_succ (most ends).1
  · have empty := stops.resolve_right goes
    rw [empty] at goes ⊢
    refine ⟨ends_zero _ _, fun other ends => ?_⟩
    cases other with
    | zero => exact Nat.le_refl _
    | succ other =>
        obtain ⟨less, goes'⟩ := most ends
        rw [empty, Nat.le_zero] at less
        exact absurd (less ▸ goes') goes

theorem foldl_advance_spec (known : Borders head back) (listed : head.length ≤ back.length)
    (greatest : IsGreatest {size | Ends head read size} size) (more : List α)
    : IsGreatest {size | Ends head (read ++ more) size} (more.foldl (advance head back) size) := by
  induction more generalizing read size with
  | nil => rwa [List.append_nil]
  | cons item rest ih =>
      have next := ih (@advance_spec _ _ head read back item size known
        (greatest.1.1.trans listed) greatest)
      rwa [List.append_assoc, List.singleton_append] at next

theorem foldl_borders_spec {rest : List α} (whole : head.tail = read ++ rest)
    (within : read.length < head.length) (known : Borders head back)
    (listed : back.length = read.length + 1)
    (greatest : IsGreatest {size | Ends head read size} (back.getLastD 0))
    : let all := rest.foldl (fun back item => back ++ [advance head back (back.getLastD 0) item]) back
      Borders head all ∧ all.length = head.length := by
  induction rest generalizing read back with
  | nil =>
      have long := congrArg List.length whole
      rw [List.length_tail, List.append_nil] at long
      exact ⟨known, by rw [List.foldl_nil]; omega⟩
  | cons item rest ih =>
      rw [List.foldl_cons]
      have long := congrArg List.length whole
      rw [List.length_tail, List.length_append, List.length_cons] at long
      have next : IsGreatest {size | Ends head (read ++ [item]) size}
          (advance head back (back.getLastD 0) item) :=
        advance_spec known ((Ends.le_length greatest.1).trans (by omega)) greatest
      refine @ih (read ++ [item]) _ ?_ ?_ ?_ ?_ ?_
      · rw [whole, List.append_assoc, List.singleton_append]
      · rw [List.length_append, List.length_singleton]
        omega
      · intro place inside
        rw [List.length_append, List.length_singleton] at inside
        by_cases early : place < back.length
        · rw [List.getElem_append_left early]
          exact known place early
        · have last : place = read.length + 1 := by omega
          have reads : head.tail.take place = read ++ [item] := by
            have whole' : head.tail = (read ++ [item]) ++ rest := by
              rw [whole, List.append_assoc, List.singleton_append]
            rw [whole']
            exact List.take_left' (by rw [List.length_append, List.length_singleton, last])
          rw [reads, List.getElem_append_right (by omega)]
          simpa [last, listed] using next
      · rw [List.length_append, List.length_singleton, List.length_append, List.length_singleton, listed]
      · rwa [List.getLastD_concat]

theorem borders_spec (head : List α)
    : Borders head (borders head) ∧ (borders head).length = head.length := by
  cases head with
  | nil => exact ⟨fun place within => absurd within (Nat.not_lt_zero _), rfl⟩
  | cons first rest =>
      have alone : IsGreatest {size | Ends (first :: rest) ([] : List α) size} 0 :=
        ⟨ends_zero _ _, fun size ends => Ends.le_length ends⟩
      refine @foldl_borders_spec _ _ (first :: rest) [] [0] rest rfl (Nat.zero_lt_succ _) ?_ rfl alone
      intro place within
      obtain rfl := Nat.lt_one_iff.mp within
      exact alone

theorem overlap_spec (head read : List α)
    : IsGreatest {size | Ends head read size} (overlap head read) := by
  obtain ⟨known, listed⟩ := borders_spec head
  have none_ : IsGreatest {size | Ends head ([] : List α) size} 0 :=
    ⟨ends_zero _ _, fun size ends => Ends.le_length ends⟩
  exact foldl_advance_spec known listed.ge none_ read

end Borders

example : overlap [1, 2, 1, 2, 3] [3, 1, 2, 1, 2] = 4 := by decide

end Dagron.Library
