import Mathlib.Algebra.GroupWithZero.Nat
import Mathlib.Data.List.Infix

/-! What fits a room of items that take some of it each: the longest beginning of a sequence that fits, and
what is kept of sequences that arrive one after the other, each cut where the room ends.
-/

namespace Dagron.Library

variable {Item : Type} {weight : Item → Nat}

-- One sequence

def roomOf (weight : Item → Nat) (items : List Item) : Nat :=
  (items.map weight).sum

@[simp]
theorem roomOf_cons (item : Item) (items : List Item)
    : roomOf weight (item :: items) = weight item + roomOf weight items :=
  rfl

theorem roomOf_append (first second : List Item)
    : roomOf weight (first ++ second) = roomOf weight first + roomOf weight second := by
  rw [roomOf, List.map_append, List.sum_append]
  rfl

theorem roomOf_prefix (weight : Item → Nat) {first second : List Item} (begins : first <+: second)
    : roomOf weight first ≤ roomOf weight second := by
  obtain ⟨rest, rfl⟩ := begins
  rw [roomOf_append]
  exact Nat.le_add_right _ _

/-- The longest beginning of a sequence that fits a room. -/
def fitting (weight : Item → Nat) : Nat → List Item → List Item
  | _, [] => []
  | room, item :: items => if weight item ≤ room then item :: fitting weight (room - weight item) items else []

theorem fitting_begins (weight : Item → Nat) (room : Nat) (items : List Item)
    : fitting weight room items <+: items := by
  induction items generalizing room with
  | nil => exact List.nil_prefix
  | cons item items ih =>
      rw [fitting]
      split
      next => exact List.cons_prefix_cons.mpr ⟨rfl, ih _⟩
      next => exact List.nil_prefix

theorem roomOf_fitting (room : Nat) (items : List Item)
    : roomOf weight (fitting weight room items) ≤ room := by
  induction items generalizing room with
  | nil => exact Nat.zero_le _
  | cons item items ih =>
      rw [fitting]
      split
      next fits =>
        have rest := ih (room - weight item)
        rw [roomOf_cons]
        omega
      next => exact Nat.zero_le _

theorem prefix_fitting {room : Nat} {first items : List Item} (begins : first <+: items)
    (fits : roomOf weight first ≤ room)
    : first <+: fitting weight room items := by
  induction items generalizing room first with
  | nil => rwa [fitting]
  | cons item items ih =>
      cases first with
      | nil => exact List.nil_prefix
      | cons other first =>
          obtain ⟨rfl, later⟩ := List.cons_prefix_cons.mp begins
          rw [roomOf_cons] at fits
          rw [fitting, if_pos (by omega)]
          exact List.cons_prefix_cons.mpr ⟨rfl, ih later (by omega)⟩

theorem eq_fitting_iff {room : Nat} {kept items : List Item}
    : kept = fitting weight room items
      ↔ kept <+: items ∧ roomOf weight kept ≤ room
        ∧ ∀ longer, longer <+: items → roomOf weight longer ≤ room → longer.length ≤ kept.length := by
  constructor
  · rintro rfl
    exact ⟨fitting_begins weight room items, roomOf_fitting room items,
      fun longer begins fits => (prefix_fitting begins fits).length_le⟩
  · rintro ⟨begins, fits, longest⟩
    have short := longest _ (fitting_begins weight room items) (roomOf_fitting room items)
    exact (prefix_fitting begins fits).eq_of_length_le short

theorem fitting_of_fits {room : Nat} {items : List Item} (fits : roomOf weight items ≤ room)
    : fitting weight room items = items :=
  (fitting_begins weight room items).eq_of_length_le (prefix_fitting List.prefix_rfl fits).length_le

/-- Of a sequence that begins with one that fits, that is kept, and of the rest what fits the room left. -/
theorem fitting_append_of_fits {room : Nat} {first : List Item} (fits : roomOf weight first ≤ room)
    (second : List Item)
    : fitting weight room (first ++ second) = first ++ fitting weight (room - roomOf weight first) second := by
  induction first generalizing room with
  | nil => rfl
  | cons item first ih =>
      rw [roomOf_cons] at fits ⊢
      rw [List.cons_append, fitting, if_pos (by omega), ih (by omega), Nat.sub_sub]
      rfl

theorem fitting_append_of_over {room : Nat} {first : List Item} (over_ : room < roomOf weight first)
    (second : List Item)
    : fitting weight room (first ++ second) = fitting weight room first := by
  induction first generalizing room with
  | nil => exact absurd over_ (Nat.not_lt_zero _)
  | cons item first ih =>
      rw [roomOf_cons] at over_
      rw [List.cons_append, fitting, fitting]
      split
      next => rw [ih (by omega)]
      next => rfl

theorem fitting_eq_nil {room : Nat} {items : List Item}
    : fitting weight room items = [] ↔ ∀ item ∈ items.head?, room < weight item := by
  cases items with
  | nil => simp [fitting]
  | cons item items =>
      rw [fitting]
      split
      next fits => simpa using fits
      next large => simpa using large

-- Sequences one after the other

/-- What is kept of sequences that arrive one after the other, of each what fits the room left. -/
def pour (weight : Item → Nat) : Nat → List (List Item) → List Item
  | _, [] => []
  | room, part :: parts =>
      let taken := fitting weight room part
      taken ++ pour weight (room - roomOf weight taken) parts

theorem foldl_pour (room : Nat) (kept : List Item) (parts : List (List Item))
    : parts.foldl (fun kept part => kept ++ fitting weight (room - roomOf weight kept) part) kept
      = kept ++ pour weight (room - roomOf weight kept) parts := by
  induction parts generalizing kept with
  | nil => exact (List.append_nil kept).symm
  | cons part parts ih =>
      rw [List.foldl_cons, ih, roomOf_append, ← Nat.sub_sub, List.append_assoc]
      rfl

/-- Whether, once a sequence is cut, none of the later ones begins with an item that the room left has a place for. -/
def ClosedOnceCut (weight : Item → Nat) : Nat → List (List Item) → Prop
  | _, [] => True
  | room, part :: parts =>
      if roomOf weight part ≤ room then ClosedOnceCut weight (room - roomOf weight part) parts
      else ∀ later ∈ parts, ∀ item ∈ later.head?, room - roomOf weight (fitting weight room part) < weight item

theorem pour_eq_nil {room : Nat} {parts : List (List Item)}
    : pour weight room parts = [] ↔ ∀ part ∈ parts, ∀ item ∈ part.head?, room < weight item := by
  induction parts with
  | nil => simp [pour]
  | cons part parts ih =>
      rw [pour, List.append_eq_nil_iff, fitting_eq_nil, List.forall_mem_cons]
      refine and_congr_right fun none_ => ?_
      rw [fitting_eq_nil.mpr none_]
      exact ih

/-- What is kept of sequences is the longest beginning of them all that fits exactly where none of them goes on
after a cut.
-/
theorem pour_eq_fitting_iff {room : Nat} {parts : List (List Item)}
    : pour weight room parts = fitting weight room parts.flatten ↔ ClosedOnceCut weight room parts := by
  induction parts generalizing room with
  | nil => exact iff_of_true rfl trivial
  | cons part parts ih =>
      rw [pour, ClosedOnceCut, List.flatten_cons]
      split
      next fits => rw [fitting_of_fits fits, fitting_append_of_fits fits, List.append_cancel_left_eq, ih]
      next large => rw [fitting_append_of_over (by omega), List.append_right_eq_self, pour_eq_nil]

end Dagron.Library
