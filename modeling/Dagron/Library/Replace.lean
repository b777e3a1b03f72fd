import Mathlib.Data.List.Infix
import Mathlib.Data.List.Perm.Basic

/-! Replacing values in a sequence, one after the other, each from the left on. Items are compared by
a key, so that a sequence may carry with each item where it came from: what the result still shows
of it can then be said of its places.
-/

namespace Dagron.Library

variable {α β γ : Type}

-- Occurrences

def OccursAt (value text : List α) (start : Nat) : Prop :=
  value <+: text.drop start

/-- A place inside an occurrence of one of some values. -/
def Covers (values : List (List α)) (text : List α) (place : Nat) : Prop :=
  ∃ value ∈ values, ∃ start, OccursAt value text start ∧ start ≤ place ∧ place < start + value.length

/-- A place with an occurrence of a value that begins before it and ends after it. -/
def Spans (value text : List α) (place : Nat) : Prop :=
  ∃ start, OccursAt value text start ∧ start < place ∧ place < start + value.length

/-- Where two occurrences share a place, one occurrence holds both. -/
def Joined (values : List (List α)) (text : List α) : Prop :=
  ∀ first ∈ values, ∀ start, OccursAt first text start →
    ∀ second ∈ values, ∀ start', OccursAt second text start' →
      start < start' + second.length → start' < start + first.length →
        ∃ value ∈ values, ∃ start'', OccursAt value text start'' ∧ start'' ≤ min start start'
          ∧ max (start + first.length) (start' + second.length) ≤ start'' + value.length

/-- A value that shares no place with a mark, whatever is around the mark. -/
def Apart (mark value : List α) : Prop :=
  ∀ before after start, OccursAt value (before ++ mark ++ after) start →
    start + value.length ≤ before.length ∨ before.length + mark.length ≤ start

section Occurrences

variable {value : List α} {values : List (List α)} {first second text : List α} {start place : Nat}

theorem occursAt_iff (holds : value ≠ [])
    : OccursAt value text start ↔ ∃ before after, text = before ++ value ++ after
        ∧ before.length = start := by
  constructor
  · rintro ⟨after, rest⟩
    have within : start ≤ text.length := by
      by_contra past
      rw [List.drop_eq_nil_of_le (by omega)] at rest
      exact holds (List.append_eq_nil_iff.mp rest).1
    refine ⟨text.take start, after, ?_, List.length_take_of_le within⟩
    rw [List.append_assoc, rest, List.take_append_drop]
  · rintro ⟨before, after, rfl, rfl⟩
    rw [OccursAt, List.append_assoc, List.drop_left]
    exact List.prefix_append _ _

theorem OccursAt.le_length (occurs : OccursAt value text start) (holds : value ≠ [])
    : start + value.length ≤ text.length := by
  obtain ⟨before, after, rfl, rfl⟩ := (occursAt_iff holds).mp occurs
  rw [List.length_append, List.length_append]
  omega

theorem occursAt_append_left (fits : start + value.length ≤ first.length)
    : OccursAt value (first ++ second) start ↔ OccursAt value first start := by
  rw [OccursAt, List.drop_append_of_le_length (by omega)]
  constructor
  · intro occurs
    exact List.prefix_of_prefix_length_le occurs (List.prefix_append _ _)
      (by rw [List.length_drop]; omega)
  · exact fun occurs => occurs.trans (List.prefix_append _ _)

theorem occursAt_append_right
    : OccursAt value (first ++ second) (first.length + start) ↔ OccursAt value second start := by
  rw [OccursAt, OccursAt, ← List.drop_drop, List.drop_left]

theorem occursAt_within {before middle after : List α} (begins : before.length ≤ start)
    (ends : start + value.length ≤ before.length + middle.length)
    : OccursAt value (before ++ middle ++ after) start
      ↔ OccursAt value middle (start - before.length) := by
  obtain ⟨later, rfl⟩ := Nat.exists_eq_add_of_le begins
  rw [occursAt_append_left (by rw [List.length_append]; exact ends), occursAt_append_right,
    Nat.add_sub_cancel_left]

theorem Spans.append_right (spans : Spans value second place)
    : Spans value (first ++ second) (first.length + place) := by
  obtain ⟨start, occurs, begun, ends⟩ := spans
  exact ⟨first.length + start, occursAt_append_right.mpr occurs, by omega, by omega⟩

theorem covers_append (whole : ∀ value ∈ values, ¬ Spans value (first ++ second) first.length)
    : Covers values (first ++ second) place
      ↔ place < first.length ∧ Covers values first place
        ∨ first.length ≤ place ∧ Covers values second (place - first.length) := by
  constructor
  · rintro ⟨value, listed, start, occurs, begun, ends⟩
    by_cases left : start + value.length ≤ first.length
    · exact .inl ⟨by omega, value, listed, start, (occursAt_append_left left).mp occurs, begun, ends⟩
    · have right : first.length ≤ start := by
        by_contra early
        exact whole value listed ⟨start, occurs, by omega, by omega⟩
      obtain ⟨later, rfl⟩ := Nat.exists_eq_add_of_le right
      exact .inr ⟨by omega, value, listed, later, occursAt_append_right.mp occurs, by omega, by omega⟩
  · rintro (⟨_, value, listed, start, occurs, begun, ends⟩ | ⟨after, value, listed, start, occurs, begun, ends⟩)
    · have fits := occurs.le_length (List.ne_nil_of_length_pos (by omega))
      exact ⟨value, listed, start, (occursAt_append_left fits).mpr occurs, begun, ends⟩
    · exact ⟨value, listed, first.length + start, occursAt_append_right.mpr occurs, by omega, by omega⟩

/-- Each part of a sequence cut where no value spans has occurrences that are joined, where the
whole has.
-/
theorem Joined.append (joined : Joined values (first ++ second)) (holds : ∀ value ∈ values, value ≠ [])
    (whole : ∀ value ∈ values, ¬ Spans value (first ++ second) first.length)
    : Joined values first ∧ Joined values second := by
  constructor
  · intro one listed start occurs other listed' start' occurs' meets meets'
    have fits := occurs.le_length (holds one listed)
    have fits' := occurs'.le_length (holds other listed')
    obtain ⟨value, within, start'', found, begun, ends⟩ := joined one listed start
      ((occursAt_append_left fits).mpr occurs) other listed' start'
      ((occursAt_append_left fits').mpr occurs') meets meets'
    have some_ := List.length_pos_iff.mpr (holds one listed)
    have left : start'' + value.length ≤ first.length := by
      by_contra past
      exact whole value within ⟨start'', found, by omega, by omega⟩
    exact ⟨value, within, start'', (occursAt_append_left left).mp found, begun, ends⟩
  · intro one listed start occurs other listed' start' occurs' meets meets'
    obtain ⟨value, within, start'', found, begun, ends⟩ := joined one listed (first.length + start)
      (occursAt_append_right.mpr occurs) other listed' (first.length + start')
      (occursAt_append_right.mpr occurs') (by omega) (by omega)
    have some_ := List.length_pos_iff.mpr (holds one listed)
    have right : first.length ≤ start'' := by
      by_contra early
      exact whole value within ⟨start'', found, by omega, by omega⟩
    obtain ⟨later, rfl⟩ := Nat.exists_eq_add_of_le right
    exact ⟨value, within, later, occursAt_append_right.mp found, by omega, by omega⟩

theorem Apart.absent {mark : List α} (apart : Apart mark value) (holds : value ≠ []) (start : Nat)
    : ¬ OccursAt value mark start := by
  intro occurs
  have within := occurs.le_length holds
  have some_ := List.length_pos_iff.mpr holds
  have around : OccursAt value ([] ++ mark ++ []) start := by
    rwa [List.nil_append, List.append_nil]
  rcases apart [] [] start around with early | late
  · rw [List.length_nil] at early
    omega
  · rw [List.length_nil] at late
    omega

theorem exists_first {holds : List α → Prop} (some_ : ∃ value ∈ values, holds value)
    : ∃ earlier value later, values = earlier ++ value :: later ∧ holds value
        ∧ ∀ other ∈ earlier, ¬ holds other := by
  induction values with
  | nil => exact absurd some_ (by simp)
  | cons value rest ih =>
      by_cases first : holds value
      · exact ⟨[], value, rest, rfl, first, fun other listed => by cases listed⟩
      · obtain ⟨other, listed, here⟩ := some_
        rcases List.mem_cons.mp listed with rfl | listed
        · exact absurd here first
        · obtain ⟨earlier, found, later, split, is, none⟩ := ih ⟨other, listed, here⟩
          refine ⟨value :: earlier, found, later, by rw [split]; rfl, is, ?_⟩
          intro before listed
          rcases List.mem_cons.mp listed with rfl | listed
          · exact first
          · exact none before listed

/-- No value spans an end of an occurrence of the first value that occurs at all: one that did would
be in a longer one with it, which comes before it.
-/
theorem not_spans_first {earlier later : List (List α)} (listed : values = earlier ++ value :: later)
    (longer : values.Pairwise fun earlier later => earlier <:+: later → earlier = later)
    (joined : Joined values text)
    (absent : ∀ other ∈ earlier, ∀ start, ¬ OccursAt other text start)
    (holds : value ≠ []) (occurs : OccursAt value text start)
    {other : List α} (within : other ∈ values)
    (end_ : place = start ∨ place = start + value.length)
    : ¬ Spans other text place := by
  rintro ⟨start', occurs', begun, ends⟩
  have some_ := List.length_pos_iff.mpr holds
  have here : value ∈ values := by
    rw [listed]
    exact List.mem_append_right _ List.mem_cons_self
  obtain ⟨both, among, start'', found, begins, reaches⟩ :=
    joined value here start occurs other within start' occurs' (by omega) (by omega)
  have long : value.length < both.length := by omega
  have inner : value <:+: both := by
    obtain ⟨offset, rfl⟩ := Nat.exists_eq_add_of_le (show start'' ≤ start by omega)
    have cut : both.drop offset <+: text.drop (start'' + offset) := by
      rw [← List.drop_drop]
      exact List.IsPrefix.drop found offset
    have shorter : value.length ≤ (both.drop offset).length := by
      rw [List.length_drop]
      omega
    exact (List.prefix_of_prefix_length_le occurs cut shorter).isInfix.trans
      (List.drop_suffix offset both).isInfix
  have different : value ≠ both := fun same => by
    rw [same] at long
    exact absurd long (Nat.lt_irrefl _)
  rw [listed] at among longer
  rcases List.mem_append.mp among with before | after
  · exact absent both before start'' found
  · rcases List.mem_cons.mp after with same | after
    · exact different same.symm
    · exact different ((List.pairwise_cons.mp (List.pairwise_append.mp longer).2.1).1 both after inner)

end Occurrences

-- One value

section Replace

variable [DecidableEq α] (key : β → α) (mark : List β)

/-- (replaceFrom value skip items) are (items) but the first (skip), each occurrence of a value
among them replaced, from the left on.
-/
def replaceFrom (value : List α) : Nat → List β → List β
  | _, [] => []
  | skip + 1, _ :: rest => replaceFrom value skip rest
  | 0, item :: rest =>
      if value.isPrefixOf ((item :: rest).map key) then
        mark ++ replaceFrom value (value.length - 1) rest
      else item :: replaceFrom value 0 rest

/-- A sequence with a mark in the place of each occurrence of a value. -/
def replace (value : List α) (items : List β) : List β :=
  replaceFrom key mark value 0 items

/-- A sequence with a mark in the place of each occurrence of some values, one after the other. -/
def replaceAll (values : List (List α)) (items : List β) : List β :=
  values.foldl (fun items value => replace key mark value items) items

variable {key mark} {value : List α} {items first second : List β}

theorem replaceFrom_eq (skip : Nat)
    : replaceFrom key mark value skip items = replace key mark value (items.drop skip) := by
  induction items generalizing skip with
  | nil => cases skip <;> rfl
  | cons item rest ih =>
      cases skip with
      | zero => rfl
      | succ skip => exact ih skip

theorem replace_occurs (holds : value ≠ []) (occurs : value <+: items.map key)
    : replace key mark value items = mark ++ replace key mark value (items.drop value.length) := by
  cases items with
  | nil => exact absurd (List.prefix_nil.mp occurs) holds
  | cons item rest =>
      obtain ⟨more, long⟩ := Nat.exists_eq_succ_of_ne_zero (List.length_pos_iff.mpr holds).ne'
      rw [replace, replaceFrom, if_pos (List.isPrefixOf_iff_prefix.mpr occurs), replaceFrom_eq, long]
      rfl

theorem replace_cons {item : β} {rest : List β} (absent : ¬ value <+: (item :: rest).map key)
    : replace key mark value (item :: rest) = item :: replace key mark value rest := by
  rw [replace, replaceFrom, if_neg (mt List.isPrefixOf_iff_prefix.mp absent)]
  rfl

theorem replace_induction (key : β → α) (holds : value ≠ []) {motive : List β → Prop} (nil : motive [])
    (occurs : ∀ items, value <+: items.map key → motive (items.drop value.length) → motive items)
    (absent : ∀ item rest, ¬ value <+: (item :: rest).map key → motive rest → motive (item :: rest))
    (items : List β)
    : motive items := by
  induction size : items.length using Nat.strongRecOn generalizing items with
  | ind size ih =>
      cases items with
      | nil => exact nil
      | cons item rest =>
          by_cases here : value <+: (item :: rest).map key
          · refine occurs _ here (ih _ ?_ _ rfl)
            have some_ := List.length_pos_iff.mpr holds
            rw [List.length_drop, ← size, List.length_cons]
            omega
          · exact absent item rest here (ih rest.length (by rw [← size]; exact Nat.lt_succ_self _) rest rfl)

theorem replace_absent (absent : ∀ start, ¬ OccursAt value (items.map key) start)
    : replace key mark value items = items := by
  induction items with
  | nil => rfl
  | cons item rest ih =>
      rw [replace_cons (absent 0), ih fun start => absent (start + 1)]

theorem replace_append (holds : value ≠ []) (whole : ¬ Spans value ((first ++ second).map key) first.length)
    : replace key mark value (first ++ second)
      = replace key mark value first ++ replace key mark value second := by
  induction first using replace_induction key holds with
  | nil => rfl
  | occurs items here ih =>
      have there : value <+: (items ++ second).map key := by
        rw [List.map_append]
        exact here.trans (List.prefix_append _ _)
      have long := here.length_le
      rw [List.length_map] at long
      rw [replace_occurs holds there, replace_occurs holds here, List.append_assoc,
        List.drop_append_of_le_length long, ih]
      rintro ⟨start, occurs, begun, ends⟩
      rw [List.length_drop] at begun ends
      refine whole ⟨value.length + start, ?_, by omega, by omega⟩
      rw [OccursAt, ← List.map_drop, ← List.drop_append_of_le_length long, List.drop_drop] at occurs
      rwa [OccursAt, ← List.map_drop]
  | absent item rest here ih =>
      by_cases there : value <+: (item :: (rest ++ second)).map key
      · -- An occurrence that the first part has not room for would span the cut.
        have long : rest.length + 1 < value.length := by
          by_contra short
          refine here (List.prefix_of_prefix_length_le there (List.map_cons ▸ ?_) (by simp; omega))
          rw [List.map_cons, List.map_append]
          exact List.cons_prefix_cons.mpr ⟨rfl, List.prefix_append _ _⟩
        refine absurd ⟨0, there, ?_, ?_⟩ whole
        · exact Nat.zero_lt_succ _
        · rw [List.length_cons]
          omega
      · rw [List.cons_append, replace_cons there, replace_cons here, List.cons_append, ih]
        rintro ⟨start, occurs, begun, ends⟩
        refine whole ⟨start + 1, occurs, ?_, ?_⟩
        · exact Nat.succ_lt_succ begun
        · rw [List.length_cons]
          omega

theorem replace_head (holds : value ≠ []) (items : List β)
    : replace key mark value items = items
      ∨ ∃ head, head <+: items ∧ ∃ after, replace key mark value items = head ++ mark ++ after := by
  induction items using replace_induction key holds with
  | nil => exact .inl rfl
  | occurs items here ih =>
      exact .inr ⟨[], List.nil_prefix, _, replace_occurs holds here⟩
  | absent item rest here ih =>
      rw [replace_cons here]
      rcases ih with same | ⟨head, begins, after, split⟩
      · exact .inl (by rw [same])
      · refine .inr ⟨item :: head, List.cons_prefix_cons.mpr ⟨rfl, begins⟩, after, ?_⟩
        rw [split]
        rfl

theorem replace_tail (holds : value ≠ []) (items : List β)
    : replace key mark value items = items
      ∨ ∃ tail, tail <:+ items ∧ ∃ before, replace key mark value items = before ++ mark ++ tail := by
  induction items using replace_induction key holds with
  | nil => exact .inl rfl
  | occurs items here ih =>
      rw [replace_occurs holds here]
      rcases ih with same | ⟨tail, ends, before, split⟩
      · refine .inr ⟨items.drop value.length, List.drop_suffix _ _, [], ?_⟩
        rw [same]
        rfl
      · refine .inr ⟨tail, ends.trans (List.drop_suffix _ _), mark ++ before, ?_⟩
        rw [split, List.append_assoc, List.append_assoc, List.append_assoc]
  | absent item rest here ih =>
      rw [replace_cons here]
      rcases ih with same | ⟨tail, ends, before, split⟩
      · exact .inl (by rw [same])
      · refine .inr ⟨tail, ends.trans (List.suffix_cons _ _), item :: before, ?_⟩
        rw [split]
        rfl

/-- Where another value spans the cut of a sequence once a value is replaced in both its parts, it
spanned the cut before.
-/
theorem spans_of_spans_replace {other : List α} (holds : value ≠ []) (apart : Apart (mark.map key) other)
    (spans : Spans other ((replace key mark value first ++ replace key mark value second).map key)
      (replace key mark value first).length)
    : Spans other ((first ++ second).map key) first.length := by
  obtain ⟨start, occurs, begun, ends⟩ := spans
  have front : ∃ before tail, replace key mark value first = before ++ tail ∧ tail <:+ first
      ∧ before.length ≤ start := by
    rcases replace_tail holds first with same | ⟨tail, suffix, before, split⟩
    · exact ⟨[], first, same, List.suffix_rfl, Nat.zero_le _⟩
    · refine ⟨before ++ mark, tail, split, suffix, ?_⟩
      rw [split, List.append_assoc, List.map_append, List.map_append] at occurs
      rcases apart _ _ _ occurs with early | late
      · rw [split, List.length_append, List.length_append] at ends
        rw [List.length_map] at early
        omega
      · rwa [List.length_map, List.length_map, ← List.length_append] at late
  have back : ∃ head after, replace key mark value second = head ++ after ∧ head <+: second
      ∧ start + other.length ≤ (replace key mark value first).length + head.length := by
    rcases replace_head holds second with same | ⟨head, prefix_, after, split⟩
    · refine ⟨second, [], by rw [same, List.append_nil], List.prefix_rfl, ?_⟩
      have within := occurs.le_length (List.ne_nil_of_length_pos (by omega))
      rwa [same, List.length_map, List.length_append] at within
    · refine ⟨head, mark ++ after, by rw [split, List.append_assoc], prefix_, ?_⟩
      rw [split, ← List.append_assoc, ← List.append_assoc, List.map_append, List.map_append] at occurs
      rcases apart _ _ _ occurs with early | late
      · rwa [List.length_map, List.length_append] at early
      · rw [List.length_map, List.length_append, List.length_map] at late
        omega
  obtain ⟨before, tail, split, ⟨front, rfl⟩, begins⟩ := front
  obtain ⟨head, after, split', ⟨back, rfl⟩, room⟩ := back
  rw [split, List.length_append] at room begun ends
  have middle : OccursAt other ((tail ++ head).map key) (start - before.length) := by
    have around : (before ++ tail ++ (head ++ after)).map key
        = before.map key ++ (tail ++ head).map key ++ after.map key := by
      rw [← List.map_append, ← List.map_append]
      simp only [List.append_assoc]
    rw [split, split', around, occursAt_within (by rwa [List.length_map])
      (by rw [List.length_map, List.length_map, List.length_append]; omega)] at occurs
    rwa [List.length_map] at occurs
  refine ⟨front.length + (start - before.length), ?_, ?_, ?_⟩
  · have around : (front ++ tail ++ (head ++ back)).map key
        = front.map key ++ (tail ++ head).map key ++ back.map key := by
      rw [← List.map_append, ← List.map_append]
      simp only [List.append_assoc]
    rw [around, occursAt_within]
    · rwa [List.length_map, Nat.add_sub_cancel_left]
    · rw [List.length_map]
      exact Nat.le_add_right _ _
    · rw [List.length_map, List.length_map, List.length_append]
      omega
  · rw [List.length_append]
    omega
  · rw [List.length_append]
    omega

end Replace

-- Some values

section ReplaceAll

variable [DecidableEq α] {key : β → α} {mark : List β} {values : List (List α)}
  {items first second : List β}

theorem replaceAll_append_values (earlier later : List (List α)) (items : List β)
    : replaceAll key mark (earlier ++ later) items
      = replaceAll key mark later (replaceAll key mark earlier items) :=
  List.foldl_append

theorem replaceAll_absent (absent : ∀ value ∈ values, ∀ start, ¬ OccursAt value (items.map key) start)
    : replaceAll key mark values items = items := by
  induction values with
  | nil => rfl
  | cons value rest ih =>
      rw [replaceAll, List.foldl_cons, replace_absent (absent value List.mem_cons_self)]
      exact ih fun other listed => absent other (List.mem_cons_of_mem _ listed)

theorem replaceAll_append (holds : ∀ value ∈ values, value ≠ [])
    (apart : ∀ value ∈ values, Apart (mark.map key) value)
    (whole : ∀ value ∈ values, ¬ Spans value ((first ++ second).map key) first.length)
    : replaceAll key mark values (first ++ second)
      = replaceAll key mark values first ++ replaceAll key mark values second := by
  induction values generalizing first second with
  | nil => rfl
  | cons value rest ih =>
      have here := holds value List.mem_cons_self
      have split : replace key mark value (first ++ second)
          = replace key mark value first ++ replace key mark value second :=
        replace_append here (whole value List.mem_cons_self)
      rw [replaceAll, List.foldl_cons, split]
      refine ih (fun other listed => holds other (List.mem_cons_of_mem _ listed))
        (fun other listed => apart other (List.mem_cons_of_mem _ listed)) ?_
      intro other listed spans
      exact whole other (List.mem_cons_of_mem _ listed)
        (spans_of_spans_replace here (apart other (List.mem_cons_of_mem _ listed)) spans)

theorem replaceAll_value {earlier later : List (List α)} {value : List α}
    (listed : values = earlier ++ value :: later)
    (holds : ∀ value ∈ values, value ≠ [])
    (apart : ∀ value ∈ values, Apart (mark.map key) value)
    (same : items.map key = value)
    (absent : ∀ other ∈ earlier, ∀ start, ¬ OccursAt other (items.map key) start)
    : replaceAll key mark values items = mark := by
  have here := holds value (by rw [listed]; simp)
  have whole : replace key mark value items = mark := by
    have long : items.length = value.length := by rw [← same, List.length_map]
    rw [replace_occurs here (by rw [same]), List.drop_eq_nil_of_le long.le]
    exact List.append_nil mark
  rw [listed, replaceAll_append_values, replaceAll_absent absent, replaceAll, List.foldl_cons, whole]
  refine replaceAll_absent fun other within start => ?_
  have listed' : other ∈ values := by
    rw [listed]
    simp [within]
  exact (apart other listed').absent (holds other listed') start

/-- An item of a sequence that no occurrence of some values covers. -/
def Uncovered (key : β → α) (values : List (List α)) (items : List β) (item : β) : Prop :=
  ∃ before after, items = before ++ item :: after ∧ ¬ Covers values (items.map key) before.length

omit [DecidableEq α] in
theorem Uncovered.append {item : β}
    (whole : ∀ value ∈ values, ¬ Spans value ((first ++ second).map key) first.length)
    (uncovered : Uncovered key values first item ∨ Uncovered key values second item)
    : Uncovered key values (first ++ second) item := by
  rw [List.map_append, ← List.length_map (f := key)] at whole
  rcases uncovered with ⟨before, after, rfl, free⟩ | ⟨before, after, rfl, free⟩
  · refine ⟨before, after ++ second, by simp, ?_⟩
    rw [List.map_append, covers_append whole]
    rintro (⟨_, inner⟩ | ⟨past, _⟩)
    · exact free inner
    · rw [List.length_map, List.length_append, List.length_cons] at past
      omega
  · refine ⟨first ++ before, after, by simp, ?_⟩
    rw [List.map_append, covers_append whole, List.length_append, List.length_map]
    rintro (⟨early, _⟩ | ⟨_, inner⟩)
    · omega
    · rw [Nat.add_sub_cancel_left] at inner
      exact free inner

/-- Where a value comes before those it holds and overlapping occurrences lie in one, what the result
has besides marks are items that no occurrence covers.
-/
theorem uncovered_of_mem_replaceAll (holds : ∀ value ∈ values, value ≠ [])
    (apart : ∀ value ∈ values, Apart (mark.map key) value)
    (longer : values.Pairwise fun earlier later => earlier <:+: later → earlier = later)
    (joined : Joined values (items.map key))
    {item : β} (shown : item ∈ replaceAll key mark values items)
    : item ∈ mark ∨ Uncovered key values items item := by
  induction size : items.length using Nat.strongRecOn generalizing items with
  | ind size ih =>
  by_cases some_ : ∃ value ∈ values, ∃ start, OccursAt value (items.map key) start
  · -- Nothing spans an end of the first value that occurs, so that what is before it and what is
    -- after it are replaced on their own.
    obtain ⟨earlier, value, later, listed, ⟨start, occurs⟩, absent⟩ := exists_first some_
    have here : value ∈ values := by
      rw [listed]
      exact List.mem_append_right _ List.mem_cons_self
    have unspanned (other : List α) (within : other ∈ values) (place : Nat)
        (end_ : place = start ∨ place = start + value.length)
        : ¬ Spans other (items.map key) place :=
      not_spans_first listed longer joined (fun other within start occurs => absent other within ⟨start, occurs⟩)
        (holds value here) occurs within end_
    obtain ⟨front, back, split, rfl⟩ := (occursAt_iff (holds value here)).mp occurs
    rw [List.append_assoc] at split
    obtain ⟨first, rest, rfl, rfl, rest_⟩ := List.map_eq_append_iff.mp split
    obtain ⟨middle, last, rfl, rfl, rfl⟩ := List.map_eq_append_iff.mp rest_
    have before : ∀ other ∈ values, ¬ Spans other ((first ++ (middle ++ last)).map key) first.length :=
      fun other within => unspanned other within _ (.inl (List.length_map _).symm)
    have after : ∀ other ∈ values, ¬ Spans other ((middle ++ last).map key) middle.length := by
      intro other within spans
      refine unspanned other within _ (.inr rfl) ?_
      rw [List.map_append, List.length_map, List.length_map, ← List.length_map (f := key)]
      exact spans.append_right
    have none_ : ∀ other ∈ earlier, ∀ start, ¬ OccursAt other (middle.map key) start := by
      intro other within start inner
      have some_ := inner.le_length (holds other (by rw [listed]; simp [within]))
      refine absent other within ⟨(first.map key).length + start, ?_⟩
      rw [List.map_append, occursAt_append_right, List.map_append, occursAt_append_left some_]
      exact inner
    have middle_ := replaceAll_value listed holds apart rfl none_
    rw [replaceAll_append holds apart before, replaceAll_append holds apart after, middle_] at shown
    have joined' := joined
    rw [List.map_append] at joined'
    obtain ⟨joinedFirst, joinedRest⟩ := joined'.append holds (by
      rw [List.length_map, ← List.map_append]; exact before)
    rw [List.map_append] at joinedRest
    have joinedLast := (joinedRest.append holds (by
      rw [List.length_map, ← List.map_append]; exact after)).2
    have some_ := List.length_pos_iff.mpr (holds _ here)
    rw [List.length_map] at some_
    rw [List.length_append, List.length_append] at size
    rcases List.mem_append.mp shown with inFirst | inRest
    · refine (ih first.length (by omega) joinedFirst inFirst rfl).imp_right fun uncovered => ?_
      exact .append before (.inl uncovered)
    · rcases List.mem_append.mp inRest with inMark | inLast
      · exact .inl inMark
      · refine (ih last.length (by omega) joinedLast inLast rfl).imp_right fun uncovered => ?_
        exact .append before (.inr (.append after (.inr uncovered)))
  · have absent : ∀ value ∈ values, ∀ start, ¬ OccursAt value (items.map key) start :=
      fun value listed start occurs => some_ ⟨value, listed, start, occurs⟩
    rw [replaceAll_absent absent] at shown
    obtain ⟨before, after, split⟩ := List.append_of_mem shown
    refine .inr ⟨before, after, split, ?_⟩
    rintro ⟨value, listed, start, occurs, _⟩
    exact absent value listed start occurs

end ReplaceAll

end Dagron.Library
