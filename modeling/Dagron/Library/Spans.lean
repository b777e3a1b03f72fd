import Mathlib.Data.List.Chain
import Mathlib.Order.MinMax

/-! Spans of a sequence: joining those that overlap or touch, and putting a mark in the place of
each. The result shows every item outside the spans, and one mark for each run of items inside.
-/

namespace Dagron.Library

-- Spans

/-- Spans in order, each of those that overlap or touch joined to the one before. -/
def mergeSpans : List (Nat × Nat) → List (Nat × Nat)
  | first :: second :: rest =>
      if second.1 ≤ first.2 then mergeSpans ((first.1, max first.2 second.2) :: rest)
      else first :: mergeSpans (second :: rest)
  | short => short
  termination_by spans => spans.length

def InSpans (spans : List (Nat × Nat)) (place : Nat) : Prop :=
  ∃ span ∈ spans, span.1 ≤ place ∧ place < span.2

/-- Spans that hold something, in the order of their starts. -/
def Ordered (spans : List (Nat × Nat)) : Prop :=
  (∀ span ∈ spans, span.1 < span.2) ∧ spans.Pairwise (fun first second => first.1 ≤ second.1)

/-- Spans that hold something, each after the one before and apart from it. -/
def Separate (spans : List (Nat × Nat)) : Prop :=
  (∀ span ∈ spans, span.1 < span.2) ∧ spans.IsChain (fun first second => first.2 < second.1)

section Spans

variable {spans : List (Nat × Nat)}

theorem inSpans_cons {span : Nat × Nat} {place : Nat}
    : InSpans (span :: spans) place ↔ span.1 ≤ place ∧ place < span.2 ∨ InSpans spans place := by
  simp [InSpans]

theorem head_mergeSpans (first : Nat × Nat) (rest : List (Nat × Nat))
    : ∃ stop later, mergeSpans (first :: rest) = (first.1, stop) :: later := by
  induction rest generalizing first with
  | nil => exact ⟨first.2, [], by simp [mergeSpans]⟩
  | cons second rest ih =>
      rw [mergeSpans]
      split_ifs
      · exact ih (first.1, max first.2 second.2)
      · exact ⟨_, _, rfl⟩

theorem mergeSpans_spec (ordered : Ordered spans)
    : Separate (mergeSpans spans) ∧ ∀ place, InSpans (mergeSpans spans) place ↔ InSpans spans place := by
  fun_induction mergeSpans spans with
  | case1 first second rest touch ih =>
      obtain ⟨hold, starts⟩ := ordered
      simp only [List.mem_cons, forall_eq_or_imp] at hold
      simp only [List.pairwise_cons, List.mem_cons, forall_eq_or_imp] at starts
      have joined : Ordered ((first.1, max first.2 second.2) :: rest) := by
        refine ⟨?_, List.pairwise_cons.mpr ⟨starts.1.2, starts.2.2⟩⟩
        simp only [List.mem_cons, forall_eq_or_imp]
        exact ⟨lt_of_lt_of_le hold.1 (le_max_left _ _), hold.2.2⟩
      obtain ⟨apart, same⟩ := ih joined
      refine ⟨apart, fun place => ?_⟩
      rw [same, inSpans_cons, inSpans_cons, inSpans_cons]
      simp only [lt_max_iff]
      have before := starts.1.1
      constructor
      · rintro (⟨start, stop | stop⟩ | later)
        · exact .inl ⟨start, stop⟩
        · by_cases early : place < first.2
          · exact .inl ⟨start, early⟩
          · exact .inr (.inl ⟨by omega, stop⟩)
        · exact .inr (.inr later)
      · rintro (⟨start, stop⟩ | ⟨start, stop⟩ | later)
        · exact .inl ⟨start, .inl stop⟩
        · exact .inl ⟨by omega, .inr stop⟩
        · exact .inr later
  | case2 first second rest gap ih =>
      obtain ⟨hold, starts⟩ := ordered
      obtain ⟨apart, same⟩ := ih
        ⟨fun span listed => hold span (List.mem_cons_of_mem _ listed), (List.pairwise_cons.mp starts).2⟩
      obtain ⟨stop, later, merged⟩ := head_mergeSpans second rest
      refine ⟨⟨?_, ?_⟩, fun place => ?_⟩
      · intro span listed
        rcases List.mem_cons.mp listed with rfl | among
        · exact hold _ List.mem_cons_self
        · exact apart.1 span among
      · have chained := apart.2
        rw [merged] at chained ⊢
        exact List.isChain_cons_cons.mpr ⟨not_le.mp gap, chained⟩
      · rw [inSpans_cons, same]
        exact inSpans_cons.symm
  | case3 short few =>
      refine ⟨⟨ordered.1, ?_⟩, fun _ => Iff.rfl⟩
      rcases short with _ | ⟨first, _ | ⟨second, rest⟩⟩
      · exact .nil
      · exact .singleton _
      · exact absurd rfl (few first second rest)

theorem Separate.later {span : Nat × Nat} (apart : Separate (span :: spans))
    : ∀ other ∈ spans, span.2 < other.1 := by
  induction spans generalizing span with
  | nil => simp
  | cons next rest ih =>
      obtain ⟨hold, chained⟩ := apart
      obtain ⟨gap, onward⟩ := List.isChain_cons_cons.mp chained
      have within : Separate (next :: rest) :=
        ⟨fun span listed => hold span (List.mem_cons_of_mem _ listed), onward⟩
      intro other listed
      rcases List.mem_cons.mp listed with rfl | among
      · exact gap
      · have := hold next (List.mem_cons_of_mem _ List.mem_cons_self)
        have := ih within other among
        omega

end Spans

-- Marks

variable {α : Type} (mark : List α)

/-- (cutSpans place spans items) is a sequence that starts at (place), with a mark in the place
of each of its spans.
-/
def cutSpans : Nat → List (Nat × Nat) → List α → List α
  | _, [], items => items
  | place, (start, stop) :: rest, items =>
      items.take (start - place) ++ mark ++ cutSpans stop rest (items.drop (stop - place))

/-- (showRuns inside running place items) is a sequence that starts at (place), with one mark in
the place of each run of items that are inside; (running) says whether such a run goes on.
-/
def showRuns (inside : Nat → Prop) [DecidablePred inside] : Bool → Nat → List α → List α
  | _, _, [] => []
  | running, place, item :: rest =>
      if inside place then
        (if running then [] else mark) ++ showRuns inside true (place + 1) rest
      else item :: showRuns inside false (place + 1) rest

section Runs

variable {mark} {inside : Nat → Prop} [DecidablePred inside]

theorem showRuns_outside {items : List α} {place : Nat}
    (outside : ∀ other, place ≤ other → other < place + items.length → ¬ inside other)
    (running : Bool)
    : showRuns mark inside running place items = items := by
  induction items generalizing place running with
  | nil => rfl
  | cons item rest ih =>
      simp only [List.length_cons] at outside
      rw [showRuns, if_neg (outside place le_rfl (by omega)),
        ih (fun other after before => outside other (by omega) (by omega))]

theorem showRuns_fresh {place : Nat} (outside : ¬ inside place) (items : List α) (running : Bool)
    : showRuns mark inside running place items = showRuns mark inside false place items := by
  cases items with
  | nil => rfl
  | cons item rest => rw [showRuns, showRuns, if_neg outside, if_neg outside]

theorem showRuns_append_outside {front items : List α} {place : Nat}
    (outside : ∀ other, place ≤ other → other < place + front.length → ¬ inside other)
    : showRuns mark inside false place (front ++ items)
      = front ++ showRuns mark inside false (place + front.length) items := by
  induction front generalizing place with
  | nil => rfl
  | cons item rest ih =>
      simp only [List.length_cons] at outside
      rw [List.cons_append, showRuns, if_neg (outside place le_rfl (by omega)),
        ih (fun other after before => outside other (by omega) (by omega)), List.cons_append,
        List.length_cons, Nat.add_right_comm, Nat.add_assoc]

theorem showRuns_append_inside {front items : List α} {place : Nat} (some_ : front ≠ [])
    (within : ∀ other, place ≤ other → other < place + front.length → inside other)
    : showRuns mark inside false place (front ++ items)
      = mark ++ showRuns mark inside true (place + front.length) items := by
  have onward (front items : List α) (place : Nat)
      (within : ∀ other, place ≤ other → other < place + front.length → inside other)
      : showRuns mark inside true place (front ++ items)
        = showRuns mark inside true (place + front.length) items := by
    induction front generalizing place with
    | nil => rfl
    | cons item rest ih =>
        simp only [List.length_cons] at within
        rw [List.cons_append, showRuns, if_pos (within place le_rfl (by omega)),
          ih (place + 1) (fun other after before => within other (by omega) (by omega)),
          List.length_cons, Nat.add_right_comm, Nat.add_assoc]
        rfl
  cases front with
  | nil => exact absurd rfl some_
  | cons item rest =>
      simp only [List.length_cons] at within
      rw [List.cons_append, showRuns, if_pos (within place le_rfl (by omega)),
        onward rest items (place + 1) (fun other after before => within other (by omega) (by omega)),
        List.length_cons, Nat.add_right_comm, Nat.add_assoc]
      rfl

theorem showRuns_append_last {items : List α} {item : α} {place : Nat} {running : Bool}
    (outside : ¬ inside (place + items.length))
    : showRuns mark inside running place (items ++ [item])
      = showRuns mark inside running place items ++ [item] := by
  induction items generalizing place running with
  | nil => simp_all [showRuns]
  | cons first rest ih =>
      rw [List.length_cons, Nat.add_comm rest.length, ← Nat.add_assoc] at outside
      rw [List.cons_append, showRuns, showRuns]
      split_ifs <;> simp [ih outside]

/-- Cutting spans that are apart shows each run of items inside them as one mark: by induction on
the spans, each of which ends before the next starts.
-/
theorem cutSpans_eq {spans : List (Nat × Nat)} {items : List α} {place : Nat}
    (apart : Separate spans) (after : ∀ span ∈ spans, place ≤ span.1)
    (before : ∀ span ∈ spans, span.2 ≤ place + items.length)
    (same : ∀ other, place ≤ other → (inside other ↔ InSpans spans other))
    : cutSpans mark place spans items = showRuns mark inside false place items := by
  induction spans generalizing place items with
  | nil =>
      refine (showRuns_outside (fun other late _ within => ?_) false).symm
      simpa [InSpans] using (same other late).mp within
  | cons span rest ih =>
      obtain ⟨start, stop⟩ := span
      obtain ⟨hold, chained⟩ := apart
      have holds : start < stop := hold _ List.mem_cons_self
      have late : place ≤ start := after _ List.mem_cons_self
      have early : stop ≤ place + items.length := before _ List.mem_cons_self
      have later : ∀ other ∈ rest, stop < other.1 := Separate.later ⟨hold, chained⟩
      have outside : ∀ other, place ≤ other → other < start → ¬ inside other := by
        intro other from_ until_ within
        obtain ⟨span, listed, begun, -⟩ := (same other from_).mp within
        rcases List.mem_cons.mp listed with rfl | among
        · simp only at begun
          omega
        · have := later span among
          omega
      have within : ∀ other, start ≤ other → other < stop → inside other := fun other from_ until_ =>
        (same other (late.trans from_)).mpr ⟨_, List.mem_cons_self, from_, until_⟩
      have ended : ¬ inside stop := by
        intro goes
        obtain ⟨span, listed, begun, ends⟩ := (same stop (by omega)).mp goes
        rcases List.mem_cons.mp listed with rfl | among
        · simp only [lt_self_iff_false] at ends
        · have := later span among
          omega
      -- The items are those before the span, those in it and those after it.
      have parts : items = items.take (start - place)
          ++ ((items.drop (start - place)).take (stop - start) ++ items.drop (stop - place)) := by
        have reach : stop - place = start - place + (stop - start) := by omega
        rw [reach, ← List.drop_drop, List.take_append_drop, List.take_append_drop]
      have front : (items.take (start - place)).length = start - place := by
        rw [List.length_take]
        omega
      have middle : ((items.drop (start - place)).take (stop - start)).length = stop - start := by
        rw [List.length_take, List.length_drop]
        omega
      have rest_ : cutSpans mark stop rest (items.drop (stop - place))
          = showRuns mark inside false stop (items.drop (stop - place)) := by
        refine ih ⟨fun span listed => hold span (List.mem_cons_of_mem _ listed), chained.tail⟩
          (fun span listed => (later span listed).le) (fun span listed => ?_) (fun other from_ => ?_)
        · have := before span (List.mem_cons_of_mem _ listed)
          rw [List.length_drop]
          omega
        · rw [same other (by omega), inSpans_cons]
          exact or_iff_right (by simp only; omega)
      conv_rhs => rw [parts]
      rw [cutSpans, rest_, showRuns_append_outside (fun other from_ until_ =>
          outside other from_ (by omega)),
        front, Nat.add_sub_cancel' late,
        showRuns_append_inside (List.ne_nil_of_length_pos (by omega))
          (fun other from_ until_ => within other from_ (by omega)),
        middle, Nat.add_sub_cancel' holds.le, showRuns_fresh ended _ true, List.append_assoc]

end Runs

end Dagron.Library
