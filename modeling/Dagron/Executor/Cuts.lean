import Dagron.Executor.Redact

/-! Where a text is cut: the least bound of a character, at the place asked or past it, that no
occurrence of a masked value spans, found in as many steps as the text has bytes. And how far a value
that began before a text reaches into it.
-/

namespace Dagron.Executor

open Dagron.Library

-- The last occurrence

section Rfind

variable {needle text : List UInt8} {start place : Nat}

theorem occursAt_of_rfindFrom (found : rfindFrom needle text place = some start)
    : OccursAt needle text start := by
  induction place with
  | zero =>
      rw [rfindFrom] at found
      split_ifs at found with here
      cases found
      exact List.isPrefixOf_iff_prefix.mp here
  | succ place ih =>
      rw [rfindFrom] at found
      split_ifs at found with here
      · cases found
        exact List.isPrefixOf_iff_prefix.mp here
      · exact ih found

theorem le_rfindFrom (occurs : OccursAt needle text start) (within : start ≤ place)
    : ∃ last, rfindFrom needle text place = some last ∧ start ≤ last := by
  induction place with
  | zero =>
      obtain rfl := Nat.le_zero.mp within
      exact ⟨0, if_pos (List.isPrefixOf_iff_prefix.mpr occurs), Nat.le_refl _⟩
  | succ place ih =>
      rw [rfindFrom]
      split_ifs with here
      · exact ⟨place + 1, rfl, within⟩
      · rcases Nat.lt_or_eq_of_le within with less | rfl
        · exact ih (Nat.le_of_lt_succ less)
        · exact absurd (List.isPrefixOf_iff_prefix.mpr occurs) here

theorem le_rfind (occurs : OccursAt needle text start) (holds : needle ≠ [])
    : ∃ last, rfind needle text = some last ∧ start ≤ last :=
  le_rfindFrom occurs ((Nat.le_add_right _ _).trans (occurs.le_length holds))

theorem occursAt_slice {from_ till : Nat} (ends : till ≤ text.length) (holds : needle ≠ [])
    : OccursAt needle ((text.take till).drop from_) start
      ↔ OccursAt needle text (from_ + start) ∧ from_ + start + needle.length ≤ till := by
  have taken : (text.take till).length = till := List.length_take_of_le ends
  have whole : OccursAt needle ((text.take till).drop from_) start
      ↔ OccursAt needle (text.take till) (from_ + start) := by
    rw [OccursAt, OccursAt, List.drop_drop]
  rw [whole]
  constructor
  · intro occurs
    have fits := occurs.le_length holds
    refine ⟨?_, taken ▸ fits⟩
    rw [← List.take_append_drop till text]
    exact (occursAt_append_left fits).mpr occurs
  · rintro ⟨occurs, fits⟩
    rw [← List.take_append_drop till text] at occurs
    exact (occursAt_append_left (taken.symm ▸ fits)).mp occurs

end Rfind

-- One step

section Spanned

variable {value text : String} {at_ : Nat}

theorem spanned_spec (holds : utf8 value ≠ []) (boundary : isCharBoundary (utf8 text) at_)
    : ¬ Spans (utf8 value) (utf8 text) at_ ∧ spanned (utf8 value) (utf8 text) at_ = some at_
      ∨ ∃ start, OccursAt (utf8 value) (utf8 text) start ∧ start < at_
        ∧ at_ < start + (utf8 value).length
        ∧ spanned (utf8 value) (utf8 text) at_ = some (start + (utf8 value).length) := by
  have some_ := List.length_pos_iff.mpr holds
  let from_ := floorCharBoundary (utf8 text) (at_ - ((utf8 value).length - 1))
  let till := floorCharBoundary (utf8 text) (at_ + (utf8 value).length - 1)
  have below : from_ ≤ at_ := floorCharBoundary_le.trans (Nat.sub_le _ _)
  have above : at_ ≤ till := le_floorCharBoundary boundary (by omega)
  have reach : till ≤ at_ + (utf8 value).length - 1 := floorCharBoundary_le
  have part : slice (utf8 text) from_ till = some (((utf8 text).take till).drop from_) :=
    if_pos ⟨below.trans above, isCharBoundary_floorFrom, isCharBoundary_floorFrom⟩
  have inside {start : Nat}
      : OccursAt (utf8 value) (((utf8 text).take till).drop from_) start
        ↔ OccursAt (utf8 value) (utf8 text) (from_ + start)
          ∧ from_ + start + (utf8 value).length ≤ till :=
    occursAt_slice floorCharBoundary_le_length holds
  have step : spanned (utf8 value) (utf8 text) at_
      = (rfind (utf8 value) (((utf8 text).take till).drop from_)).elim (some at_) fun start =>
          if at_ < from_ + start + (utf8 value).length then some (from_ + start + (utf8 value).length)
          else some at_ := by
    rw [spanned]
    simp only [Option.bind_eq_bind]
    rw [part, Option.bind_some]
    cases rfind (utf8 value) (((utf8 text).take till).drop from_) <;> rfl
  by_cases spans : Spans (utf8 value) (utf8 text) at_
  · -- An occurrence that spans the place is in the part that is searched, so that the last one in
    -- it ends past the place.
    obtain ⟨start, occurs, begun, ends⟩ := spans
    obtain ⟨offset, rfl⟩ := Nat.exists_eq_add_of_le (show from_ ≤ start from
      floorCharBoundary_le.trans (by omega))
    have fits : from_ + offset + (utf8 value).length ≤ till :=
      le_floorCharBoundary (occurs.boundaries holds).2 (by omega)
    obtain ⟨last, found, later⟩ := le_rfind (inside.mpr ⟨occurs, fits⟩) holds
    obtain ⟨occurs', fits'⟩ := inside.mp (occursAt_of_rfindFrom found)
    refine .inr ⟨from_ + last, occurs', by omega, by omega, ?_⟩
    rw [step, found]
    exact if_pos (by omega)
  · cases found : rfind (utf8 value) (((utf8 text).take till).drop from_) with
    | none => exact .inl ⟨spans, by rw [step, found, Option.elim_none]⟩
    | some last =>
        obtain ⟨occurs', fits'⟩ := inside.mp (occursAt_of_rfindFrom found)
        refine .inl ⟨spans, ?_⟩
        rw [step, found]
        exact if_neg fun past => spans ⟨from_ + last, occurs', by omega, past⟩

end Spanned

-- The search

section Search

variable {values : List String} {text : String} {from_ at_ : Nat}

/-- A place that the search for a cut has reached: a bound, and no bound past the start that nothing
spans is before it.
-/
def Reached (values : List String) (text : String) (from_ at_ : Nat) : Prop :=
  isCharBoundary (utf8 text) at_ ∧ from_ ≤ at_
    ∧ ∀ place, from_ ≤ place → (∀ value ∈ values, ¬ Spans (utf8 value) (utf8 text) place) → at_ ≤ place

theorem Reached.past (reached : Reached values text from_ at_) {value : String}
    (listed : value ∈ values) (holds : utf8 value ≠ []) {start : Nat}
    (occurs : OccursAt (utf8 value) (utf8 text) start) (begun : start < at_)
    (ends : at_ < start + (utf8 value).length)
    : Reached values text from_ (start + (utf8 value).length) := by
  obtain ⟨_, later, least⟩ := reached
  refine ⟨(occurs.boundaries holds).2, by omega, fun place past clear => ?_⟩
  have after := least place past clear
  by_contra inside
  exact clear value listed ⟨start, occurs, by omega, by omega⟩

theorem follow_spec {value : String} (listed : value ∈ values) (holds : utf8 value ≠ [])
    {fuel : Nat} (room : (utf8 text).length < at_ + fuel) (reached : Reached values text from_ at_)
    : ∃ later, follow (utf8 value) (utf8 text) fuel at_ = some later ∧ at_ ≤ later
        ∧ Reached values text from_ later ∧ ¬ Spans (utf8 value) (utf8 text) later := by
  induction fuel generalizing at_ with
  | zero => exact absurd (le_length_of_isCharBoundary reached.1) (by omega)
  | succ fuel ih =>
      rw [follow]
      rcases spanned_spec holds reached.1 with ⟨clear, stays⟩ | ⟨start, occurs, begun, ends, goes⟩
      · refine ⟨at_, ?_, Nat.le_refl _, reached, clear⟩
        rw [stays, Option.bind_eq_bind, Option.bind_some, if_neg (Nat.lt_irrefl _)]
      · obtain ⟨later, found, after, reached', clear⟩ :=
          ih (by omega) (reached.past listed holds occurs begun ends)
        refine ⟨later, ?_, by omega, reached', clear⟩
        rw [goes, Option.bind_eq_bind, Option.bind_some, if_pos ends, found]

/-- A round past each value's occurrences stays where it is only where none of them spans the place. -/
theorem foldlM_follow_spec {some_ : List String} (among : some_ ⊆ values)
    (holds : ∀ value ∈ values, utf8 value ≠ []) {fuel : Nat} (room : (utf8 text).length < fuel)
    (reached : Reached values text from_ at_)
    : ∃ later, (some_.map utf8).foldlM (fun at_ needle => follow needle (utf8 text) fuel at_) at_
          = some later
        ∧ at_ ≤ later ∧ Reached values text from_ later
        ∧ (later = at_ → ∀ value ∈ some_, ¬ Spans (utf8 value) (utf8 text) at_) := by
  induction some_ generalizing at_ with
  | nil => exact ⟨at_, rfl, Nat.le_refl _, reached, fun _ value listed => by cases listed⟩
  | cons value rest ih =>
      have listed := among List.mem_cons_self
      obtain ⟨next, found, after, reached', clear⟩ :=
        follow_spec listed (holds value listed) (room.trans_le (Nat.le_add_left _ _)) reached
      obtain ⟨later, found', after', reached'', clear'⟩ :=
        ih (fun other inside => among (List.mem_cons_of_mem _ inside)) reached'
      refine ⟨later, ?_, after.trans after', reached'', ?_⟩
      · rw [List.map_cons, List.foldlM_cons, found, Option.bind_eq_bind, Option.bind_some, found']
      · rintro rfl
        obtain rfl : next = later := Nat.le_antisymm after' after
        intro other inside
        rcases List.mem_cons.mp inside with rfl | inside
        · exact clear
        · exact clear' rfl other inside

theorem rounds_spec (holds : ∀ value ∈ values, utf8 value ≠ []) {fuel more : Nat}
    (room : (utf8 text).length < fuel) (room' : (utf8 text).length < at_ + more)
    (reached : Reached values text from_ at_)
    : ∃ later, rounds (values.map utf8) (utf8 text) fuel more at_ = some later
        ∧ Reached values text from_ later
        ∧ ∀ value ∈ values, ¬ Spans (utf8 value) (utf8 text) later := by
  induction more generalizing at_ with
  | zero => exact absurd (le_length_of_isCharBoundary reached.1) (by omega)
  | succ more ih =>
      obtain ⟨next, found, after, reached', clear⟩ :=
        foldlM_follow_spec (List.Subset.refl values) holds room reached
      rw [rounds, found, Option.bind_eq_bind, Option.bind_some]
      by_cases still : next = at_
      · exact ⟨at_, if_pos still, reached, clear still⟩
      · rw [if_neg still]
        exact ih (by omega) reached'

end Search

-- The cut and the reach

/-- A place that a text can be cut at: a bound of a character that no masked value spans. -/
def Redactor.CutAt (redactor : Redactor) (text : List UInt8) (place : Nat) : Prop :=
  isCharBoundary text place ∧ ∀ needle ∈ redactor.needles, ¬ Spans needle text place

theorem Redactor.utf8_ne_nil (redactor : Redactor) {value : String} (listed : value ∈ redactor.values)
    : utf8 value ≠ [] := by
  intro empty
  have none_ : utf8 "" = [] := rfl
  obtain rfl := utf8_injective (empty.trans none_.symm)
  exact absurd (redactor.long "" listed) (by decide)

/-- The search for a cut ends, at the least place the text can be cut at that is not before the bound
at or before the one asked.
-/
theorem Redactor.clearCut_spec (redactor : Redactor) (text : String) (at_ : Nat)
    : ∃ cut, (∀ fuel > (utf8 text).length, redactor.clearCut fuel (utf8 text) at_ = some cut)
        ∧ IsLeast {place | floorCharBoundary (utf8 text) at_ ≤ place ∧ redactor.CutAt (utf8 text) place}
          cut := by
  have holds := fun value (listed : value ∈ redactor.values) => redactor.utf8_ne_nil listed
  have start : Reached redactor.values text (floorCharBoundary (utf8 text) at_)
      (floorCharBoundary (utf8 text) at_) :=
    ⟨isCharBoundary_floorFrom, Nat.le_refl _, fun _ past _ => past⟩
  have ends (fuel : Nat) (room : (utf8 text).length < fuel)
      : ∃ cut, redactor.clearCut fuel (utf8 text) at_ = some cut
          ∧ IsLeast {place | floorCharBoundary (utf8 text) at_ ≤ place
            ∧ redactor.CutAt (utf8 text) place} cut := by
    obtain ⟨cut, found, ⟨boundary, past, least⟩, clear⟩ := rounds_spec holds room
      (room.trans_le (Nat.le_add_left _ _)) start
    refine ⟨cut, found, ⟨past, boundary, ?_⟩, ?_⟩
    · exact List.forall_mem_map.mpr clear
    · rintro place ⟨later, _, free⟩
      exact least place later fun value listed => free (utf8 value) (List.mem_map_of_mem listed)
  obtain ⟨cut, _, least⟩ := ends _ (Nat.lt_succ_self _)
  refine ⟨cut, fun fuel room => ?_, least⟩
  obtain ⟨cut', found, least'⟩ := ends fuel room
  rw [found, least'.unique least]

/-- How far a value reaches into a text that it began before: so much of the text's beginning is an end
of a value, shorter than it, or nothing is.
-/
def Redactor.Reaches (redactor : Redactor) (text : List UInt8) (size : Nat) : Prop :=
  size = 0 ∨ ∃ needle ∈ redactor.needles, size ≤ text.length ∧ size < needle.length
    ∧ text.take size <:+ needle

theorem isGreatest_foldl_overlap (needles : List (List UInt8)) (text : List UInt8)
    {before : Set Nat} {most : Nat} (greatest : IsGreatest before most)
    : IsGreatest (before ∪ {size | ∃ needle ∈ needles, Ends
          (text.take (min text.length (needle.length - 1))) needle size})
        (needles.foldl (fun most needle =>
          max most (overlap (text.take (min text.length (needle.length - 1))) needle)) most) := by
  induction needles generalizing before most with
  | nil => simpa using greatest
  | cons needle rest ih =>
      have next := greatest.union (overlap_spec (text.take (min text.length (needle.length - 1))) needle)
      have more := ih next
      rw [List.foldl_cons]
      convert more using 1
      rw [Set.union_assoc]
      congr 1
      ext size
      simp

theorem Redactor.reach_spec (redactor : Redactor) (text : List UInt8)
    : IsGreatest {size | redactor.Reaches text size} (redactor.reach text) := by
  have zero : IsGreatest {size | size = 0} 0 := ⟨rfl, fun size same => le_of_eq same⟩
  have same : {size | redactor.Reaches text size} = {size | size = 0} ∪ {size | ∃ needle ∈ redactor.needles,
      Ends (text.take (min text.length (needle.length - 1))) needle size} := by
    ext size
    refine or_congr_right (exists_congr fun needle => and_congr_right fun listed => ?_)
    obtain ⟨value, listed', rfl⟩ := List.mem_map.mp listed
    have some_ := List.length_pos_iff.mpr (redactor.utf8_ne_nil listed')
    rw [Ends, List.length_take, Nat.min_eq_left (Nat.min_le_left _ _), List.take_take, ← and_assoc]
    have fits : size ≤ text.length ∧ size < (utf8 value).length
        ↔ size ≤ min text.length ((utf8 value).length - 1) := by omega
    rw [fits]
    refine and_congr_right fun within => ?_
    rw [Nat.min_eq_left within]
  rw [same]
  exact isGreatest_foldl_overlap redactor.needles text zero

end Dagron.Executor
