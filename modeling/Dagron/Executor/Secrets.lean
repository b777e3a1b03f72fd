import Dagron.Executor.Cuts

/-! What a redactor keeps secret: where occurrences that overlap lie in one longer one and no value can
meet the stars that stand for another, no byte of an occurrence is shown, and a text masked in pieces is
the text masked whole.
-/

namespace Dagron.Executor

open Dagron.Library

-- Stars

def star : UInt8 :=
  42

theorem stars_eq
    : stars = List.replicate 3 star := by
  decide

/-- A value that neither begins nor ends with a star, nor holds three in a row. -/
def Starless (needle : List UInt8) : Prop :=
  needle.head? ≠ some star ∧ needle.getLast? ≠ some star ∧ ¬ stars <:+: needle

instance (needle : List UInt8) : Decidable (Starless needle) :=
  inferInstanceAs (Decidable (_ ∧ _ ∧ _))

/-- A value that no stars are at the ends of and that does not hold the stars meets them nowhere. -/
theorem Starless.apart {needle : List UInt8} (starless : Starless needle) (holds : needle ≠ [])
    : Apart stars needle := by
  intro before after start occurs
  obtain ⟨first, last, within⟩ := starless
  by_contra meets
  obtain ⟨inside, past⟩ := not_or.mp meets
  have some_ := List.length_pos_iff.mpr holds
  have three : stars.length = 3 := by decide
  rw [three] at past
  have marked (place : Nat) (low : before.length ≤ place) (high : place < before.length + 3)
      : (before ++ stars ++ after)[place]? = some star := by
    obtain ⟨offset, rfl⟩ := Nat.exists_eq_add_of_le low
    rw [List.append_assoc, List.getElem?_append_right low, Nat.add_sub_cancel_left,
      List.getElem?_append_left (by omega), stars_eq, List.getElem?_replicate, if_pos (by omega)]
  have read (offset : Nat) (short : offset < needle.length)
      : needle[offset]? = (before ++ stars ++ after)[start + offset]? := by
    obtain ⟨rest, split⟩ := occurs
    rw [← List.getElem?_drop, ← split, List.getElem?_append_left short]
  rcases Nat.lt_or_ge start before.length with early | late
  · rcases Nat.lt_or_ge (before.length + 3) (start + needle.length) with long | short
    · refine within ?_
      rw [OccursAt, List.append_assoc, List.drop_append_of_le_length early.le, ← List.append_assoc] at occurs
      obtain ⟨rest, split⟩ : before.drop start ++ stars <+: needle := by
        refine List.prefix_of_prefix_length_le (List.prefix_append _ _) occurs ?_
        rw [List.length_append, List.length_drop]
        omega
      exact ⟨_, rest, split⟩
    · refine last ?_
      rw [List.getLast?_eq_getElem?, read _ (by omega)]
      exact marked _ (by omega) (by omega)
  · refine first ?_
    rw [List.head?_eq_getElem?, read 0 (by omega)]
    exact marked _ late (by omega)

-- Masking

section Masking

variable {redactor : Redactor} {text first second : List UInt8}

theorem Redactor.needles_ne_nil (redactor : Redactor)
    : ∀ needle ∈ redactor.needles, needle ≠ [] :=
  List.forall_mem_map.mpr fun _ listed => redactor.utf8_ne_nil listed

theorem contains_iff {needle : List UInt8} (holds : needle ≠ [])
    : contains text needle ↔ ∃ start, OccursAt needle text start := by
  simp only [contains, List.any_eq_true, List.mem_range, List.isPrefixOf_iff_prefix]
  constructor
  · rintro ⟨start, _, occurs⟩
    exact ⟨start, occurs⟩
  · rintro ⟨start, occurs⟩
    have fits := OccursAt.le_length occurs holds
    exact ⟨start, by omega, occurs⟩

theorem Redactor.redact_eq (redactor : Redactor) (text : List UInt8)
    : redactor.redact text = replaceAll id stars redactor.needles text := by
  rw [redact]
  split_ifs with none_
  · rw [replaceAll_absent]
    intro needle listed start occurs
    rw [List.map_id] at occurs
    rw [Bool.or_eq_true, List.isEmpty_iff, Bool.not_eq_true', List.any_eq_false] at none_
    rcases none_ with empty | none_
    · rw [needles, empty] at listed
      cases listed
    · exact none_ needle listed ((contains_iff (redactor.needles_ne_nil needle listed)).mpr ⟨start, occurs⟩)
  · rfl

theorem map_fst_placed
    : (placed text).map Prod.fst = text := by
  rw [placed, List.map_map]
  exact List.zipIdx_map_fst 0 text

theorem map_fst_stars
    : (stars.map fun star => (star, (none : Option Nat))).map Prod.fst = stars := by
  rw [List.map_map]
  exact List.map_id _

theorem Redactor.longer (redactor : Redactor)
    : redactor.needles.Pairwise fun earlier later => earlier <:+: later → earlier = later := by
  refine List.pairwise_map.mpr (redactor.sorted.imp ?_)
  rintro first second (less | ⟨same, _⟩) within
  · exact absurd within.length_le (by omega)
  · exact within.eq_of_length same.symm

theorem Redactor.not_covers_of_mem_shown (starless : ∀ needle ∈ redactor.needles, Starless needle)
    (joined : Joined redactor.needles text) {place : Nat} (shown : place ∈ redactor.shown text)
    : ¬ Covers redactor.needles text place := by
  obtain ⟨⟨byte, from_⟩, among, same⟩ := List.mem_filterMap.mp shown
  obtain rfl : from_ = some place := same
  have holds := redactor.needles_ne_nil
  rcases uncovered_of_mem_replaceAll holds (by
      rw [map_fst_stars]
      exact fun needle listed => (starless needle listed).apart (holds needle listed))
    redactor.longer (by rwa [map_fst_placed]) among with marked | ⟨before, after, split, free⟩
  · obtain ⟨_, _, same⟩ := List.mem_map.mp marked
    cases same
  · have here : (placed text)[before.length]? = some (byte, some place) := by
      rw [split, List.getElem?_append_right (Nat.le_refl _), Nat.sub_self]
      rfl
    rw [placed, List.getElem?_map, List.getElem?_zipIdx, Option.map_map, Option.map_eq_some_iff] at here
    obtain ⟨_, _, same⟩ := here
    rw [map_fst_placed] at free
    rwa [← show before.length = place by simpa using (Prod.mk.inj same).2]

theorem Redactor.redact_append (starless : ∀ needle ∈ redactor.needles, Starless needle)
    (clear : ∀ needle ∈ redactor.needles, ¬ Spans needle (first ++ second) first.length)
    : redactor.redact (first ++ second) = redactor.redact first ++ redactor.redact second := by
  have holds := redactor.needles_ne_nil
  rw [redact_eq, redact_eq, redact_eq]
  refine replaceAll_append holds ?_ ?_
  · rw [List.map_id]
    exact fun needle listed => (starless needle listed).apart (holds needle listed)
  · rwa [List.map_id]

end Masking

-- Safety

/-- A text that is masked and cut safely: none of an occurrence's bytes is shown; a cut is found, the
least the text can be cut at, and the parts are masked as the whole is; and the reach is the most of the
text that a value can end with.
-/
structure Redactor.Safe (redactor : Redactor) (text : String) : Prop where
  hides : ∀ place ∈ redactor.shown (utf8 text), ¬ Covers redactor.needles (utf8 text) place
  cuts : ∀ at_, ∃ cut,
    (∀ fuel > (utf8 text).length, redactor.clearCut fuel (utf8 text) at_ = some cut)
      ∧ IsLeast {place | floorCharBoundary (utf8 text) at_ ≤ place ∧ redactor.CutAt (utf8 text) place} cut
      ∧ redactor.redact ((utf8 text).take cut) ++ redactor.redact ((utf8 text).drop cut)
        = redactor.redact (utf8 text)
  reaches : IsGreatest {size | redactor.Reaches (utf8 text) size} (redactor.reach (utf8 text))

/-- A text whose occurrences are each masked whole: where it has any, overlapping ones lie in one, and no
value can meet the stars of another.
-/
def Redactor.Clean (redactor : Redactor) (text : List UInt8) : Prop :=
  (∃ place, Covers redactor.needles text place) →
    (∀ needle ∈ redactor.needles, Starless needle) ∧ Joined redactor.needles text

variable {redactor : Redactor} {text : List UInt8}

theorem Redactor.not_occursAt (free : ¬ ∃ place, Covers redactor.needles text place)
    : ∀ needle ∈ redactor.needles, ∀ start, ¬ OccursAt needle text start := by
  intro needle listed start occurs
  have some_ := List.length_pos_iff.mpr (redactor.needles_ne_nil needle listed)
  exact free ⟨start, needle, listed, start, occurs, Nat.le_refl _, by omega⟩

theorem Redactor.redact_absent (absent : ∀ needle ∈ redactor.needles, ∀ start, ¬ OccursAt needle text start)
    : redactor.redact text = text := by
  rw [redact_eq, replaceAll_absent]
  rwa [List.map_id]

theorem Redactor.redact_cut (clean : redactor.Clean text) {cut : Nat} (cutAt : redactor.CutAt text cut)
    : redactor.redact (text.take cut) ++ redactor.redact (text.drop cut) = redactor.redact text := by
  have whole : text.take cut ++ text.drop cut = text := List.take_append_drop cut text
  have long : (text.take cut).length = cut := List.length_take_of_le (le_length_of_isCharBoundary cutAt.1)
  by_cases some_ : ∃ place, Covers redactor.needles text place
  · rw [← redact_append (clean some_).1, whole]
    rw [whole, long]
    exact cutAt.2
  · have absent := not_occursAt some_
    rw [redact_absent absent, redact_absent, redact_absent, whole]
    · intro needle listed start occurs
      refine absent needle listed (cut + start) ?_
      rwa [OccursAt, ← List.drop_drop]
    · intro needle listed start occurs
      refine absent needle listed start ?_
      rw [← whole]
      exact (occursAt_append_left (occurs.le_length (redactor.needles_ne_nil needle listed))).mpr occurs

end Dagron.Executor
