import Dagron.Library.Utf8Reading
import Dagron.Library.Replace
import Mathlib.Data.List.GetD

/-! Where the bytes of a text can be cut: at the bounds of its characters. An occurrence of one text in
another begins and ends at such bounds.
-/

namespace Dagron.Library

def begins (byte : UInt8) : Bool :=
  byte < 0x80 || 0xC0 ≤ byte

/-- Whether a place is the bound of a character, as the bytes of a text tell. -/
def isCharBoundary (bytes : List UInt8) (place : Nat) : Bool :=
  place == 0 || if bytes.length ≤ place then place == bytes.length else begins (bytes.getD place 0)

/-- The greatest bound that is not past a place, found backwards from it. -/
@[simp] def floorFrom (bytes : List UInt8) : Nat → Nat
  | 0 => 0
  | place + 1 => if isCharBoundary bytes (place + 1) then place + 1 else floorFrom bytes place

/-- The greatest bound that is not past a place, nor past the end. -/
def floorCharBoundary (bytes : List UInt8) (place : Nat) : Nat :=
  floorFrom bytes (min place bytes.length)

section Floor

variable {bytes : List UInt8} {place bound : Nat}

theorem isCharBoundary_floorFrom
    : isCharBoundary bytes (floorFrom bytes place) := by
  induction place with
  | zero => rfl
  | succ place ih =>
      rw [floorFrom]
      split_ifs with here
      · exact here
      · exact ih

theorem floorFrom_le
    : floorFrom bytes place ≤ place := by
  induction place with
  | zero => exact Nat.le_refl _
  | succ place ih =>
      rw [floorFrom]
      split_ifs
      · exact Nat.le_refl _
      · exact ih.trans (Nat.le_succ _)

theorem le_floorFrom (boundary : isCharBoundary bytes bound) (below : bound ≤ place)
    : bound ≤ floorFrom bytes place := by
  induction place with
  | zero => exact below
  | succ place ih =>
      rw [floorFrom]
      split_ifs with here
      · exact below
      · rcases Nat.lt_or_eq_of_le below with less | rfl
        · exact ih (Nat.le_of_lt_succ less)
        · exact absurd boundary here

theorem floorCharBoundary_le_length
    : floorCharBoundary bytes place ≤ bytes.length :=
  floorFrom_le.trans (Nat.min_le_right _ _)

theorem floorCharBoundary_le
    : floorCharBoundary bytes place ≤ place :=
  floorFrom_le.trans (Nat.min_le_left _ _)

theorem le_length_of_isCharBoundary (boundary : isCharBoundary bytes bound)
    : bound ≤ bytes.length := by
  rw [isCharBoundary, Bool.or_eq_true, beq_iff_eq] at boundary
  rcases boundary with rfl | boundary
  · exact Nat.zero_le _
  · split_ifs at boundary with past
    · exact (beq_iff_eq.mp boundary).le
    · exact (Nat.lt_of_not_le past).le

theorem le_floorCharBoundary (boundary : isCharBoundary bytes bound) (below : bound ≤ place)
    : bound ≤ floorCharBoundary bytes place :=
  le_floorFrom boundary (Nat.le_min.mpr ⟨below, le_length_of_isCharBoundary boundary⟩)

end Floor

-- Characters

theorem encode_eq_cons (char : Char)
    : ∃ first rest, String.utf8EncodeChar char = first :: rest ∧ begins first
        ∧ ∀ byte ∈ rest, ¬ begins byte := by
  have one (value : Nat) (small : value < 128) : begins (UInt8.ofNat value) := by
    have := UInt8.toNat_ofNat_of_lt' (by omega : value < 256)
    simp only [begins, Bool.or_eq_true, decide_eq_true_eq, UInt8.lt_iff_toNat_lt, this]
    exact .inl small
  have lead (value base : Nat) (above : 192 ≤ base) (fits : base + value < 256)
      : begins (UInt8.ofNat (value + base)) := by
    have := UInt8.toNat_ofNat_of_lt' (by omega : value + base < 256)
    simp only [begins, Bool.or_eq_true, decide_eq_true_eq, UInt8.le_iff_toNat_le, this]
    exact .inr (above.trans (Nat.le_add_left _ _))
  have next (value : Nat) : ¬ begins (UInt8.ofNat (value % 64 + 128)) := by
    have := UInt8.toNat_ofNat_of_lt' (by omega : value % 64 + 128 < 256)
    simp only [begins, Bool.or_eq_true, decide_eq_true_eq, UInt8.lt_iff_toNat_lt,
      UInt8.le_iff_toNat_le, this]
    rintro (small | large)
    · exact absurd small (by simp)
    · have : 192 ≤ value % 64 + 128 := large
      omega
  simp only [String.utf8EncodeChar]
  split_ifs with size
  · exact ⟨_, _, rfl, one _ (by omega), fun byte inside => by cases inside⟩
  · refine ⟨_, _, rfl, lead _ _ (by omega) (by omega), fun byte inside => ?_⟩
    simp only [List.mem_cons, List.not_mem_nil, or_false] at inside
    rw [inside]
    exact next _
  · refine ⟨_, _, rfl, lead _ _ (by omega) (by omega), fun byte inside => ?_⟩
    simp only [List.mem_cons, List.not_mem_nil, or_false] at inside
    rcases inside with rfl | rfl <;> exact next _
  · refine ⟨_, _, rfl, lead _ _ (by omega) (by omega), fun byte inside => ?_⟩
    simp only [List.mem_cons, List.not_mem_nil, or_false] at inside
    rcases inside with rfl | rfl | rfl <;> exact next _

theorem encodeChars_append (first second : List Char)
    : encodeChars (first ++ second) = encodeChars first ++ encodeChars second :=
  List.flatMap_append

theorem isCharBoundary_cons_iff {char : Char} {chars : List Char} {place : Nat}
    : isCharBoundary (encodeChars (char :: chars)) ((String.utf8EncodeChar char).length + place)
      ↔ isCharBoundary (encodeChars chars) place := by
  have split : encodeChars (char :: chars) = String.utf8EncodeChar char ++ encodeChars chars := rfl
  obtain ⟨first, rest, encoded, _⟩ := encode_eq_cons char
  have some_ : (String.utf8EncodeChar char).length + place ≠ 0 := by
    rw [encoded, List.length_cons]
    omega
  have past : (encodeChars (char :: chars)).length ≤ (String.utf8EncodeChar char).length + place
      ↔ (encodeChars chars).length ≤ place := by
    rw [split, List.length_append]
    omega
  have end_ : (String.utf8EncodeChar char).length + place = (encodeChars (char :: chars)).length
      ↔ place = (encodeChars chars).length := by
    rw [split, List.length_append]
    omega
  have byte : (encodeChars (char :: chars)).getD ((String.utf8EncodeChar char).length + place) 0
      = (encodeChars chars).getD place 0 := by
    rw [split, List.getD_append_right _ _ _ _ (Nat.le_add_right _ _), Nat.add_sub_cancel_left]
  simp only [isCharBoundary, beq_false_of_ne some_, Bool.false_or, past, byte, Bool.or_eq_true,
    beq_iff_eq]
  by_cases start : place = 0
  · rw [start] at end_ ⊢
    cases chars with
    | nil =>
        have long : (String.utf8EncodeChar char).length = (encodeChars [char]).length := by
          rw [encodeChars, List.flatMap_cons, List.flatMap_nil, List.append_nil]
        have none_ : (encodeChars []).length ≤ 0 := Nat.le_refl _
        rw [Nat.add_zero, if_pos none_]
        exact iff_of_true (beq_iff_eq.mpr long) (.inl rfl)
    | cons next others =>
        obtain ⟨lead, conts, encoded', leads, _⟩ := encode_eq_cons next
        have whole : encodeChars (next :: others) = lead :: (conts ++ encodeChars others) := by
          rw [encodeChars, List.flatMap_cons, encoded']
          rfl
        simp [whole, leads]
  · rw [or_iff_right start]
    split_ifs
    · rw [beq_iff_eq, beq_iff_eq, end_]
    · rfl

theorem isCharBoundary_encodeChars_iff {chars : List Char} {place : Nat}
    : isCharBoundary (encodeChars chars) place
      ↔ ∃ before after, chars = before ++ after ∧ (encodeChars before).length = place := by
  induction chars generalizing place with
  | nil =>
      have none_ : isCharBoundary (encodeChars []) place ↔ place = 0 := by
        simp [isCharBoundary, encodeChars]
      rw [none_]
      constructor
      · rintro rfl
        exact ⟨[], [], rfl, rfl⟩
      · rintro ⟨before, after, split, rfl⟩
        rw [(List.append_eq_nil_iff.mp split.symm).1]
        rfl
  | cons char rest ih =>
      obtain ⟨first, conts, encoded, _, inner⟩ := encode_eq_cons char
      by_cases later : (String.utf8EncodeChar char).length ≤ place
      · obtain ⟨further, rfl⟩ := Nat.exists_eq_add_of_le later
        rw [isCharBoundary_cons_iff, ih]
        constructor
        · rintro ⟨before, after, rfl, rfl⟩
          exact ⟨char :: before, after, rfl, List.length_append⟩
        · rintro ⟨before, after, split, long⟩
          cases before with
          | nil =>
              have : (String.utf8EncodeChar char).length + further = 0 := long.symm
              rw [encoded, List.length_cons] at this
              omega
          | cons head before =>
              obtain ⟨rfl, rfl⟩ := List.cons.inj split
              refine ⟨before, after, rfl, ?_⟩
              have : (String.utf8EncodeChar char).length + (encodeChars before).length
                  = (String.utf8EncodeChar char).length + further := by
                rw [← long, ← List.length_append]
                rfl
              omega
      · constructor
        · intro boundary
          rcases Nat.eq_zero_or_pos place with rfl | some_
          · exact ⟨[], _, rfl, rfl⟩
          · exfalso
            obtain ⟨place, rfl⟩ : ∃ before, place = before + 1 := ⟨place - 1, by omega⟩
            rw [encoded, List.length_cons, Nat.succ_le_succ_iff, Nat.not_le] at later
            have whole : encodeChars (char :: rest) = first :: (conts ++ encodeChars rest) := by
              rw [encodeChars, List.flatMap_cons, encoded]
              rfl
            have short : ¬ (first :: (conts ++ encodeChars rest)).length ≤ place + 1 := by
              rw [List.length_cons, List.length_append]
              omega
            have byte : (first :: (conts ++ encodeChars rest)).getD (place + 1) 0 = conts[place] := by
              rw [List.getD_cons_succ, List.getD_append _ _ _ _ later, List.getD_eq_getElem _ _ later]
            rw [whole, isCharBoundary, if_neg short, byte] at boundary
            exact inner _ (List.getElem_mem later) (by simpa using boundary)
        · rintro ⟨before, after, split, rfl⟩
          cases before with
          | nil => rfl
          | cons head before =>
              obtain ⟨rfl, rfl⟩ := List.cons.inj split
              refine absurd ?_ later
              rw [encodeChars, List.flatMap_cons, List.length_append]
              exact Nat.le_add_right _ _

theorem prefix_of_encodeChars_prefix {first second : List Char}
    (begins : encodeChars first <+: encodeChars second)
    : first <+: second := by
  obtain ⟨rest, same⟩ := begins
  refine List.isPrefix_of_utf8Encode_append_eq_utf8Encode rest.toByteArray ?_
  rw [List.utf8Encode, List.utf8Encode, ← List.toByteArray_append]
  exact congrArg List.toByteArray same

theorem OccursAt.boundaries {value text : String} {start : Nat}
    (occurs : OccursAt (utf8 value) (utf8 text) start) (holds : utf8 value ≠ [])
    : isCharBoundary (utf8 text) start
      ∧ isCharBoundary (utf8 text) (start + (utf8 value).length) := by
  obtain ⟨before, after, split, rfl⟩ := (occursAt_iff holds).mp occurs
  rw [utf8_eq_encodeChars text] at split occurs ⊢
  rw [utf8_eq_encodeChars value] at split occurs holds ⊢
  -- The first byte of an occurrence begins a character, so that characters are before it; what
  -- is from there on begins with the occurrence's, so that characters are after these.
  have first : isCharBoundary (encodeChars text.toList) before.length := by
    rw [split]
    cases chars : value.toList with
    | nil => exact absurd (by rw [chars]; rfl) holds
    | cons char rest =>
        obtain ⟨lead, conts, encoded, leads, _⟩ := encode_eq_cons char
        have whole : encodeChars (char :: rest) = lead :: (conts ++ encodeChars rest) := by
          rw [encodeChars, List.flatMap_cons, encoded]
          rfl
        rw [whole, List.append_assoc, List.cons_append]
        simp [isCharBoundary, leads]
  obtain ⟨upto, rest, whole, long⟩ := isCharBoundary_encodeChars_iff.mp first
  refine ⟨first, ?_⟩
  have onwards : encodeChars value.toList <+: encodeChars rest := by
    rw [OccursAt, whole, encodeChars_append, ← long, List.drop_left] at occurs
    exact occurs
  obtain ⟨more, rfl⟩ := prefix_of_encodeChars_prefix onwards
  refine isCharBoundary_encodeChars_iff.mpr ⟨upto ++ value.toList, more, ?_, ?_⟩
  · rw [whole, List.append_assoc]
  · rw [encodeChars_append, List.length_append, long]

end Dagron.Library
