import Dagron.Library.CharBounds

/-! Parts of a text that are named by the places of their bytes: such a part is taken where both places are
bounds of characters, and one byte is looked at as the character of its number.
-/

namespace Dagron.Library

/-- The bytes of a text from one place to another, if both are bounds of characters. -/
def textPart (bytes : List UInt8) (start stop : Nat) : Option (List UInt8) :=
  if start ≤ stop ∧ isCharBoundary bytes start ∧ isCharBoundary bytes stop then
    some ((bytes.take stop).drop start)
  else none

theorem length_of_textPart {bytes part : List UInt8} {start stop : Nat}
    (taken : textPart bytes start stop = some part)
    : part.length + start ≤ max start bytes.length := by
  rw [textPart] at taken
  split at taken
  · obtain rfl := Option.some.inj taken
    rw [List.length_drop, List.length_take]
    omega
  · cases taken

def asChar (byte : UInt8) : Char :=
  Char.ofNat byte.toNat

def bytesOf (chars : List Char) : Nat :=
  (encodeChars chars).length

@[simp]
theorem bytesOf_nil : bytesOf [] = 0 :=
  rfl

theorem bytesOf_append (before after : List Char)
    : bytesOf (before ++ after) = bytesOf before + bytesOf after := by
  rw [bytesOf, encodeChars_append, List.length_append]
  rfl

theorem bytesOf_cons (char : Char) (chars : List Char)
    : bytesOf (char :: chars) = (String.utf8EncodeChar char).length + bytesOf chars := by
  rw [bytesOf, encodeChars, List.flatMap_cons, List.length_append]
  rfl

theorem encode_ascii {char : Char} (ascii : char.toNat < 128)
    : String.utf8EncodeChar char = [UInt8.ofNat char.toNat] := by
  have small : char.val.toNat ≤ 127 := Nat.le_of_lt_succ ascii
  rw [String.utf8EncodeChar]
  simp only [small, if_true]
  rfl

theorem bytesOf_ascii_cons {char : Char} (ascii : char.toNat < 128) (chars : List Char)
    : bytesOf (char :: chars) = bytesOf chars + 1 := by
  rw [bytesOf_cons, encode_ascii ascii, List.length_singleton, Nat.add_comm]

theorem asChar_ofNat {char : Char} (ascii : char.toNat < 128)
    : asChar (UInt8.ofNat char.toNat) = char := by
  rw [asChar, UInt8.toNat_ofNat_of_lt' (by omega : char.toNat < 256), Char.ofNat_toNat]

theorem textPart_encodeChars (before part after : List Char)
    : textPart (encodeChars (before ++ part ++ after)) (bytesOf before) (bytesOf before + bytesOf part)
      = some (encodeChars part) := by
  have first : isCharBoundary (encodeChars (before ++ part ++ after)) (bytesOf before) :=
    isCharBoundary_encodeChars_iff.mpr ⟨before, part ++ after, List.append_assoc .., rfl⟩
  have second : isCharBoundary (encodeChars (before ++ part ++ after)) (bytesOf before + bytesOf part) :=
    isCharBoundary_encodeChars_iff.mpr ⟨before ++ part, after, rfl, bytesOf_append ..⟩
  rw [textPart, if_pos ⟨Nat.le_add_right _ _, first, second⟩, encodeChars_append, encodeChars_append]
  rw [List.take_left' (by rw [List.length_append]; rfl)]
  exact congrArg some List.drop_left

theorem exists_of_textPart {before after : List Char} {stop : Nat} {bytes : List UInt8}
    (taken : textPart (encodeChars (before ++ after)) (bytesOf before) stop = some bytes)
    : ∃ part rest, after = part ++ rest ∧ bytes = encodeChars part := by
  rw [textPart] at taken
  split at taken <;> rename_i bounds
  · obtain ⟨front, rest, split, long⟩ := isCharBoundary_encodeChars_iff.mp bounds.2.2
    have further : ∃ part, front = before ++ part ∧ after = part ++ rest := by
      rcases List.append_eq_append_iff.mp split with ⟨part, rfl, rfl⟩ | ⟨part, rfl, rfl⟩
      · exact ⟨part, rfl, rfl⟩
      · have none_ : bytesOf part = 0 := by
          have order := bounds.1
          rw [← long, bytesOf_append] at order
          change bytesOf front + bytesOf part ≤ bytesOf front at order
          omega
        cases part with
        | nil => exact ⟨[], by simp, by simp⟩
        | cons char part =>
            obtain ⟨first, more, encoded, -⟩ := encode_eq_cons char
            rw [bytesOf_cons, encoded, List.length_cons] at none_
            omega
    obtain ⟨part, rfl, rfl⟩ := further
    obtain rfl : stop = bytesOf before + bytesOf part := by
      rw [← long, ← bytesOf_append]
      rfl
    refine ⟨part, rest, rfl, ?_⟩
    have whole := textPart_encodeChars before part rest
    rw [textPart, if_pos (by rw [List.append_assoc]; exact bounds), List.append_assoc] at whole
    exact (Option.some.inj taken).symm.trans (Option.some.inj whole)
  · cases taken

/-- The byte where some characters end is the next one's first: it is that character, or looks like none of
one byte.
-/
theorem byte_at (before : List Char) (char : Char) (after : List Char)
    : ∃ byte, (encodeChars (before ++ char :: after))[bytesOf before]? = some byte
      ∧ (char.toNat < 128 ∧ asChar byte = char ∨ 128 ≤ char.toNat ∧ 128 ≤ (asChar byte).toNat) := by
  obtain ⟨first, rest, encoded, -, -⟩ := encode_eq_cons char
  refine ⟨first, ?_, ?_⟩
  · rw [encodeChars_append, bytesOf, List.getElem?_append_right (Nat.le_refl _), Nat.sub_self, encodeChars,
      List.flatMap_cons, encoded]
    rfl
  · by_cases ascii : char.toNat < 128
    · refine Or.inl ⟨ascii, ?_⟩
      rw [encode_ascii ascii] at encoded
      obtain ⟨rfl, -⟩ := List.cons.inj encoded
      exact asChar_ofNat ascii
    · refine Or.inr ⟨Nat.le_of_not_lt ascii, ?_⟩
      have high : ¬first < 0x80 := by
        intro low
        have same := toNat_of_mem_encode low (encoded ▸ List.mem_cons_self)
        have small : first.toNat < 128 := low
        omega
      have wide : 128 ≤ first.toNat := by
        by_contra low
        exact high (Nat.lt_of_not_le low)
      have valid : Nat.isValidChar first.toNat := by
        have bound := first.toNat_lt
        exact Or.inl (by omega)
      have same : (asChar first).toNat = first.toNat := by
        rw [asChar, Char.ofNat, dif_pos valid]
        rfl
      rw [same]
      exact wide

theorem byte_at_end (chars : List Char)
    : (encodeChars chars)[bytesOf chars]? = none :=
  List.getElem?_eq_none (Nat.le_refl _)

theorem encodeChars_prefix {first second : List Char} (begins : first <+: second)
    : encodeChars first <+: encodeChars second := by
  obtain ⟨rest, rfl⟩ := begins
  rw [encodeChars_append]
  exact List.prefix_append _ _

-- What comes next

section Next

variable {Item : Type} {got whole : List Item}

theorem append_next (begins : got <+: whole) (count : Nat)
    : got ++ (whole.drop got.length).take count = whole.take (got.length + count) := by
  have same := List.prefix_iff_eq_take.mp begins
  rw [List.take_add, ← same]

theorem prefix_next (begins : got <+: whole) (count : Nat)
    : got ++ (whole.drop got.length).take count <+: whole := by
  rw [append_next begins]
  exact List.take_prefix _ _

theorem next_of_part (front part back : List Item) {at_ count : Nat} (after : front.length ≤ at_)
    (within : at_ + count ≤ front.length + part.length)
    : ((front ++ part ++ back).drop at_).take count = (part.drop (at_ - front.length)).take count := by
  have inside : at_ - front.length ≤ part.length := by omega
  have enough : count ≤ (part.drop (at_ - front.length)).length := by
    rw [List.length_drop]
    omega
  rw [List.append_assoc, List.drop_append, List.drop_eq_nil_of_le after, List.nil_append,
    List.drop_append_of_le_length inside, List.take_append_of_le_length enough]

theorem next_past (front back : List Item) {at_ : Nat} (after : front.length ≤ at_)
    : (front ++ back).drop at_ = back.drop (at_ - front.length) := by
  rw [List.drop_append, List.drop_eq_nil_of_le after, List.nil_append]

end Next

end Dagron.Library
