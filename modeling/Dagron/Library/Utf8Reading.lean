import Dagron.Library.Utf8

/-! Bytes of a text are read as that text, whether what is none is refused or replaced, and splitting
them at the byte of an ASCII character is splitting the text at the character.
-/

namespace Dagron.Library

def fromUtf8 (bytes : List UInt8) : Option String :=
  String.fromUTF8? ⟨⟨bytes⟩⟩

def IsText (bytes : List UInt8) : Prop :=
  ∃ chars, encodeChars chars = bytes

theorem utf8_eq_encodeChars (text : String)
    : utf8 text = encodeChars text.toList := by
  rw [utf8, ← String.utf8Encode_toList, List.utf8Encode, List.data_toByteArray, encodeChars]

theorem fromUtf8_eq_some_iff {bytes : List UInt8} {text : String}
    : fromUtf8 bytes = some text ↔ utf8 text = bytes := by
  rw [fromUtf8, String.fromUTF8?]
  constructor
  · intro read
    split_ifs at read with valid
    cases read
    rfl
  · rintro rfl
    have whole : (⟨⟨utf8 text⟩⟩ : ByteArray) = text.toByteArray := rfl
    rw [whole, dif_pos text.isValidUTF8]
    rfl

-- Reading a character

theorem toNat_byte {number : Nat} (small : number < 256)
    : (UInt8.ofNat number).toNat = number := by
  rw [UInt8.toNat_ofNat']
  exact Nat.mod_eq_of_lt small

theorem readRest_byte {low high : UInt8} {bounds : List (UInt8 × UInt8)} {value number : Nat}
    {rest : List UInt8} (small : number < 256) (within : low.toNat ≤ number ∧ number ≤ high.toNat)
    : readRest ((low, high) :: bounds) value (UInt8.ofNat number :: rest)
      = readRest bounds (value * 64 + number % 64) rest := by
  have inside : continues low high (UInt8.ofNat number) := by
    simp only [continues, Bool.and_eq_true, decide_eq_true_eq, UInt8.le_iff_toNat_le, toNat_byte small]
    exact within
  rw [readRest, if_pos inside, toNat_byte small]

theorem readRest_any {bounds : List (UInt8 × UInt8)} {value number : Nat} {rest : List UInt8}
    : readRest ((0x80, 0xBF) :: bounds) value (UInt8.ofNat (number % 64 + 128) :: rest)
      = readRest bounds (value * 64 + number % 64) rest := by
  rw [readRest_byte (by omega) ⟨by change 128 ≤ _; omega, by change _ ≤ 191; omega⟩]
  congr 1
  omega

theorem readChar_byte {number : Nat} (small : number < 256) (rest : List UInt8)
    : readChar (UInt8.ofNat number) rest
      = if number < 128 then (some (Char.ofNat number), rest)
        else if 194 ≤ number ∧ number ≤ 223 then readRest [(0x80, 0xBF)] (number % 32) rest
        else if number = 224 then readRest [(0xA0, 0xBF), (0x80, 0xBF)] (number % 16) rest
        else if number = 237 then readRest [(0x80, 0x9F), (0x80, 0xBF)] (number % 16) rest
        else if 225 ≤ number ∧ number ≤ 239 then
          readRest [(0x80, 0xBF), (0x80, 0xBF)] (number % 16) rest
        else if number = 240 then
          readRest [(0x90, 0xBF), (0x80, 0xBF), (0x80, 0xBF)] (number % 8) rest
        else if 241 ≤ number ∧ number ≤ 243 then
          readRest [(0x80, 0xBF), (0x80, 0xBF), (0x80, 0xBF)] (number % 8) rest
        else if number = 244 then
          readRest [(0x80, 0x8F), (0x80, 0xBF), (0x80, 0xBF)] (number % 8) rest
        else (none, rest) := by
  simp only [readChar, continues, Bool.and_eq_true, decide_eq_true_eq, UInt8.lt_iff_toNat_lt,
    UInt8.le_iff_toNat_le, ← UInt8.toNat_inj, toNat_byte small]
  rfl

theorem readChar_encode (char : Char) (rest : List UInt8)
    : ∃ first more, String.utf8EncodeChar char = first :: more
        ∧ readChar first (more ++ rest) = (some char, rest) := by
  have valid : char.val.toNat < 0xD800 ∨ 0xDFFF < char.val.toNat ∧ char.val.toNat < 0x110000 := char.valid
  have whole {number : Nat} (same : number = char.val.toNat) : Char.ofNat number = char := by
    rw [same]
    exact Char.ofNat_toNat char
  simp only [String.utf8EncodeChar]
  split_ifs with one two three
  · refine ⟨_, _, rfl, ?_⟩
    rw [readChar_byte (by omega), if_pos (by omega), whole rfl, List.nil_append]
  · refine ⟨_, _, rfl, ?_⟩
    rw [readChar_byte (by omega), if_neg (by omega), if_pos (by omega), List.cons_append, readRest_any]
    rw [readRest, whole (by omega), List.nil_append]
  · refine ⟨_, _, rfl, ?_⟩
    rw [readChar_byte (by omega), if_neg (by omega), if_neg (by omega), List.cons_append, List.cons_append]
    -- The least and the greatest first byte bound the second one further.
    split_ifs with least greatest
    · rw [readRest_byte (by omega) ⟨by change 160 ≤ _; omega, by change _ ≤ 191; omega⟩,
        readRest_any, readRest,
        whole (by omega), List.nil_append]
    · rw [readRest_byte (by omega) ⟨by change 128 ≤ _; omega, by change _ ≤ 159; omega⟩,
        readRest_any, readRest,
        whole (by omega), List.nil_append]
    · rw [readRest_any,
        readRest_any, readRest,
        whole (by omega), List.nil_append]
    all_goals omega
  · refine ⟨_, _, rfl, ?_⟩
    rw [readChar_byte (by omega), if_neg (by omega), if_neg (by omega), if_neg (by omega),
      if_neg (by omega), if_neg (by omega), List.cons_append, List.cons_append, List.cons_append]
    split_ifs with least middle greatest
    · rw [readRest_byte (by omega) ⟨by change 144 ≤ _; omega, by change _ ≤ 191; omega⟩,
        readRest_any,
        readRest_any, readRest,
        whole (by omega), List.nil_append]
    · rw [readRest_any,
        readRest_any,
        readRest_any, readRest,
        whole (by omega), List.nil_append]
    · rw [readRest_byte (by omega) ⟨by change 128 ≤ _; omega, by change _ ≤ 143; omega⟩,
        readRest_any,
        readRest_any, readRest,
        whole (by omega), List.nil_append]
    · omega

-- Reading a text

theorem readChars_encodeChars (chars : List Char) {fuel : Nat} (room : (encodeChars chars).length ≤ fuel)
    : readChars fuel (encodeChars chars) = chars.map some := by
  induction chars generalizing fuel with
  | nil => cases fuel <;> rfl
  | cons char rest ih =>
      obtain ⟨first, more, encoded, read⟩ := readChar_encode char (encodeChars rest)
      have whole : encodeChars (char :: rest) = first :: (more ++ encodeChars rest) := by
        rw [encodeChars, List.flatMap_cons, encoded]
        rfl
      rw [whole, List.length_cons, List.length_append] at room
      obtain ⟨fuel, rfl⟩ := Nat.exists_eq_add_of_le' (Nat.one_le_of_lt room)
      rw [whole, readChars, read, ih (by omega), List.map_cons]

theorem fromUtf8Lossy_encodeChars (chars : List Char)
    : fromUtf8Lossy (encodeChars chars) = chars := by
  rw [fromUtf8Lossy, readChars_encodeChars chars (Nat.le_refl _), List.map_map]
  exact List.map_id chars

-- Splitting

theorem splitOn_append {α : Type} [BEq α] [LawfulBEq α] {item : α} {front : List α} (rest : List α)
    (absent : item ∉ front)
    : (front ++ rest).splitOn item = (rest.splitOn item).modifyHead (front ++ ·) := by
  induction front with
  | nil =>
      rw [List.nil_append]
      cases rest.splitOn item <;> rfl
  | cons first front ih =>
      have other : (first == item) = false := beq_false_of_ne fun same => absent (same ▸ List.mem_cons_self)
      rw [List.cons_append, List.splitOn_cons_eq_if_modifyHead, other,
        ih fun inside => absent (List.mem_cons_of_mem _ inside)]
      cases rest.splitOn item <;> rfl

theorem splitOn_encodeChars {byte : UInt8} {char : Char} (ascii : byte < 0x80)
    (encoded : String.utf8EncodeChar char = [byte]) (chars : List Char)
    : (encodeChars chars).splitOn byte = (chars.splitOn char).map encodeChars := by
  induction chars with
  | nil => rfl
  | cons first rest ih =>
      rw [List.splitOn_cons_eq_if_modifyHead]
      by_cases same : first = char
      · rw [same, beq_self_eq_true, if_pos rfl, encodeChars, List.flatMap_cons, encoded,
          List.singleton_append, List.splitOn_cons_eq_if_modifyHead, beq_self_eq_true, if_pos rfl]
        rw [List.map_cons, ← ih]
        rfl
      · have absent : byte ∉ String.utf8EncodeChar first := by
          intro inside
          have own : byte ∈ String.utf8EncodeChar char := by
            rw [encoded]
            exact List.mem_cons_self
          have here := toNat_of_mem_encode ascii own
          have there := toNat_of_mem_encode ascii inside
          exact same (Char.toNat_inj.mp (there.trans here.symm))
        rw [beq_false_of_ne same, encodeChars, List.flatMap_cons, splitOn_append _ absent]
        change (encodeChars rest |>.splitOn byte).modifyHead _ = _
        rw [ih]
        cases rest.splitOn char <;> rfl

end Dagron.Library
