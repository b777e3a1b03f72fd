import Mathlib.Data.List.Basic

/-! Texts as bytes: the encoding of a text, and the reading of bytes that may be no text, in which
each part that is none becomes one replacement character.
-/

namespace Dagron.Library

def utf8 (text : String) : List UInt8 :=
  text.toByteArray.data.toList

def encodeChars (chars : List Char) : List UInt8 :=
  chars.flatMap String.utf8EncodeChar

def replacement : Char :=
  Char.ofNat 0xFFFD

def continues (low high byte : UInt8) : Bool :=
  low ≤ byte && byte ≤ high

/-- (readRest bounds value) reads the bytes that continue a character, each within its bounds: the
character they complete, or nothing, and what follows.
-/
def readRest : List (UInt8 × UInt8) → Nat → List UInt8 → Option Char × List UInt8
  | [], value, rest => (some (Char.ofNat value), rest)
  | _ :: _, _, [] => (none, [])
  | (low, high) :: bounds, value, byte :: rest =>
      if continues low high byte then readRest bounds (value * 64 + byte.toNat % 64) rest
      else (none, byte :: rest)

/-- Reads the character that a byte starts, and what follows it. -/
def readChar (first : UInt8) (rest : List UInt8) : Option Char × List UInt8 :=
  let any : UInt8 × UInt8 := (0x80, 0xBF)
  let two := first.toNat % 32
  let three := first.toNat % 16
  let four := first.toNat % 8
  if first < 0x80 then (some (Char.ofNat first.toNat), rest)
  else if continues 0xC2 0xDF first then readRest [any] two rest
  else if first = 0xE0 then readRest [(0xA0, 0xBF), any] three rest
  else if first = 0xED then readRest [(0x80, 0x9F), any] three rest
  else if continues 0xE1 0xEF first then readRest [any, any] three rest
  else if first = 0xF0 then readRest [(0x90, 0xBF), any, any] four rest
  else if continues 0xF1 0xF3 first then readRest [any, any, any] four rest
  else if first = 0xF4 then readRest [(0x80, 0x8F), any, any] four rest
  else (none, rest)

/-- (readChars fuel) reads the characters of no more than (fuel) bytes, nothing for a part that is
none.
-/
def readChars : Nat → List UInt8 → List (Option Char)
  | 0, _ => []
  | _, [] => []
  | fuel + 1, first :: rest => (readChar first rest).1 :: readChars fuel (readChar first rest).2

/-- The text of bytes, a replacement character for each part that is none. -/
def fromUtf8Lossy (bytes : List UInt8) : List Char :=
  (readChars bytes.length bytes).map (fun char => char.getD replacement)

def isUtf8 (bytes : List UInt8) : Bool :=
  (readChars bytes.length bytes).all Option.isSome

theorem toNat_of_mem_encode {byte : UInt8} {char : Char} (ascii : byte < 0x80)
    (member : byte ∈ String.utf8EncodeChar char)
    : char.toNat = byte.toNat := by
  have small : byte.toNat < 128 := ascii
  have value : char.val.toNat = char.toNat := rfl
  have high (rest base : Nat) (above : 128 ≤ base) (fits : base + rest < 256)
      : byte ≠ UInt8.ofNat (rest + base) := by
    rintro rfl
    rw [UInt8.toNat_ofNat'] at small
    omega
  simp only [String.utf8EncodeChar] at member
  split_ifs at member
  · obtain rfl := List.mem_singleton.mp member
    rw [UInt8.toNat_ofNat']
    omega
  · exfalso
    simp only [List.mem_cons, List.not_mem_nil, or_false] at member
    rcases member with same | same <;> exact high _ _ (by omega) (by omega) same
  · exfalso
    simp only [List.mem_cons, List.not_mem_nil, or_false] at member
    rcases member with same | same | same <;> exact high _ _ (by omega) (by omega) same
  · exfalso
    simp only [List.mem_cons, List.not_mem_nil, or_false] at member
    rcases member with same | same | same | same <;> exact high _ _ (by omega) (by omega) same

theorem length_utf8 (text : String)
    : (utf8 text).length = text.utf8ByteSize := by
  rw [utf8, Array.length_toList]
  exact String.size_toByteArray

theorem utf8_injective
    : Function.Injective utf8 := by
  intro first second same
  have data : first.toByteArray.data = second.toByteArray.data := Array.toList_inj.mp same
  exact String.toByteArray_inj.mp (ByteArray.ext data)

example : fromUtf8Lossy (encodeChars "é€😀".toList) = "é€😀".toList := by decide

example : fromUtf8Lossy [0x61, 0xF0, 0x9F, 0x98, 0x62, 0xFF, 0x63]
    = ['a', replacement, 'b', replacement, 'c'] := by decide

end Dagron.Library
