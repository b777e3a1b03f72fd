import Mathlib.Data.List.Basic
import Mathlib.Tactic.IntervalCases

/-! Strings as JSON writes them: what a character is written as, and that what is written is read again.
-/

namespace Dagron.Library

def lowerHexDigit (number : Nat) : Char :=
  if number < 10 then Char.ofNat ('0'.toNat + number) else Char.ofNat ('a'.toNat + (number - 10))

/-- A character inside a string: a quote, a backslash or a control character is written as an escape. -/
def escapeJson (char : Char) : List Char :=
  if char = '"' then ['\\', '"']
  else if char = '\\' then ['\\', '\\']
  else if char.toNat < 32 then
    match char.toNat with
    | 8 => ['\\', 'b']
    | 9 => ['\\', 't']
    | 10 => ['\\', 'n']
    | 12 => ['\\', 'f']
    | 13 => ['\\', 'r']
    | code => ['\\', 'u', '0', '0', lowerHexDigit (code / 16), lowerHexDigit (code % 16)]
  else [char]

def quoteJson (text : List Char) : List Char :=
  '"' :: text.flatMap escapeJson ++ ['"']

def lowerHexValue (char : Char) : Nat :=
  if char.toNat < 'a'.toNat then char.toNat - '0'.toNat else char.toNat - 'a'.toNat + 10

def unescapeJson (char : Char) : Char :=
  match char with
  | 'b' => Char.ofNat 8
  | 't' => '\t'
  | 'n' => '\n'
  | 'f' => Char.ofNat 12
  | 'r' => '\r'
  | char => char

/-- Reads the rest of a string, to its quote, and what is after that. -/
def readJsonString : List Char → Option (List Char × List Char)
  | '"' :: rest => some ([], rest)
  | '\\' :: 'u' :: first :: second :: third :: fourth :: rest =>
      let code := ((lowerHexValue first * 16 + lowerHexValue second) * 16 + lowerHexValue third) * 16
        + lowerHexValue fourth
      (readJsonString rest).map fun (text, after) => (Char.ofNat code :: text, after)
  | '\\' :: char :: rest =>
      (readJsonString rest).map fun (text, after) => (unescapeJson char :: text, after)
  | char :: rest => (readJsonString rest).map fun (text, after) => (char :: text, after)
  | [] => none

theorem control_cases {property : Char → Prop} (small : ∀ code < 32, property (Char.ofNat code)) {char : Char}
    (control : char.toNat < 32)
    : property char := by
  rw [← Char.ofNat_toNat char]
  exact small char.toNat control

theorem not_mem_escapeJson (char : Char)
    : '\n' ∉ escapeJson char := by
  by_cases control : char.toNat < 32
  · exact @control_cases (fun char => '\n' ∉ escapeJson char) (by decide) char control
  · unfold escapeJson
    split_ifs with quote backslash
    · decide
    · decide
    · rw [List.mem_singleton]
      rintro rfl
      exact control (by decide)

theorem not_mem_quoteJson (text : List Char)
    : '\n' ∉ quoteJson text := by
  intro listed
  obtain same | listed := List.mem_cons.mp listed
  · exact absurd same (by decide)
  · obtain inside | last := List.mem_append.mp listed
    · obtain ⟨char, -, listed⟩ := List.mem_flatMap.mp inside
      exact not_mem_escapeJson char listed
    · exact absurd (List.mem_singleton.mp last) (by decide)

theorem readJsonString_escapeJson (char : Char) (rest : List Char)
    : readJsonString (escapeJson char ++ rest)
      = (readJsonString rest).map fun (text, after) => (char :: text, after) := by
  by_cases control : char.toNat < 32
  · refine @control_cases (fun char => readJsonString (escapeJson char ++ rest)
      = (readJsonString rest).map fun (text, after) => (char :: text, after)) ?_ char control
    intro code bound
    interval_cases code <;> rfl
  · unfold escapeJson
    split_ifs with quote backslash
    · subst quote
      rfl
    · subst backslash
      rfl
    · rw [List.singleton_append, readJsonString]
      · exact fun same => quote same
      · rintro _ _ _ _ _ same -
        exact backslash same
      · rintro _ _ same -
        exact backslash same

theorem readJsonString_quoteJson (text rest : List Char)
    : readJsonString (text.flatMap escapeJson ++ '"' :: rest) = some (text, rest) := by
  induction text with
  | nil => rfl
  | cons char text ih =>
      rw [List.flatMap_cons, List.append_assoc, readJsonString_escapeJson, ih]
      rfl

end Dagron.Library
