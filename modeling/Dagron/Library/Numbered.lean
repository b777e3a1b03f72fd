import Mathlib.Data.List.Basic
import Mathlib.Data.List.TakeWhile

/-! Names with a number in them, in decimal digits: the number and what follows it are read back from one.
-/

namespace Dagron.Library

def decimal (number : Nat) : List Char :=
  Nat.toDigits 10 number

@[simp]
theorem decimal_inj {first second : Nat}
    : decimal first = decimal second ↔ first = second := by
  refine ⟨fun same => ?_, congrArg decimal⟩
  have values := congrArg (fun digits => Nat.ofDigitChars 10 digits 0) same
  simpa only [decimal, Nat.ofDigitChars_ten_toDigits] using values

theorem isDigit_of_mem_decimal {number : Nat} {char : Char} (there : char ∈ decimal number)
    : char.isDigit :=
  Nat.isDigit_of_mem_toDigits (by decide) (by decide) there

/-- The name of one of several things, by its number, and a key of it. -/
def numbered (start : String) (number : Nat) (key : List Char) : List Char :=
  start.toList ++ (decimal number ++ '_' :: key)

/-- The words of several things, each named by its number, from 1 on. -/
def numberedAll {Item Value : Type} (start : String) (words : Item → List (List Char × Value))
    (items : List Item)
    : List (List Char × Value) :=
  items.zipIdx.flatMap fun (item, i) =>
    (words item).map fun (key, value) => (numbered start (i + 1) key, value)

end Dagron.Library
