import Dagron.Spec.Condition
import Mathlib.Algebra.Group.Nat.Defs

/-! Durations: a count of seconds, minutes, hours or days. -/

namespace Dagron.Spec

def parseU64 (text : List Char) : Option Nat :=
  let digits := if text.head? = some '+' then text.tail else text
  let number := digits.foldl (fun number digit => number * 10 + (digit.toNat - '0'.toNat)) 0
  if digits ≠ [] ∧ digits.all Char.isDigit ∧ number < 2 ^ 64 then some number else none

def durationParts (text : List Char) : List Char × Nat :=
  match text.getLast? with
  | some 's' => (text.dropLast, 1)
  | some 'm' => (text.dropLast, 60)
  | some 'h' => (text.dropLast, 3600)
  | some 'd' => (text.dropLast, 86400)
  | _ => (text, 1)

def parseDurationSecs (duration : String) : Except String Nat :=
  let text := trim duration.toList
  let (count, unit) := durationParts text
  if text = [] then .error "empty duration"
  else
    match parseU64 (trim count) with
    | none => .error ("invalid duration '" ++ String.ofList text
        ++ "' (use e.g. 45m, 2h, 90s, or seconds)")
    | some 0 => .error ("duration '" ++ String.ofList text ++ "' must be greater than zero")
    | some number =>
        if number * unit < 2 ^ 64 then .ok (number * unit)
        else .error ("duration '" ++ String.ofList text ++ "' is too large")

theorem parseDurationSecs_ok {duration : String} {secs : Nat} (ok : parseDurationSecs duration = .ok secs)
    : ∃ number, parseU64 (trim (durationParts (trim duration.toList)).1) = some number
        ∧ secs = number * (durationParts (trim duration.toList)).2 ∧ secs < 2 ^ 64 := by
  unfold parseDurationSecs at ok
  dsimp only at ok
  split at ok
  · cases ok
  split at ok
  · cases ok
  · cases ok
  case h_3 number _ read =>
    split at ok
    case isTrue within =>
      cases ok
      exact ⟨number, read, rfl, within⟩
    case isFalse => cases ok

example : (parseDurationSecs " 45m").toOption = some 2700 := by decide

end Dagron.Spec
