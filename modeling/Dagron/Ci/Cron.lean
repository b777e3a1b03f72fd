import Dagron.Library.Results
import Dagron.Spec.Condition
import Mathlib.Algebra.Group.Nat.Defs

/-! A workflow's cron as it is read: five fields, each of some of a minute's, an hour's, a day's or a month's
numbers. What is read of a field is the set that its text names.
-/

namespace Dagron.Ci
open Dagron.Library Dagron.Spec

-- Fields

def MONTHS : List String :=
  ["JAN", "FEB", "MAR", "APR", "MAY", "JUN", "JUL", "AUG", "SEP", "OCT", "NOV", "DEC"]

def WEEKDAYS : List String :=
  ["SUN", "MON", "TUE", "WED", "THU", "FRI", "SAT"]

/-- A field's least value and its greatest, the names of its values from the least, where it has some,
and what an error calls it.
-/
structure Field where
  low
    : Nat
  high
    : Nat
  names
    : List String
  what
    : String

namespace Field

def minute : Field :=
  ⟨0, 59, [], "minute"⟩

def hour : Field :=
  ⟨0, 23, [], "hour"⟩

def day : Field :=
  ⟨1, 31, [], "day of the month"⟩

def month : Field :=
  ⟨1, 12, MONTHS, "month"⟩

def weekday : Field :=
  ⟨0, 7, WEEKDAYS, "day of the week"⟩

end Field

/-- A number's text without the plus sign that it may begin with. -/
def unsigned : List Char → List Char
  | '+' :: rest => rest
  | text => text

/-- A whole number of 32 bits, as it is written in decimal digits after a plus sign or none. -/
def parseU32 (text : List Char) : Option Nat :=
  let digits := unsigned text
  if digits ≠ [] ∧ digits.all Char.isDigit then
    let value := digits.foldl (fun value digit => 10 * value + (digit.toNat - 48)) 0
    if value < 2 ^ 32 then some value else none
  else none

def eqIgnoreAsciiCase (first second : List Char) : Bool :=
  first.map Char.toLower = second.map Char.toLower

section Reading

variable (debug : List Char → String)

def Field.value (field : Field) (part : List Char) : Except String Nat :=
  match field.names.findIdx? fun name => eqIgnoreAsciiCase name.toList part with
  -- A month's names count from 1, a weekday's from 0.
  | some place => .ok (place + if field.what = "month" then 1 else 0)
  | none =>
      match parseU32 part with
      | none => .error ("its " ++ field.what ++ " " ++ debug part ++ " is not a number")
      | some number =>
          if number < field.low ∨ number > field.high then
            .error ("its " ++ field.what ++ " " ++ toString number ++ " is not between "
              ++ toString field.low ++ " and " ++ toString field.high)
          else .ok number

def Field.step (field : Field) (item : List Char) : Except String (List Char × Nat) :=
  match splitOnce ['/'] item with
  | none => .ok (item, 1)
  | some (range, step) =>
      match (parseU32 step).filter (· > 0) with
      | some step => .ok (range, step)
      | none => .error ("its " ++ field.what ++ " step " ++ debug step ++ " is no step")

/-- The least value of an item's range and its greatest. A number with a step is from it to the field's
end.
-/
def Field.range (field : Field) (stepped : Bool) (range : List Char) : Except String (Nat × Nat) :=
  if range = ['*'] then .ok (field.low, field.high)
  else
    match splitOnce ['-'] range with
    | some (first, last) => do
        let first ← field.value debug first
        let last ← field.value debug last
        if first > last then
          .error ("its " ++ field.what ++ " range " ++ String.ofList range ++ " runs backwards")
        else .ok (first, last)
    | none => do
        let first ← field.value debug range
        .ok (first, if stepped then field.high else first)

/-- The values that an item names: from one to another, at a step. -/
structure Span where
  first
    : Nat
  last
    : Nat
  step
    : Nat

def Field.item (field : Field) (item : List Char) : Except String Span := do
  if item.isEmpty then .error ("its " ++ field.what ++ " has an empty item")
  else
    let (range, step) ← field.step debug item
    let (first, last) ← field.range debug (item.contains '/') range
    .ok ⟨first, last, step⟩

/-- Marks a span's values: each time round the value is greater, so no more are looked at than there are up
to the last.
-/
def mark (last step : Nat) : Nat → Nat → List Bool → List Bool
  | 0, _, set => set
  | rounds + 1, value, set =>
      if value ≤ last then
        let set := set.set value true
        if value + step < 2 ^ 32 then mark last step rounds (value + step) set else set
      else set

def Span.mark (span : Span) (set : List Bool) : List Bool :=
  Ci.mark span.last span.step (span.last + 1) span.first set

def Field.read (field : Field) (text : List Char) (set : List Bool) : Except String (List Bool) :=
  (text.splitOnP (· == ',')).foldlM
    (fun set item => do return (← field.item debug item).mark set) set

-- Crons

/-- A cron that was read. -/
structure Cron where
  minutes
    : List Bool
  hours
    : List Bool
  days
    : List Bool
  months
    : List Bool
  weekdays
    : List Bool
  daysRestricted
    : Bool
  weekdaysRestricted
    : Bool
  deriving DecidableEq

def foldWeekday (set : List Bool) (weekday : Bool × Nat) : List Bool :=
  if weekday.1 then set.set (weekday.2 % 7) true else set

/-- The days of the week, from Sunday on, where Sunday may be the eighth too. -/
def foldWeekdays (weekdays : List Bool) : List Bool :=
  weekdays.zipIdx.foldl foldWeekday (List.replicate 7 false)

def Cron.parse (text : List Char) : Except String Cron :=
  match splitWhitespace text with
  | [minute, hour, day, month, weekday] => do
      let daysRestricted := day.head? ≠ some '*'
      let weekdaysRestricted := weekday.head? ≠ some '*'
      let minutes ← Field.minute.read debug minute (List.replicate 60 false)
      let hours ← Field.hour.read debug hour (List.replicate 24 false)
      let days ← Field.day.read debug day (List.replicate 32 false)
      let months ← Field.month.read debug month (List.replicate 13 false)
      let weekdays ← Field.weekday.read debug weekday (List.replicate 8 false)
      .ok ⟨minutes, hours, days, months, foldWeekdays weekdays, daysRestricted, weekdaysRestricted⟩
  | fields => .error ("has " ++ toString fields.length ++ " fields, and a cron has five: minute, hour, "
      ++ "day of the month, month, day of the week")

-- What a field's text names

/-- A part is a value by its name, or as a number of the field's. -/
def Field.IsValue (field : Field) (part : List Char) (value : Nat) : Prop :=
  (∃ place name, field.names[place]? = some name ∧ eqIgnoreAsciiCase name.toList part
      ∧ value = field.low + place)
    ∨ (parseU32 part = some value ∧ field.low ≤ value ∧ value ≤ field.high)

/-- A range: every value, or those from one to another. -/
inductive Field.IsRange (field : Field) : List Char → Nat → Nat → Prop where
  | every : IsRange field ['*'] field.low field.high
  | between {first last : List Char} {low high : Nat} (is_low : field.IsValue first low)
      (is_high : field.IsValue last high) (order : low ≤ high)
      : IsRange field (first ++ '-' :: last) low high

/-- An item: a value, a range, or either with a step, which a value makes a range to the field's end. -/
inductive Field.IsItem (field : Field) : List Char → Span → Prop where
  | value {part : List Char} {value : Nat} (is_value : field.IsValue part value)
      : IsItem field part ⟨value, value, 1⟩
  | range {range : List Char} {low high : Nat} (is_range : field.IsRange range low high)
      : IsItem field range ⟨low, high, 1⟩
  | valueStep {part text : List Char} {value step : Nat} (is_value : field.IsValue part value)
      (is_step : parseU32 text = some step) (some_ : 0 < step)
      : IsItem field (part ++ '/' :: text) ⟨value, field.high, step⟩
  | rangeStep {range text : List Char} {low high step : Nat} (is_range : field.IsRange range low high)
      (is_step : parseU32 text = some step) (some_ : 0 < step)
      : IsItem field (range ++ '/' :: text) ⟨low, high, step⟩

/-- The values of a span: from its first on at its step. -/
def Span.Has (span : Span) (value : Nat) : Prop :=
  span.first ≤ value ∧ value ≤ span.last ∧ span.step ∣ value - span.first

def Field.Has (field : Field) (text : List Char) (value : Nat) : Prop :=
  ∃ item ∈ text.splitOnP (· == ','), ∃ span, field.IsItem item span ∧ span.Has value

/-- What the names of a field are like: in lower case they differ, are of letters, and are as many as its
values at most, which are counted as the code does.
-/
structure Field.Named (field : Field) : Prop where
  differ
    : (field.names.map fun name => name.toList.map Char.toLower).Nodup
  letters
    : ∀ name ∈ field.names, name ≠ "" ∧ ∀ char ∈ name.toList, char.toLower.isLower
  counted
    : field.names ≠ [] → field.low = if field.what = "month" then 1 else 0
  bounded
    : field.names.length ≤ field.high + 1 - field.low
  small
    : field.high < 2 ^ 32
  some_
    : field.low ≤ field.high

theorem fields_named {field : Field}
    (is_ : field ∈ [Field.minute, Field.hour, Field.day, Field.month, Field.weekday])
    : field.Named := by
  simp only [List.mem_cons, List.not_mem_nil, or_false] at is_
  have letters (names : List String)
      (each : names.all fun name => name ≠ "" ∧ name.toList.all fun char => char.toLower.isLower)
      : ∀ name ∈ names, name ≠ "" ∧ ∀ char ∈ name.toList, char.toLower.isLower := by
    simpa using each
  obtain rfl | rfl | rfl | rfl | rfl := is_ <;>
    exact ⟨by decide, letters _ (by decide), by decide, by decide, by decide, by decide⟩

theorem unsigned_cases (text : List Char)
    : text = unsigned text ∨ text = '+' :: unsigned text := by
  unfold unsigned
  split
  · exact .inr rfl
  · exact .inl rfl

theorem parseU32_chars {text : List Char} {value : Nat} (read : parseU32 text = some value)
    : text ≠ [] ∧ ∀ char ∈ text, char = '+' ∨ char.isDigit := by
  unfold parseU32 at read
  dsimp only at read
  split at read
  case isFalse => cases read
  case isTrue digits =>
    obtain ⟨some_, digits⟩ := digits
    rw [List.all_eq_true] at digits
    obtain same | signed := unsigned_cases text
    · rw [same]
      exact ⟨some_, fun char there => .inr (digits char there)⟩
    · rw [signed]
      refine ⟨List.cons_ne_nil _ _, fun char there => ?_⟩
      exact (List.mem_cons.mp there).imp_right (digits char)

theorem not_lower {char : Char} (digit : char = '+' ∨ char.isDigit)
    : ¬ char.toLower.isLower := by
  obtain rfl | digit := digit
  · decide
  · have all : ∀ code < 58, 48 ≤ code → ¬ (Char.ofNat code).toLower.isLower := by decide
    obtain ⟨least, greatest⟩ := Char.isDigit_iff_toNat.mp digit
    rw [← Char.ofNat_toNat char]
    exact all char.toNat (Nat.lt_succ_of_le greatest) least

namespace Field

variable {field : Field} {debug : List Char → String}

theorem letters_of_name (named : field.Named) {place : Nat} {name : String} {part : List Char}
    (there : field.names[place]? = some name) (alike : eqIgnoreAsciiCase name.toList part)
    : part ≠ [] ∧ ∀ char ∈ part, char.toLower.isLower := by
  obtain ⟨some_, letters⟩ := named.letters name (List.mem_of_getElem? there)
  have same : name.toList.map Char.toLower = part.map Char.toLower := of_decide_eq_true alike
  constructor
  · rintro rfl
    rw [List.map_nil, List.map_eq_nil_iff, String.toList_eq_nil_iff] at same
    exact some_ same
  · intro char within
    have lowered : char.toLower ∈ name.toList.map Char.toLower := same ▸ List.mem_map_of_mem within
    obtain ⟨other, within', same'⟩ := List.mem_map.mp lowered
    exact same' ▸ letters other within'

theorem not_name_of_number (named : field.Named) {place value : Nat} {name : String} {part : List Char}
    (there : field.names[place]? = some name) (alike : eqIgnoreAsciiCase name.toList part)
    : parseU32 part ≠ some value := by
  intro read
  obtain ⟨some_, letters⟩ := letters_of_name named there alike
  obtain ⟨char, rest, rfl⟩ := List.exists_cons_of_ne_nil some_
  have digit := (parseU32_chars read).2 char List.mem_cons_self
  exact not_lower digit (letters char List.mem_cons_self)

theorem place_eq (named : field.Named) {place place' : Nat} {name name' : String} {part : List Char}
    (there : field.names[place]? = some name) (alike : eqIgnoreAsciiCase name.toList part)
    (there' : field.names[place']? = some name') (alike' : eqIgnoreAsciiCase name'.toList part)
    : place = place' := by
  have lowered {place : Nat} {name : String} (there : field.names[place]? = some name)
      (alike : eqIgnoreAsciiCase name.toList part)
      : (field.names.map fun name => name.toList.map Char.toLower)[place]? = some (part.map Char.toLower) := by
    rw [List.getElem?_map, there]
    exact congrArg some (of_decide_eq_true alike)
  have short := (List.getElem?_eq_some_iff.mp (lowered there alike)).1
  exact (List.getElem?_inj short named.differ).mp ((lowered there alike).trans (lowered there' alike').symm)

theorem value_eq_ok (named : field.Named) {part : List Char} {value : Nat}
    : field.value debug part = .ok value ↔ field.IsValue part value := by
  unfold Field.value IsValue
  cases found : field.names.findIdx? fun name => eqIgnoreAsciiCase name.toList part with
  | some place =>
      obtain ⟨short, alike, -⟩ := List.findIdx?_eq_some_iff_getElem.mp found
      have there := List.getElem?_eq_getElem short
      have counted := named.counted (List.ne_nil_of_length_pos (Nat.zero_lt_of_lt short))
      constructor
      · intro read
        obtain rfl := Except.ok.inj read
        exact .inl ⟨place, _, there, alike, by rw [counted, Nat.add_comm]⟩
      · rintro (⟨place', name', there', alike', rfl⟩ | ⟨read, -⟩)
        · rw [place_eq named there' alike' there alike, counted, Nat.add_comm]
        · exact absurd read (not_name_of_number named there alike)
  | none =>
      have unnamed : ¬ ∃ place name, field.names[place]? = some name
          ∧ eqIgnoreAsciiCase name.toList part ∧ value = field.low + place := by
        rintro ⟨place, name, there, alike, -⟩
        have absent := List.findIdx?_eq_none_iff.mp found name (List.mem_of_getElem? there)
        rw [alike] at absent
        cases absent
      rw [or_iff_right unnamed]
      cases parseU32 part with
      | none => simp
      | some number =>
          simp only [Option.some.injEq]
          split
          next beyond =>
            constructor
            · intro read
              cases read
            · rintro ⟨rfl, within⟩
              omega
          next within =>
            rw [Except.ok.injEq]
            constructor
            · rintro rfl
              omega
            · exact And.left

theorem IsValue.within (named : field.Named) {part : List Char} {value : Nat}
    (is_value : field.IsValue part value)
    : field.low ≤ value ∧ value ≤ field.high := by
  obtain ⟨place, name, there, -, rfl⟩ | ⟨-, within⟩ := is_value
  · have short := (List.getElem?_eq_some_iff.mp there).1
    have bounded := named.bounded
    omega
  · exact within

theorem IsValue.plain (named : field.Named) {part : List Char} {value : Nat}
    (is_value : field.IsValue part value)
    : ∀ char ∈ ['-', '/', '*'], char ∉ part := by
  obtain ⟨place, name, there, alike, -⟩ | ⟨read, -⟩ := is_value
  · obtain ⟨-, letters⟩ := letters_of_name named there alike
    intro char is_ within
    have lower := letters char within
    simp only [List.mem_cons, List.not_mem_nil, or_false] at is_
    obtain rfl | rfl | rfl := is_ <;> exact absurd lower (by decide)
  · obtain ⟨-, digits⟩ := parseU32_chars read
    intro char is_ within
    have digit := digits char within
    simp only [List.mem_cons, List.not_mem_nil, or_false] at is_
    obtain rfl | rfl | rfl := is_ <;> exact absurd digit (by decide)

theorem IsValue.ne_nil (named : field.Named) {part : List Char} {value : Nat}
    (is_value : field.IsValue part value)
    : part ≠ [] := by
  obtain ⟨place, name, there, alike, -⟩ | ⟨read, -⟩ := is_value
  · exact (letters_of_name named there alike).1
  · exact (parseU32_chars read).1

theorem isRange_iff {range : List Char} {low high : Nat}
    : field.IsRange range low high
      ↔ (range = ['*'] ∧ field.low = low ∧ field.high = high)
        ∨ ∃ first last, range = first ++ '-' :: last ∧ field.IsValue first low ∧ field.IsValue last high
          ∧ low ≤ high := by
  constructor
  · intro is_range
    cases is_range with
    | every => exact .inl ⟨rfl, rfl, rfl⟩
    | between is_low is_high order => exact .inr ⟨_, _, rfl, is_low, is_high, order⟩
  · rintro (⟨rfl, rfl, rfl⟩ | ⟨first, last, rfl, is_low, is_high, order⟩)
    · exact .every
    · exact .between is_low is_high order

theorem range_eq_ok (named : field.Named) {stepped : Bool} {range : List Char} {low high : Nat}
    : field.range debug stepped range = .ok (low, high)
      ↔ field.IsRange range low high
        ∨ field.IsValue range low ∧ (if stepped then field.high else low) = high := by
  rw [isRange_iff, Field.range]
  split
  next every =>
    obtain rfl := every
    have undivided (first last : List Char) : ['*'] ≠ first ++ '-' :: last := fun same =>
      absurd (same ▸ List.mem_append_right _ List.mem_cons_self : '-' ∈ ['*']) (by decide)
    have unvalued : ¬ field.IsValue ['*'] low := fun is_value =>
      is_value.plain named '*' (by decide) (by decide)
    simp [undivided, unvalued]
  next some_ =>
    by_cases divided : '-' ∈ range
    · obtain ⟨first, last, rfl, plain⟩ := List.eq_append_cons_of_mem divided
      have unvalued : ¬ field.IsValue (first ++ '-' :: last) low := fun is_value =>
        is_value.plain named '-' (by decide) divided
      rw [splitOnce_char plain, or_iff_left (fun whole => unvalued whole.1),
        or_iff_right (fun whole => some_ whole.1)]
      simp only [bind_eq_ok_iff, value_eq_ok named]
      constructor
      · rintro ⟨low', is_low, high', is_high, ok⟩
        split at ok
        next => cases ok
        next order =>
          obtain ⟨rfl, rfl⟩ := Prod.mk.inj (Except.ok.inj ok)
          exact ⟨first, last, rfl, is_low, is_high, Nat.le_of_not_lt order⟩
      · rintro ⟨first', last', same, is_low, is_high, order⟩
        have found := splitOnce_char (is_low.plain named '-' (by decide)) last'
        rw [← same, splitOnce_char plain] at found
        obtain ⟨rfl, rfl⟩ := Prod.mk.inj (Option.some.inj found)
        exact ⟨low, is_low, high, is_high, if_neg (Nat.not_lt_of_le order)⟩
    · have undivided : ¬ ∃ first last, range = first ++ '-' :: last ∧ field.IsValue first low
          ∧ field.IsValue last high ∧ low ≤ high := by
        rintro ⟨first, last, rfl, -⟩
        exact divided (List.mem_append_right _ List.mem_cons_self)
      rw [splitOnce_none divided, or_iff_right (fun whole => whole.elim (some_ ·.1) undivided)]
      simp only [bind_eq_ok_iff, value_eq_ok named, Except.ok.injEq, Prod.mk.injEq]
      constructor
      · rintro ⟨low', is_value, rfl, same⟩
        exact ⟨is_value, same⟩
      · rintro ⟨is_value, same⟩
        exact ⟨low, is_value, rfl, same⟩

theorem IsRange.plain (named : field.Named) {range : List Char} {low high : Nat}
    (is_range : field.IsRange range low high)
    : '/' ∉ range ∧ range ≠ [] := by
  cases is_range with
  | every => decide
  | between is_low is_high =>
      refine ⟨fun there => ?_, by simp⟩
      obtain before | there := List.mem_append.mp there
      · exact is_low.plain named '/' (by decide) before
      · obtain same | after := List.mem_cons.mp there
        · exact absurd same (by decide)
        · exact is_high.plain named '/' (by decide) after

theorem isItem_iff {item : List Char} {first last step : Nat}
    : field.IsItem item ⟨first, last, step⟩
      ↔ (step = 1 ∧ (field.IsRange item first last ∨ field.IsValue item first ∧ first = last))
        ∨ ∃ range text, item = range ++ '/' :: text ∧ parseU32 text = some step ∧ 0 < step
          ∧ (field.IsRange range first last ∨ field.IsValue range first ∧ field.high = last) := by
  constructor
  · intro is_item
    cases is_item with
    | value is_value => exact .inl ⟨rfl, .inr ⟨is_value, rfl⟩⟩
    | range is_range => exact .inl ⟨rfl, .inl is_range⟩
    | valueStep is_value is_step some_ => exact .inr ⟨_, _, rfl, is_step, some_, .inr ⟨is_value, rfl⟩⟩
    | rangeStep is_range is_step some_ => exact .inr ⟨_, _, rfl, is_step, some_, .inl is_range⟩
  · rintro (⟨rfl, is_range | ⟨is_value, rfl⟩⟩
      | ⟨range, text, rfl, is_step, some_, is_range | ⟨is_value, rfl⟩⟩)
    · exact .range is_range
    · exact .value is_value
    · exact .rangeStep is_range is_step some_
    · exact .valueStep is_value is_step some_

theorem range_plain (named : field.Named) {range : List Char} {low high last : Nat}
    (is_ : field.IsRange range low high ∨ field.IsValue range low ∧ last = high)
    : '/' ∉ range ∧ range ≠ [] := by
  obtain is_range | ⟨is_value, -⟩ := is_
  · exact is_range.plain named
  · exact ⟨is_value.plain named '/' (by decide), is_value.ne_nil named⟩

theorem item_eq_ok (named : field.Named) {item : List Char} {first last step : Nat}
    : field.item debug item = .ok ⟨first, last, step⟩ ↔ field.IsItem item ⟨first, last, step⟩ := by
  rw [isItem_iff, Field.item]
  split
  next empty =>
    obtain rfl := List.isEmpty_iff.mp empty
    constructor
    · intro ok
      cases ok
    · rintro (⟨-, is_⟩ | ⟨range, text, same, -⟩)
      · exact absurd rfl (range_plain named is_).2
      · exact absurd same (by simp)
  by_cases divided : '/' ∈ item
  · have contains : item.contains '/' = true := by simpa using divided
    obtain ⟨range, text, rfl, plain⟩ := List.eq_append_cons_of_mem divided
    have whole : ¬ (step = 1 ∧ (field.IsRange (range ++ '/' :: text) first last
        ∨ field.IsValue (range ++ '/' :: text) first ∧ first = last)) := fun is_ =>
      (range_plain named is_.2).1 divided
    rw [Field.step, splitOnce_char plain, or_iff_right whole, contains]
    simp only [bind_eq_ok_iff]
    constructor
    · rintro ⟨⟨range', step'⟩, stepped, ⟨low, high⟩, ranged, ok⟩
      split at stepped
      next value found =>
        obtain ⟨rfl, rfl⟩ := Prod.mk.inj (Except.ok.inj stepped)
        obtain ⟨rfl, rfl, rfl⟩ := Span.mk.inj (Except.ok.inj ok)
        obtain ⟨is_step, some_⟩ := Option.filter_eq_some_iff.mp found
        exact ⟨range, text, rfl, is_step, by simpa using some_, (range_eq_ok named).mp ranged⟩
      next => cases stepped
    · rintro ⟨range', text', same, is_step, some_, is_⟩
      have found := splitOnce_char (range_plain named is_).1 text'
      rw [← same, splitOnce_char plain] at found
      obtain ⟨rfl, rfl⟩ := Prod.mk.inj (Option.some.inj found)
      refine ⟨(range, step), ?_, (first, last), (range_eq_ok named).mpr is_, rfl⟩
      rw [is_step, Option.filter_some, if_pos (by simpa using some_)]
  · have contains : item.contains '/' = false := by simpa using divided
    have whole : ¬ ∃ range text, item = range ++ '/' :: text ∧ parseU32 text = some step ∧ 0 < step
        ∧ (field.IsRange range first last ∨ field.IsValue range first ∧ field.high = last) := by
      rintro ⟨range, text, rfl, -⟩
      exact divided (List.mem_append_right _ List.mem_cons_self)
    rw [Field.step, splitOnce_none divided, or_iff_left whole, contains, ok_bind]
    simp only [bind_eq_ok_iff]
    constructor
    · rintro ⟨⟨low, high⟩, ranged, ok⟩
      obtain ⟨rfl, rfl, rfl⟩ := Span.mk.inj (Except.ok.inj ok)
      exact ⟨rfl, by simpa using (range_eq_ok named).mp ranged⟩
    · rintro ⟨rfl, is_⟩
      exact ⟨(first, last), (range_eq_ok named).mpr (by simpa using is_), rfl⟩

-- What is marked

theorem IsItem.within (named : field.Named) {item : List Char} {span : Span}
    (is_item : field.IsItem item span)
    : field.low ≤ span.first ∧ span.first ≤ span.last ∧ span.last ≤ field.high ∧ 0 < span.step := by
  have ranged {range : List Char} {low high : Nat} (is_range : field.IsRange range low high)
      : field.low ≤ low ∧ low ≤ high ∧ high ≤ field.high := by
    cases is_range with
    | every => exact ⟨Nat.le_refl _, named.some_, Nat.le_refl _⟩
    | between is_low is_high order => exact ⟨(is_low.within named).1, order, (is_high.within named).2⟩
  cases is_item with
  | value is_value =>
      have within := is_value.within named
      exact ⟨within.1, Nat.le_refl _, within.2, Nat.one_pos⟩
  | range is_range =>
      obtain ⟨low, order, high⟩ := ranged is_range
      exact ⟨low, order, high, Nat.one_pos⟩
  | valueStep is_value is_step some_ =>
      have within := is_value.within named
      exact ⟨within.1, within.2, Nat.le_refl _, some_⟩
  | rangeStep is_range is_step some_ =>
      obtain ⟨low, order, high⟩ := ranged is_range
      exact ⟨low, order, high, some_⟩

end Field

theorem length_mark (last step rounds value : Nat) (set : List Bool)
    : (mark last step rounds value set).length = set.length := by
  induction rounds generalizing value set with
  | zero => rfl
  | succ rounds ih =>
      rw [mark]
      split
      · dsimp only
        split
        · rw [ih, List.length_set]
        · exact List.length_set
      · rfl

theorem Span.Has.order {first last step value : Nat} (has : Span.Has ⟨first, last, step⟩ value)
    : first ≤ last :=
  Nat.le_trans has.1 has.2.1

theorem span_iff {first last step value : Nat}
    : Span.Has ⟨first, last, step⟩ value
      ↔ first ≤ last ∧ (value = first ∨ Span.Has ⟨first + step, last, step⟩ value) := by
  unfold Span.Has
  dsimp only
  constructor
  · rintro ⟨since, till, turns, counted⟩
    refine ⟨Nat.le_trans since till, ?_⟩
    cases turns with
    | zero => exact .inl (by omega)
    | succ turns =>
        rw [Nat.mul_succ] at counted
        exact .inr ⟨by omega, till, turns, by omega⟩
  · rintro ⟨order, rfl | ⟨since, till, turns, counted⟩⟩
    · exact ⟨Nat.le_refl _, order, by rw [Nat.sub_self]; exact Nat.dvd_zero _⟩
    · exact ⟨by omega, till, turns + 1, by rw [Nat.mul_succ]; omega⟩

theorem getD_set {set : List Bool} {place other : Nat} (short : place < set.length)
    : (set.set place true).getD other false ↔ other = place ∨ set.getD other false := by
  rw [List.getD_eq_getElem?_getD, List.getD_eq_getElem?_getD, List.getElem?_set]
  split
  next same =>
    obtain rfl := same
    simp [short]
  next differ => simp [Ne.symm differ]

theorem getD_mark {last step rounds value other : Nat} {set : List Bool} (some_ : 0 < step)
    (short : last < set.length) (small : last < 2 ^ 32) (enough : last < value + rounds)
    : (mark last step rounds value set).getD other false
      ↔ set.getD other false ∨ Span.Has ⟨value, last, step⟩ other := by
  induction rounds generalizing value set with
  | zero =>
      have none_ : ¬ Span.Has ⟨value, last, step⟩ other := fun has => by
        have order := has.order
        omega
      rw [or_iff_left none_, mark]
  | succ rounds ih =>
      rw [mark, span_iff]
      split
      next more =>
        have marked := @getD_set set value other (by omega)
        rw [and_iff_right more]
        dsimp only
        split
        next =>
          rw [ih (by rwa [List.length_set]) (by omega), marked]
          tauto
        next past =>
          have none_ : ¬ Span.Has ⟨value + step, last, step⟩ other := fun has => by
            have order := has.order
            omega
          rw [marked, or_iff_left none_, or_comm]
      next past => rw [or_iff_left fun has => past has.1]

namespace Field

variable {field : Field} {debug : List Char → String}

theorem read_spec (named : field.Named) {text : List Char} {set set' : List Bool}
    (long : set.length = field.high + 1) (read : field.read debug text set = .ok set')
    : (∀ value, set'.getD value false ↔ set.getD value false ∨ field.Has text value)
      ∧ ∀ item ∈ text.splitOnP (· == ','), ∃ span, field.IsItem item span := by
  unfold Field.read at read
  unfold Field.Has
  generalize text.splitOnP (· == ',') = items at read ⊢
  induction items generalizing set with
  | nil =>
      obtain rfl := Except.ok.inj read
      simp
  | cons item items ih =>
      rw [List.foldlM_cons] at read
      obtain ⟨middle, first, read⟩ := exists_of_bind_eq_ok read
      obtain ⟨⟨start, last, step⟩, made, marked⟩ := exists_of_bind_eq_ok first
      obtain rfl := Except.ok.inj marked
      have is_item := (item_eq_ok named).mp made
      obtain ⟨_, order, high, some_⟩ := is_item.within named
      have small := named.small
      dsimp only at order high some_
      have long' : ((⟨start, last, step⟩ : Span).mark set).length = field.high + 1 := by
        rw [Span.mark, length_mark, long]
      obtain ⟨rest, items_⟩ := ih long' read
      refine ⟨fun value => ?_, fun other there => ?_⟩
      · have here := @getD_mark last step (last + 1) start value set some_ (by omega) (by omega) (by omega)
        have only (span : Span) : field.IsItem item span ↔ span = ⟨start, last, step⟩ := by
          constructor
          · intro is_item'
            exact Except.ok.inj (((item_eq_ok named).mpr is_item').symm.trans made)
          · rintro rfl
            exact is_item
        rw [rest, Span.mark, here]
        simp only [List.mem_cons, exists_eq_or_imp, only, exists_eq_left]
        exact or_assoc
      · obtain rfl | there := List.mem_cons.mp there
        · exact ⟨_, is_item⟩
        · exact items_ other there

theorem exists_of_read (named : field.Named) {text : List Char} {set set' : List Bool}
    (long : set.length = field.high + 1) (read : field.read debug text set = .ok set')
    : ∃ value, field.Has text value := by
  obtain ⟨-, items⟩ := read_spec named long read
  obtain ⟨item, rest, split⟩ := List.exists_cons_of_ne_nil (List.splitOnP_ne_nil (· == ',') text)
  have there : item ∈ text.splitOnP (· == ',') := split ▸ List.mem_cons_self
  obtain ⟨span, is_item⟩ := items item there
  obtain ⟨-, order, -⟩ := is_item.within named
  exact ⟨span.first, item, there, span, is_item, Nat.le_refl _, order, by simp⟩

theorem Has.within (named : field.Named) {text : List Char} {value : Nat} (has : field.Has text value)
    : field.low ≤ value ∧ value ≤ field.high := by
  obtain ⟨item, -, span, is_item, since, till, -⟩ := has
  obtain ⟨low, -, high, -⟩ := is_item.within named
  exact ⟨Nat.le_trans low since, Nat.le_trans till high⟩

end Field

theorem getD_replicate (count place : Nat)
    : (List.replicate count false).getD place false = false := by
  rw [List.getD_eq_getElem?_getD, List.getElem?_replicate]
  split <;> rfl

theorem getD_foldWeekdays {weekdays : List Bool} {day : Nat}
    : (foldWeekdays weekdays).getD day false
      ↔ ∃ value, weekdays.getD value false ∧ value % 7 = day := by
  have all (first : Nat) (set : List Bool) (long : set.length = 7)
      : ((weekdays.zipIdx first).foldl foldWeekday set).getD day false
        ↔ set.getD day false ∨ ∃ value, weekdays.getD value false ∧ (first + value) % 7 = day := by
    induction weekdays generalizing first set with
    | nil => simp
    | cons on rest ih =>
        rw [List.zipIdx_cons, List.foldl_cons]
        have later : (∃ value, (on :: rest).getD value false ∧ (first + value) % 7 = day)
            ↔ (on ∧ first % 7 = day)
              ∨ ∃ value, rest.getD value false ∧ (first + 1 + value) % 7 = day := by
          constructor
          · rintro ⟨value, marked, same⟩
            cases value with
            | zero => exact .inl ⟨marked, same⟩
            | succ value => exact .inr ⟨value, marked, by rw [← same, Nat.add_right_comm]; rfl⟩
          · rintro (⟨marked, same⟩ | ⟨value, marked, same⟩)
            · exact ⟨0, marked, same⟩
            · exact ⟨value + 1, marked, by rw [← same, Nat.add_right_comm]; rfl⟩
        rw [later]
        cases on with
        | false =>
            rw [foldWeekday, if_neg Bool.false_ne_true, ih (first + 1) set long]
            simp
        | true =>
            have marked := @getD_set set (first % 7) day (by omega)
            rw [foldWeekday, if_pos rfl, ih (first + 1) _ (by rwa [List.length_set]), marked]
            simp only [true_and, @eq_comm _ day]
            exact or_assoc.trans or_left_comm
  rw [foldWeekdays, all 0 _ List.length_replicate, getD_replicate]
  simp

-- What a cron's text says

/-- The five fields of a cron's text. -/
structure Line where
  minute
    : List Char
  hour
    : List Char
  day
    : List Char
  month
    : List Char
  weekday
    : List Char

/-- A day field that begins with a star restricts nothing. -/
def Restricted (text : List Char) : Prop :=
  text.head? ≠ some '*'

instance : DecidablePred Restricted := fun text => by
  unfold Restricted
  infer_instance

namespace Line

def of (text : List Char) : Line :=
  let fields := splitWhitespace text
  ⟨fields.getD 0 [], fields.getD 1 [], fields.getD 2 [], fields.getD 3 [], fields.getD 4 []⟩

/-- The days of the week that a line names: Sunday is 0 or 7. -/
def HasWeekday (line : Line) (day : Nat) : Prop :=
  ∃ value, Field.weekday.Has line.weekday value ∧ value % 7 = day

end Line

/-- What is read of a line is what it names, and each of its fields names something. -/
structure Cron.Reads (cron : Cron) (line : Line) : Prop where
  minutes
    : ∀ value, cron.minutes.getD value false ↔ Field.minute.Has line.minute value
  hours
    : ∀ value, cron.hours.getD value false ↔ Field.hour.Has line.hour value
  days
    : ∀ value, cron.days.getD value false ↔ Field.day.Has line.day value
  months
    : ∀ value, cron.months.getD value false ↔ Field.month.Has line.month value
  weekdays
    : ∀ value, cron.weekdays.getD value false ↔ line.HasWeekday value
  daysRestricted
    : cron.daysRestricted ↔ Restricted line.day
  weekdaysRestricted
    : cron.weekdaysRestricted ↔ Restricted line.weekday
  some_
    : (∃ value, Field.minute.Has line.minute value) ∧ (∃ value, Field.hour.Has line.hour value)
      ∧ (∃ value, Field.month.Has line.month value) ∧ ∃ value, Field.weekday.Has line.weekday value

theorem parse_spec {debug : List Char → String} {text : List Char} {cron : Cron}
    (ok : Cron.parse debug text = .ok cron)
    : cron.Reads (Line.of text) := by
  unfold Cron.parse at ok
  split at ok
  next minute hour day month weekday fields =>
    have line : Line.of text = ⟨minute, hour, day, month, weekday⟩ := by
      rw [Line.of, fields]
      rfl
    rw [line]
    obtain ⟨minutes, minutes_, ok⟩ := exists_of_bind_eq_ok ok
    obtain ⟨hours, hours_, ok⟩ := exists_of_bind_eq_ok ok
    obtain ⟨days, days_, ok⟩ := exists_of_bind_eq_ok ok
    obtain ⟨months, months_, ok⟩ := exists_of_bind_eq_ok ok
    obtain ⟨weekdays, weekdays_, ok⟩ := exists_of_bind_eq_ok ok
    obtain rfl := Except.ok.inj ok
    have named_ : ∀ field ∈ [Field.minute, Field.hour, Field.day, Field.month, Field.weekday],
        field.Named := fun _ => fields_named
    have each {field : Field} {text : List Char} {set : List Bool} (named : field.Named)
        (read : field.read debug text (List.replicate (field.high + 1) false) = .ok set) (value : Nat)
        : set.getD value false ↔ field.Has text value := by
      have marked := (Field.read_spec named List.length_replicate read).1 value
      rwa [getD_replicate, or_iff_right Bool.false_ne_true] at marked
    constructor
    · exact each (named_ _ (by simp)) minutes_
    · exact each (named_ _ (by simp)) hours_
    · exact each (named_ _ (by simp)) days_
    · exact each (named_ _ (by simp)) months_
    · intro value
      rw [getD_foldWeekdays]
      exact exists_congr fun other => and_congr_left' (each (named_ _ (by simp)) weekdays_ other)
    · exact decide_eq_true_iff
    · exact decide_eq_true_iff
    · exact ⟨Field.exists_of_read (named_ _ (by simp)) List.length_replicate minutes_,
        Field.exists_of_read (named_ _ (by simp)) List.length_replicate hours_,
        Field.exists_of_read (named_ _ (by simp)) List.length_replicate months_,
        Field.exists_of_read (named_ _ (by simp)) List.length_replicate weekdays_⟩
  next => cases ok

end Reading

end Dagron.Ci
