import Mathlib.Data.Prod.Lex
import Mathlib.Data.List.Basic
import Dagron.Spec.Condition

/-! Where a task's log is kept: the names of its closed segments and of the part still being
written, what a reader assembles of them one object at a time, and what a removal takes.
-/

namespace Dagron.Artifact

open Dagron.Spec

-- Names

/-- Which writing of which attempt of a task's log: its fence, and its generation. -/
structure Writing where
  fence
    : Nat
  gen
    : Nat
  deriving DecidableEq

/-- Writings are ordered as they are begun: by attempt, and within one by writing. -/
def Writing.before (first second : Writing) : Bool :=
  first.fence < second.fence || first.fence == second.fence && first.gen < second.gen

def safe (task : List Char) : List Char :=
  task.map fun char => if char.isAlphanum || char == '-' || char == '_' then char else '_'

def decimal (number : Nat) : List Char :=
  Nat.toDigits 10 number

def Writing.name (writing : Writing) : List Char :=
  if writing.gen = 0 then decimal writing.fence
  else decimal writing.fence ++ '.' :: decimal writing.gen

def sequence (seq : Nat) : List Char :=
  List.replicate (6 - (decimal seq).length) '0' ++ decimal seq

/-- An object of the store, by the parts of its path: the task, the writing and the file. -/
structure ObjectName where
  task
    : List Char
  writing
    : List Char
  file
    : List Char
  deriving DecidableEq

/-- A task attempt's log, and which writing of it. -/
structure LogKey where
  task
    : List Char
  writing
    : Writing
  deriving DecidableEq

def LogKey.segment (key : LogKey) (seq : Nat) : ObjectName where
  task := safe key.task
  writing := key.writing.name
  file := sequence seq ++ ".seg.zst".toList

def LogKey.openPart (key : LogKey) (seq : Nat) : ObjectName where
  task := safe key.task
  writing := key.writing.name
  file := sequence seq ++ ".open".toList

def number (part : List Char) : Option Nat :=
  if part.isEmpty || 18 < part.length || !part.all Char.isDigit then none
  else some (Nat.ofDigitChars 10 part 0)

def parseWriting (name : List Char) : Option Writing :=
  match splitOnce ['.'] name with
  | none => (number name).map fun fence => ⟨fence, 0⟩
  | some (fence, gen) =>
      (number fence).bind fun fence => (number gen).map fun gen => ⟨fence, gen⟩

section Names

theorem decimal_injective
    : Function.Injective decimal := by
  intro first second same
  have value := congrArg (fun digits => Nat.ofDigitChars 10 digits 0) same
  simpa [decimal] using value

theorem sequence_injective
    : Function.Injective sequence := by
  intro first second same
  have value := congrArg (fun digits => Nat.ofDigitChars 10 digits 0) same
  simpa [sequence, decimal, Nat.ofDigitChars_append] using value

theorem digit_of_mem_decimal {char : Char} {value : Nat} (listed : char ∈ decimal value)
    : char.isDigit :=
  Nat.isDigit_of_mem_toDigits (by decide) (by decide) listed

theorem point_not_mem_decimal (value : Nat)
    : '.' ∉ decimal value := fun listed =>
  absurd (digit_of_mem_decimal listed) (by decide)

theorem number_decimal {value read : Nat} (parsed : number (decimal value) = some read)
    : read = value := by
  rw [number] at parsed
  split_ifs at parsed
  simpa [decimal] using (Option.some.inj parsed).symm

theorem parseWriting_name {writing read : Writing} (parsed : parseWriting writing.name = some read)
    : read = writing := by
  obtain ⟨fence, gen⟩ := writing
  rw [Writing.name] at parsed
  split_ifs at parsed with first
  · rw [parseWriting, splitOnce_none (point_not_mem_decimal fence)] at parsed
    obtain ⟨value, numbered, rfl⟩ := Option.map_eq_some_iff.mp parsed
    obtain rfl := number_decimal numbered
    exact congrArg (Writing.mk value) first.symm
  · rw [parseWriting, splitOnce_char (point_not_mem_decimal fence)] at parsed
    obtain ⟨one, fenced, parsed⟩ := Option.bind_eq_some_iff.mp parsed
    obtain ⟨two, numbered, rfl⟩ := Option.map_eq_some_iff.mp parsed
    obtain rfl := number_decimal fenced
    obtain rfl := number_decimal numbered
    rfl

theorem name_injective
    : Function.Injective Writing.name := by
  rintro ⟨fence, gen⟩ ⟨fence', gen'⟩ same
  simp only [Writing.name] at same
  have point (fence gen : Nat) : '.' ∈ decimal fence ++ '.' :: decimal gen := by simp
  split_ifs at same with first second second
  · rw [decimal_injective same, first, second]
  · exact absurd (same ▸ point fence' gen') (point_not_mem_decimal fence)
  · exact absurd (same ▸ point fence gen) (point_not_mem_decimal fence')
  · have one := splitOnce_char (point_not_mem_decimal fence) (decimal gen)
    rw [same, splitOnce_char (point_not_mem_decimal fence')] at one
    obtain ⟨fences, gens⟩ := Prod.mk.inj (Option.some.inj one)
    rw [decimal_injective fences, decimal_injective gens]

variable {key key' : LogKey} {seq seq' : Nat}

@[simp]
theorem segment_inj (task : List Char) {writing writing' : Writing}
    : LogKey.segment ⟨task, writing⟩ seq = LogKey.segment ⟨task, writing'⟩ seq'
      ↔ writing = writing' ∧ seq = seq' := by
  simp [LogKey.segment, name_injective.eq_iff, sequence_injective.eq_iff]

@[simp]
theorem openPart_inj (task : List Char) {writing writing' : Writing}
    : LogKey.openPart ⟨task, writing⟩ seq = LogKey.openPart ⟨task, writing'⟩ seq'
      ↔ writing = writing' ∧ seq = seq' := by
  simp [LogKey.openPart, name_injective.eq_iff, sequence_injective.eq_iff]

@[simp]
theorem segment_ne_openPart
    : key.segment seq ≠ key'.openPart seq' := by
  intro same
  have last := congrArg (fun name : ObjectName => name.file.getLast?) same
  simp [LogKey.segment, LogKey.openPart] at last

end Names

-- The store

abbrev Objects :=
  ObjectName → Option (List Char)

/-- The objects once one of them is put, or with no text removed. -/
def Objects.put (objects : Objects) (name : ObjectName) (text : Option (List Char)) : Objects :=
  fun other => if other = name then text else objects other

/-- Whether a removal takes what is kept under a name: with the row's writing current, each writing
before it, and with none whatever is there.
-/
def doomed (current : Option Writing) (name : List Char) : Bool :=
  match current with
  | none => true
  | some current => (parseWriting name).any (·.before current)

/-- What a reader makes of a log: that it moved on while it was read, that nothing of it is kept,
or its text.
-/
inductive Assembled where
  | moved
  | nothing
  | kept (text : List Char)
  deriving DecidableEq

/-- How far a reader is: it reads the objects that it counted and the open part, it looks for a
first segment it did not count, or it is done.
-/
inductive Reading where
  | objects
  | first
  | done (assembled : Assembled)
  deriving DecidableEq

/-- A reader of a log: the writing and the number of closed segments it read with the task's row,
the row's own text, and what it has read of the segments since.
-/
structure Reader where
  key
    : LogKey
  segments
    : Nat
  row
    : Option (List Char)
  text
    : List Char := []
  next
    : Nat := 0
  reading
    : Reading := .objects
  deriving DecidableEq

/-- A reader that starts from what it read with a row; where nothing is closed and the open part is
the row's text, that text is the log.
-/
def Reader.start (openInRow : Bool) (key : LogKey) (segments : Nat) (row : Option (List Char))
    : Reader where
  key := key
  segments := segments
  row := row
  reading := if segments = 0 && openInRow then .done .nothing else .objects

/-- What a reader makes of the segments it has read and an open part. -/
def Reader.assembled (reader : Reader) (openPart : Option (List Char)) : Assembled :=
  if reader.segments = 0 && openPart.isNone then .nothing
  else .kept (reader.text ++ openPart.getD [] ++ reader.row.getD [])

def Reader.step (openInRow : Bool) (objects : Objects) (reader : Reader) : Reader :=
  match reader.reading with
  | .done _ => reader
  | .first =>
      { reader with
        reading := .done (if (objects (reader.key.segment 0)).isSome then .moved
          else reader.assembled none) }
  | .objects =>
      if reader.next < reader.segments then
        match objects (reader.key.segment reader.next) with
        | none => { reader with reading := .done .moved }
        | some text => { reader with text := reader.text ++ text, next := reader.next + 1 }
      else if openInRow then { reader with reading := .done (reader.assembled none) }
      else
        match objects (reader.key.openPart reader.segments) with
        | some text => { reader with reading := .done (reader.assembled (some text)) }
        | none =>
            { reader with
              reading := if reader.segments = 0 then .first else .done .moved }

section Store

variable {objects : Objects}

@[simp]
theorem put_same (name : ObjectName) (text : Option (List Char))
    : objects.put name text name = text :=
  if_pos rfl

theorem put_other {name other : ObjectName} (apart : other ≠ name) (text : Option (List Char))
    : objects.put name text other = objects other :=
  if_neg apart

theorem not_doomed {current writing : Writing} (kept : writing.before current = false)
    : doomed (some current) writing.name = false := by
  rw [doomed]
  cases parsed : parseWriting writing.name with
  | none => rfl
  | some read =>
      rw [parseWriting_name parsed]
      exact kept

end Store

end Dagron.Artifact
