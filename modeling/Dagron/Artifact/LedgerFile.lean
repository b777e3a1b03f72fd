import Dagron.Library.Lines
import Dagron.Library.Transition
import Dagron.Library.Utf8
import Dagron.Spec.Condition
import Dagron.Artifact.Ledger

/-! The ledger's file: a line for each record, appended or all written anew, and read again after a write
that came to an end at any byte.
-/

namespace Dagron.Artifact

open Dagron.Library

/-- How a record is written as JSON, and what a line is read as. -/
structure Codec where
  encode
    : Record → List UInt8
  decode
    : List UInt8 → Option Record
  decode_encode
    : ∀ record, decode (encode record) = some record
  /-- A record is an object, which begins with a brace. -/
  begins
    : ∀ record, (encode record).head? = some 123
  single
    : ∀ record, 10 ∉ encode record
  /-- What an object begins with is none. -/
  torn
    : ∀ record part, part <+: encode record → part ≠ encode record → decode part = none

variable (codec : Codec)

-- Reading and writing

def Ledger.readLine (ledger : Ledger) (line : List UInt8) : Ledger :=
  if (fromUtf8Lossy line).all Spec.isSpace then ledger
  else
    match codec.decode line with
    | some record => ledger.apply record
    | none => { ledger with needsCompaction := true }

def loadLedger (file : List UInt8) : Ledger :=
  (allLines 10 file).foldl (Ledger.readLine codec) {}

def encodeAll (records : List Record) : List UInt8 :=
  records.flatMap fun record => codec.encode record ++ [10]

/-- How a write ends: whole, or after so many bytes, with an error or with the process. -/
inductive Outcome where
  | returned
  | failed (bytes : Nat)
  | crashed (bytes : Nat)
  deriving DecidableEq

/-- Whether records are written with all of the ledger, which they were applied to. -/
def Ledger.compacts (ledger : Ledger) (records : List Record) : Bool :=
  ledger.needsCompaction
    || max 256 (2 * ledger.entries.entries.length) < ledger.appended + records.length

def appendTo (file bytes : List UInt8) : Outcome → List UInt8
  | .returned => file ++ bytes
  | .failed count | .crashed count => file ++ bytes.take count

/-- The file after a write of some bytes to another one, which then takes its place. -/
def replaceBy (file bytes : List UInt8) : Outcome → List UInt8
  | .returned => bytes
  | .failed _ => file
  | .crashed count => if bytes.length < count then bytes else file

/-- The ledger's file and the ledger in memory, once it was read; and the records of each write, with
whether it returned.
-/
structure LedgerWorld where
  file
    : List UInt8 := []
  memory
    : Option Ledger := none
  attempts
    : List (List Record × Bool) := []

inductive LedgerOp where
  | load
  | persist (records : List Record) (outcome : Outcome)
  | crash
  deriving DecidableEq

namespace LedgerWorld

def persist (world : LedgerWorld) (records : List Record) (outcome : Outcome) : Option LedgerWorld :=
  world.memory.bind fun ledger =>
    if records = [] then none
    else
      let applied := ledger.applyAll records
      let compact := applied.compacts records
      let file :=
        if compact then replaceBy world.file (encodeAll codec applied.snapshot) outcome
        else appendTo world.file (encodeAll codec records) outcome
      some {
        file := file
        attempts := world.attempts ++ [(records, decide (outcome = .returned))]
        memory := match outcome with
          | .returned => some { applied with
              appended := if compact then 0 else applied.appended + records.length
              needsCompaction := false }
          | .failed _ => some { applied with needsCompaction := true }
          | .crashed _ => none }

def operate (world : LedgerWorld) : LedgerOp → Option LedgerWorld
  | .load =>
      if world.memory.isNone then some { world with memory := some (loadLedger codec world.file) }
      else none
  | .persist records outcome => world.persist codec records outcome
  | .crash => some { world with memory := none }

end LedgerWorld

def ledgerSystem : System LedgerWorld LedgerOp where
  init := {}
  commits op world := (world.operate codec op).toList

-- Lines

variable {codec}

theorem encodeAll_append (first second : List Record)
    : encodeAll codec (first ++ second) = encodeAll codec first ++ encodeAll codec second :=
  List.flatMap_append

theorem encodeAll_cons (record : Record) (rest : List Record)
    : encodeAll codec (record :: rest) = codec.encode record ++ 10 :: encodeAll codec rest := by
  simp [encodeAll]

/-- What is left of a write that came to an end: nothing, or a part of a record. -/
def Torn (codec : Codec) (tail : List UInt8) : Prop :=
  tail = [] ∨ ∃ record, tail <+: codec.encode record ∧ tail ≠ codec.encode record

theorem not_blank {line : List UInt8} (begins : line.head? = some 123)
    : (fromUtf8Lossy line).all Spec.isSpace = false := by
  cases line with
  | nil => exact absurd begins nofun
  | cons first rest =>
      obtain rfl := Option.some.inj begins
      simp [fromUtf8Lossy, readChars, readChar, Spec.isSpace]

theorem readLine_encode (ledger : Ledger) (record : Record)
    : ledger.readLine codec (codec.encode record) = ledger.apply record := by
  rw [Ledger.readLine, not_blank (codec.begins record), codec.decode_encode]
  rfl

theorem readLine_torn (ledger : Ledger) {record : Record} {tail : List UInt8} (some_ : tail ≠ [])
    (part : tail <+: codec.encode record) (torn : tail ≠ codec.encode record)
    : ledger.readLine codec tail = { ledger with needsCompaction := true } := by
  have begins : tail.head? = some 123 := by
    obtain ⟨more, same⟩ := part
    rw [← codec.begins record, ← same, List.head?_append_of_ne_nil _ some_]
  rw [Ledger.readLine, not_blank begins, codec.torn record tail part torn]
  rfl

theorem load_lines (records : List Record) {tail : List UInt8} (torn : Torn codec tail)
    : loadLedger codec (encodeAll codec records ++ tail)
      = if tail = [] then ({} : Ledger).applyAll records
        else { ({} : Ledger).applyAll records with needsCompaction := true } := by
  have lines (ledger : Ledger)
      : (allLines 10 (encodeAll codec records ++ tail)).foldl (Ledger.readLine codec) ledger
        = (allLines 10 tail).foldl (Ledger.readLine codec) (ledger.applyAll records) := by
    induction records generalizing ledger with
    | nil => rfl
    | cons record rest ih =>
        rw [encodeAll_cons, List.append_assoc, List.cons_append,
          allLines_line (codec.single record), List.foldl_cons, readLine_encode, ih]
        rfl
  rw [loadLedger, lines]
  obtain rfl | ⟨record, part, torn⟩ := torn
  · rfl
  · have single : (10 : UInt8) ∉ tail := fun listed => codec.single record (part.subset listed)
    rw [allLines_unfinished single]
    split_ifs with none_
    · rfl
    · exact readLine_torn _ none_ part torn

/-- A write that is cut, but not just before the end of a line, leaves whole records and a torn one, by
induction on the records.
-/
theorem take_encodeAll {records : List Record} {count : Nat}
    (uneven : ∀ place < records.length, (encodeAll codec (records.take (place + 1))).length ≠ count + 1)
    : ∃ part tail, part <+: records ∧ Torn codec tail
      ∧ (encodeAll codec records).take count = encodeAll codec part ++ tail := by
  induction records generalizing count with
  | nil => exact ⟨[], [], List.prefix_rfl, Or.inl rfl, by simp [encodeAll]⟩
  | cons record rest ih =>
      rw [encodeAll_cons]
      by_cases within : count ≤ (codec.encode record).length
      · refine ⟨[], (codec.encode record).take count, List.nil_prefix, Or.inr ⟨record, ?_, ?_⟩, ?_⟩
        · exact List.take_prefix ..
        · intro whole
          have length := congrArg List.length whole
          have exact_ := uneven 0 (Nat.succ_pos _)
          simp only [List.take_succ_cons, List.take_zero, encodeAll_cons, List.length_append,
            List.length_cons, List.length_take] at length exact_
          simp [encodeAll] at exact_
          omega
        · rw [List.take_append_of_le_length within]
          rfl
      · obtain ⟨more, rfl⟩ := Nat.exists_eq_add_of_lt (Nat.lt_of_not_le within)
        obtain ⟨part, tail, begins, torn, same⟩ := @ih more fun place bound length => by
          refine uneven (place + 1) (Nat.succ_lt_succ bound) ?_
          rw [List.take_succ_cons, encodeAll_cons, List.length_append, List.length_cons, length]
          omega
        refine ⟨record :: part, tail, List.cons_prefix_cons.mpr ⟨rfl, begins⟩, torn, ?_⟩
        rw [encodeAll_cons, List.append_assoc, List.cons_append, ← same, Nat.add_assoc, List.take_append]
        simp

end Dagron.Artifact
