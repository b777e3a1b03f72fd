import Dagron.Library.Borders
import Dagron.Library.CharBounds
import Mathlib.Data.List.Sort
import Mathlib.Data.List.Destutter

/-! Masking of secret values in what a task prints: the values a redactor masks, what it makes of a
text, where a text can be cut without cutting one of them in two, and how far one that began before a
text could reach into it. Texts are their bytes.
-/

namespace Dagron.Executor

open Dagron.Library

-- The values

def minLen : Nat :=
  4

/-- Whether a value is masked before another: the longer first, then in the order of their bytes. -/
def maskedBefore (first second : String) : Prop :=
  (utf8 second).length < (utf8 first).length
    ∨ (utf8 second).length = (utf8 first).length ∧ utf8 first ≤ utf8 second

instance : DecidableRel maskedBefore := fun _ _ =>
  inferInstanceAs (Decidable (_ ∨ _ ∧ _))

/-- The values a redactor masks, of some values: each, none shorter than the shortest; longest first;
and each once.
-/
def masked (values : List String) : List String :=
  ((values.filter (fun value => minLen ≤ value.length)).insertionSort maskedBefore).destutter (· ≠ ·)

/-- A set of secret literals to mask, longest first. -/
structure Redactor where
  values : List String
  long : ∀ value ∈ values, minLen ≤ value.length
  sorted : values.Pairwise maskedBefore
  once : values.Nodup

instance : Std.Total maskedBefore where
  total first second := by
    rcases Nat.lt_trichotomy (utf8 first).length (utf8 second).length with less | same | more
    · exact .inr (.inl less)
    · rcases List.le_total (utf8 first) (utf8 second) with before | after
      · exact .inl (.inr ⟨same.symm, before⟩)
      · exact .inr (.inr ⟨same, after⟩)
    · exact .inl (.inl more)

instance : IsTrans String maskedBefore where
  trans _ _ _ before before' := by
    rcases before with less | ⟨same, before⟩
    · rcases before' with less' | ⟨same', _⟩
      · exact .inl (less'.trans less)
      · exact .inl (same' ▸ less)
    · rcases before' with less' | ⟨same', before'⟩
      · exact .inl (same ▸ less')
      · exact .inr ⟨same'.trans same, List.le_trans before before'⟩

instance : Std.Antisymm maskedBefore where
  antisymm _ _ before after := by
    rcases before with less | ⟨same, before⟩
    · rcases after with less' | ⟨same', _⟩ <;> omega
    · rcases after with less' | ⟨_, after⟩
      · omega
      · exact utf8_injective (List.le_antisymm before after)

theorem masked_eq_dedup (values : List String)
    : masked values
      = ((values.filter (fun value => minLen ≤ value.length)).insertionSort maskedBefore).dedup :=
  (List.pairwise_insertionSort _ _).destutter_eq_dedup

theorem mem_masked {values : List String} {value : String}
    : value ∈ masked values ↔ value ∈ values ∧ minLen ≤ value.length := by
  rw [masked_eq_dedup, List.mem_dedup, List.mem_insertionSort, List.mem_filter, decide_eq_true_eq]

def Redactor.ofValues (values : List String) : Redactor where
  values := masked values
  long _ listed := (mem_masked.mp listed).2
  sorted := (List.pairwise_insertionSort _ _).sublist (List.destutter_sublist _ _)
  once := by
    rw [masked_eq_dedup]
    exact List.nodup_dedup _

def Redactor.needles (redactor : Redactor) : List (List UInt8) :=
  redactor.values.map utf8

-- Masking

def stars : List UInt8 :=
  utf8 "***"

def contains (text needle : List UInt8) : Bool :=
  (List.range (text.length + 1)).any (fun start => needle.isPrefixOf (text.drop start))

/-- Replace every known secret value in a text with stars, one value after the other. -/
def Redactor.redact (redactor : Redactor) (text : List UInt8) : List UInt8 :=
  if redactor.values.isEmpty || !redactor.needles.any (contains text) then text
  else replaceAll id stars redactor.needles text

def placed (text : List UInt8) : List (UInt8 × Option Nat) :=
  text.zipIdx.map (fun byte => (byte.1, some byte.2))

/-- A redacted text with the place in the text that each byte it shows was at. -/
def Redactor.traced (redactor : Redactor) (text : List UInt8) : List (UInt8 × Option Nat) :=
  replaceAll Prod.fst (stars.map (fun star => (star, none))) redactor.needles (placed text)

def Redactor.shown (redactor : Redactor) (text : List UInt8) : List Nat :=
  (redactor.traced text).filterMap Prod.snd

-- Cuts

/-- The last place a text has a value at, of those up to one. -/
def rfindFrom (needle text : List UInt8) : Nat → Option Nat
  | 0 => if needle.isPrefixOf text then some 0 else none
  | start + 1 =>
      if needle.isPrefixOf (text.drop (start + 1)) then some (start + 1)
      else rfindFrom needle text start

def rfind (needle text : List UInt8) : Option Nat :=
  rfindFrom needle text text.length

/-- The part of a text between two places, nothing (a panic) where these are no bounds of it in order. -/
def slice (text : List UInt8) (from_ till : Nat) : Option (List UInt8) :=
  if from_ ≤ till ∧ isCharBoundary text from_ ∧ isCharBoundary text till then
    some ((text.take till).drop from_)
  else none

/-- The end of the last occurrence of a value that spans a place, or the place. -/
def spanned (needle text : List UInt8) (at_ : Nat) : Option Nat := do
  -- One that ends between these began before the place, so spans it, and the last ends latest.
  let from_ := floorCharBoundary text (at_ - (needle.length - 1))
  let till := floorCharBoundary text (at_ + needle.length - 1)
  match rfind needle (← slice text from_ till) with
  | some start =>
      if at_ < from_ + start + needle.length then some (from_ + start + needle.length) else some at_
  | none => some at_

/-- (follow fuel at) goes past the occurrences of one value that span a place, each ending in the next. -/
def follow (needle text : List UInt8) : Nat → Nat → Option Nat
  | 0, _ => none
  | fuel + 1, at_ => do
      let later ← spanned needle text at_
      if at_ < later then follow needle text fuel later else some at_

/-- (rounds fuel at) goes past the occurrences of each value in turn, until none spans the place. -/
def rounds (needles : List (List UInt8)) (text : List UInt8) (fuel : Nat) : Nat → Nat → Option Nat
  | 0, _ => none
  | more + 1, at_ => do
      let later ← needles.foldlM (fun at_ needle => follow needle text fuel at_) at_
      if later = at_ then some at_ else rounds needles text fuel more later

/-- Where a text can be cut, at a place or past it, without cutting in two a value this masks. -/
def Redactor.clearCut (redactor : Redactor) (fuel : Nat) (text : List UInt8) (at_ : Nat) : Option Nat :=
  rounds redactor.needles text fuel fuel (floorCharBoundary text at_)

/-- How far into a text a value this masks could reach that began before it. -/
def Redactor.reach (redactor : Redactor) (text : List UInt8) : Nat :=
  redactor.needles.foldl
    (fun most needle => max most (overlap (text.take (min text.length (needle.length - 1))) needle)) 0

end Dagron.Executor
