import Dagron.CiGit.Pack
import Dagron.Library.Utf8Reading
import Mathlib.Data.List.Induction

/-! git's packet lines: four hexadecimal digits of length, which count themselves, then the line. The lengths
below four mark what is between lines.
-/

namespace Dagron.CiGit

open Dagron.Library

-- Writing and reading

def hexText (number : Nat) : List Char :=
  let digits := Nat.toDigits 16 number
  List.replicate (4 - digits.length) '0' ++ digits

def asByte (char : Char) : UInt8 :=
  UInt8.ofNat char.toNat

def pkt (out : List UInt8) (line : String) : List UInt8 :=
  out ++ (hexText ((utf8 line).length + 4)).map asByte ++ utf8 line

/-- One packet: a line, or what is between lines. -/
inductive Pkt where
  | flush
  | delim
  | responseEnd
  | data (line : List UInt8)
  deriving DecidableEq

/-- Why an answer is not read: an error of the protocol; or what safe code never does, past the bounds of the
answer or without end.
-/
inductive Stop where
  | protocol (message : String)
  | panic
  | endless
  deriving DecidableEq

def truncated : Stop :=
  .protocol "the answer ends before its flush"

def hexValue (digit : UInt8) : Nat :=
  ((hexDigit digit).map UInt8.toNat).getD 0

def hexNumber (digits : List UInt8) : Nat :=
  digits.foldl (fun number digit => number * 16 + hexValue digit) 0

def pktOf (pkts : List UInt8) : Nat → Except Stop (Pkt × Nat)
  | 0 => .ok (.flush, 4)
  | 1 => .ok (.delim, 4)
  | 2 => .ok (.responseEnd, 4)
  | 3 => .error (.protocol "a pkt-line has length 3")
  | len => if pkts.length < len then .error truncated else .ok (.data ((pkts.take len).drop 4), len)

/-- The next packet, if there is one, and what follows it. -/
def nextPkt (pkts : List UInt8) : Except Stop (Option Pkt × List UInt8) :=
  if pkts = [] then .ok (none, [])
  else
    let digits := pkts.take 4
    if digits.length = 4 ∧ digits.all fun digit => (hexDigit digit).isSome then do
      let (packet, used) ← pktOf pkts (hexNumber digits)
      return (some packet, pkts.drop used)
    else .error (.protocol "a pkt-line does not start with four hex digits")

-- Frames

def Pkt.length : Pkt → Nat
  | flush => 0
  | delim => 1
  | responseEnd => 2
  | data line => line.length + 4

def Pkt.payload : Pkt → List UInt8
  | data line => line
  | _ => []

/-- Whether bytes are a packet's: four hexadecimal digits, in either case, of its length, and what it carries. -/
def Framed (packet : Pkt) (frame : List UInt8) : Prop :=
  ∃ digits, digits.length = 4 ∧ (∀ digit ∈ digits, (hexDigit digit).isSome) ∧ hexNumber digits = packet.length
    ∧ frame = digits ++ packet.payload

theorem hexValue_lt (digit : UInt8)
    : hexValue digit < 16 := by
  have all : ∀ number < 256, hexValue (UInt8.ofNat number) < 16 := by decide +kernel
  simpa using all digit.toNat digit.toNat_lt

theorem hexNumber_append (front : List UInt8) (digit : UInt8)
    : hexNumber (front ++ [digit]) = hexNumber front * 16 + hexValue digit := by
  rw [hexNumber, List.foldl_append]
  rfl

theorem hexNumber_lt (digits : List UInt8)
    : hexNumber digits < 16 ^ digits.length := by
  induction digits using List.reverseRecOn with
  | nil => exact Nat.one_pos
  | append_singleton front digit ih =>
      have small := hexValue_lt digit
      rw [hexNumber_append, List.length_append, List.length_singleton, Nat.pow_succ]
      omega

theorem pktOf_eq_ok {pkts : List UInt8} {len used : Nat} {packet : Pkt} (ok : pktOf pkts len = .ok (packet, used))
    : len = packet.length ∧ pkts.take used = pkts.take 4 ++ packet.payload := by
  match len, ok with
  | 0, ok =>
      obtain ⟨rfl, rfl⟩ := Prod.mk.inj (Except.ok.inj ok)
      exact ⟨rfl, (List.append_nil _).symm⟩
  | 1, ok =>
      obtain ⟨rfl, rfl⟩ := Prod.mk.inj (Except.ok.inj ok)
      exact ⟨rfl, (List.append_nil _).symm⟩
  | 2, ok =>
      obtain ⟨rfl, rfl⟩ := Prod.mk.inj (Except.ok.inj ok)
      exact ⟨rfl, (List.append_nil _).symm⟩
  | 3, ok => cases ok
  | len + 4, ok =>
      change (if pkts.length < len + 4 then _ else _) = _ at ok
      split at ok
      case isTrue => cases ok
      case isFalse enough =>
        obtain ⟨rfl, rfl⟩ := Prod.mk.inj (Except.ok.inj ok)
        constructor
        · simp only [Pkt.length, List.length_drop, List.length_take]
          omega
        · have head : (pkts.take (len + 4)).take 4 = pkts.take 4 := by
            rw [List.take_take, Nat.min_eq_left (Nat.le_add_left 4 len)]
          rw [← head]
          exact (List.take_append_drop 4 _).symm

theorem pktOf_framed {digits rest : List UInt8} {packet : Pkt} (four : digits.length = 4)
    : pktOf (digits ++ packet.payload ++ rest) packet.length = .ok (packet, digits.length + packet.payload.length) := by
  cases packet with
  | flush | delim | responseEnd => rw [four]; rfl
  | data line =>
      have enough : ¬ (digits ++ line ++ rest).length < line.length + 4 := by
        simp only [List.length_append]
        omega
      have front : ((digits ++ line ++ rest).take (line.length + 4)).drop 4 = line := by
        have size : line.length + 4 = (digits ++ line).length := by
          rw [List.length_append]
          omega
        rw [size, List.take_left, ← four, List.drop_left]
      have read : pktOf (digits ++ line ++ rest) (line.length + 4)
          = if (digits ++ line ++ rest).length < line.length + 4 then .error truncated
            else .ok (.data (((digits ++ line ++ rest).take (line.length + 4)).drop 4), line.length + 4) := rfl
      rw [Pkt.length, Pkt.payload, read, if_neg enough, front, four, Nat.add_comm]

theorem nextPkt_eq_some_iff {bytes rest : List UInt8} {packet : Pkt}
    : nextPkt bytes = .ok (some packet, rest) ↔ ∃ frame, Framed packet frame ∧ bytes = frame ++ rest := by
  constructor
  · intro read
    rw [nextPkt] at read
    split at read
    next => cases read
    next =>
      dsimp only at read
      split at read
      case isFalse => cases read
      case isTrue digits_ =>
        obtain ⟨⟨packet, used⟩, ok, same⟩ := exists_of_bind_eq_ok read
        obtain ⟨rfl, rfl⟩ := Prod.mk.inj (Except.ok.inj same) |>.imp Option.some.inj id
        obtain ⟨size, carried⟩ := pktOf_eq_ok ok
        exact ⟨bytes.take used, ⟨_, digits_.1, List.all_eq_true.mp digits_.2, size, carried⟩,
          (List.take_append_drop used bytes).symm⟩
  · rintro ⟨_, ⟨digits, four, hex, size, rfl⟩, rfl⟩
    have some_ : digits ++ packet.payload ++ rest ≠ [] := by
      intro empty
      rw [List.append_eq_nil_iff, List.append_eq_nil_iff] at empty
      rw [empty.1.1] at four
      cases four
    have head : (digits ++ packet.payload ++ rest).take 4 = digits := by
      rw [List.append_assoc, ← four, List.take_left]
    rw [nextPkt, if_neg some_, head]
    dsimp only
    rw [if_pos ⟨four, List.all_eq_true.mpr hex⟩, size, pktOf_framed four, ← List.length_append]
    change Except.ok (some packet, (digits ++ packet.payload ++ rest).drop _) = _
    rw [List.drop_left]

-- Lines that are read back

theorem digitChar_hex
    : ∀ digit < 16, (hexDigit (asByte (Nat.digitChar digit))).isSome
        ∧ hexValue (asByte (Nat.digitChar digit)) = digit := by
  decide +kernel

theorem toDigits_hex (number : Nat)
    : (∀ digit ∈ (Nat.toDigits 16 number).map asByte, (hexDigit digit).isSome)
      ∧ hexNumber ((Nat.toDigits 16 number).map asByte) = number := by
  induction number using Nat.strong_induction_on with
  | _ number ih =>
      rw [Nat.toDigits_eq_if (by decide)]
      split
      next small =>
        obtain ⟨hex, value⟩ := digitChar_hex number small
        refine ⟨fun digit there => ?_, ?_⟩
        · rw [List.mem_singleton.mp there]
          exact hex
        · change 0 * 16 + hexValue _ = _
          omega
      next large =>
        obtain ⟨hex, value⟩ := ih (number / 16) (by omega)
        obtain ⟨last, lastValue⟩ := digitChar_hex (number % 16) (Nat.mod_lt _ (by decide))
        rw [List.map_append, List.map_singleton]
        refine ⟨fun digit there => ?_, ?_⟩
        · obtain front | is_ := List.mem_append.mp there
          · exact hex digit front
          · rw [List.mem_singleton.mp is_]
            exact last
        · rw [hexNumber_append, value, lastValue]
          omega

theorem hexNumber_zeros (count : Nat) (digits : List UInt8)
    : hexNumber (List.replicate count (asByte '0') ++ digits) = hexNumber digits := by
  induction count with
  | zero => rfl
  | succ count ih => exact ih

theorem hexText_four {number : Nat} (small : number < 2 ^ 16)
    : (hexText number).length = 4 ∧ (∀ digit ∈ (hexText number).map asByte, (hexDigit digit).isSome)
      ∧ hexNumber ((hexText number).map asByte) = number := by
  have short : (Nat.toDigits 16 number).length ≤ 4 :=
    (Nat.length_toDigits_le_iff (by decide) (by decide)).mpr small
  obtain ⟨hex, value⟩ := toDigits_hex number
  rw [hexText, List.map_append, List.map_replicate, hexNumber_zeros]
  refine ⟨?_, fun digit there => ?_, value⟩
  · rw [List.length_append, List.length_replicate]
    omega
  · obtain zero | digit_ := List.mem_append.mp there
    · rw [List.eq_of_mem_replicate zero]
      decide
    · exact hex digit digit_

/-- A line that is written as a packet is read back exactly where its length has four digits. -/
theorem nextPkt_pkt_iff (line : String) (rest : List UInt8)
    : nextPkt (pkt [] line ++ rest) = .ok (some (.data (utf8 line)), rest) ↔ (utf8 line).length + 4 < 2 ^ 16 := by
  rw [nextPkt_eq_some_iff]
  constructor
  · rintro ⟨frame, ⟨digits, four, -, size, -⟩, -⟩
    have small := hexNumber_lt digits
    rw [size, four] at small
    exact small
  · intro small
    obtain ⟨four, hex, value⟩ := hexText_four small
    exact ⟨pkt [] line, ⟨_, by rwa [List.length_map], hex, value, rfl⟩, rfl⟩

end Dagron.CiGit
