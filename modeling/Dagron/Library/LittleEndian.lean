import Mathlib.Algebra.Group.Nat.Defs
import Mathlib.Data.Nat.Basic

/-! Numbers in bytes, the lowest first.
-/

namespace Dagron.Library

def littleEndian : Nat → Nat → List UInt8
  | 0, _ => []
  | width + 1, number => UInt8.ofNat number :: littleEndian width (number / 256)

def ofLittleEndian : List UInt8 → Nat
  | [] => 0
  | byte :: rest => byte.toNat + 256 * ofLittleEndian rest

@[simp]
theorem length_littleEndian (width number : Nat)
    : (littleEndian width number).length = width := by
  induction width generalizing number with
  | zero => rfl
  | succ width ih => rw [littleEndian, List.length_cons, ih]

theorem ofLittleEndian_littleEndian (width number : Nat)
    : ofLittleEndian (littleEndian width number) = number % 256 ^ width := by
  induction width generalizing number with
  | zero => exact (Nat.mod_one number).symm
  | succ width ih =>
      have halves : number % (256 * 256 ^ width)
          = number % 256 + 256 * (number / 256 % 256 ^ width) := Nat.mod_mul
      have lowest : (UInt8.ofNat number).toNat = number % 256 := UInt8.toNat_ofNat'
      rw [littleEndian, ofLittleEndian, ih, lowest, Nat.pow_succ', halves]

theorem littleEndian_ofLittleEndian (bytes : List UInt8)
    : littleEndian bytes.length (ofLittleEndian bytes) = bytes := by
  induction bytes with
  | nil => rfl
  | cons byte rest ih =>
      have small := byte.toNat_lt
      have low : UInt8.ofNat (byte.toNat + 256 * ofLittleEndian rest) = byte := by
        rw [← UInt8.toNat_inj, UInt8.toNat_ofNat']
        omega
      have high : (byte.toNat + 256 * ofLittleEndian rest) / 256 = ofLittleEndian rest := by omega
      rw [List.length_cons, ofLittleEndian, littleEndian, low, high, ih]

theorem ofLittleEndian_lt (bytes : List UInt8)
    : ofLittleEndian bytes < 256 ^ bytes.length := by
  induction bytes with
  | nil => exact Nat.one_pos
  | cons byte rest ih =>
      have small := byte.toNat_lt
      rw [ofLittleEndian, List.length_cons, Nat.pow_succ']
      omega

end Dagron.Library
