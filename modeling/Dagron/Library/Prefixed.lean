import Mathlib.Data.List.Basic

/-! Sequences of fields written one after another, each behind its length: no separator, and no
two sequences that read alike.
-/

namespace Dagron.Library

/-- A way to write lengths below a bound in a fixed number of bytes. -/
structure LengthHeader (Byte : Type) where
  bytes
    : Nat → List Byte
  width
    : Nat
  bound
    : Nat
  width_pos
    : 0 < width
  length_bytes
    : ∀ length, (bytes length).length = width
  injective
    : ∀ first second, first < bound → second < bound → bytes first = bytes second →
      first = second

namespace LengthHeader

variable {Byte : Type} (header : LengthHeader Byte)

def prefixed (field : List Byte) : List Byte :=
  header.bytes field.length ++ field

def encode (fields : List (List Byte)) : List Byte :=
  fields.flatMap header.prefixed

/-- Fields short enough for their lengths to be written. -/
def Fits (fields : List (List Byte)) : Prop :=
  ∀ field ∈ fields, field.length < header.bound

variable {header} {fields others : List (List Byte)}

theorem prefixed_ne_nil (field : List Byte)
    : header.prefixed field ≠ [] := by
  have long := header.length_bytes field.length
  have positive := header.width_pos
  intro empty
  obtain ⟨none_, _⟩ := List.append_eq_nil_iff.mp empty
  simp [none_] at long
  omega

theorem prefixed_append_inj {first second rest rest' : List Byte}
    (fits : first.length < header.bound) (fits' : second.length < header.bound)
    (same : header.prefixed first ++ rest = header.prefixed second ++ rest')
    : first = second ∧ rest = rest' := by
  simp only [prefixed, List.append_assoc] at same
  have long : (header.bytes first.length).length = (header.bytes second.length).length := by
    rw [header.length_bytes, header.length_bytes]
  obtain ⟨lengths, tails⟩ := List.append_inj same long
  exact List.append_inj tails (header.injective _ _ fits fits' lengths)

theorem encode_inj (fits : header.Fits fields) (fits' : header.Fits others)
    (same : header.encode fields = header.encode others)
    : fields = others := by
  induction fields generalizing others with
  | nil =>
      cases others with
      | nil => rfl
      | cons other rest =>
          have empty := (List.append_eq_nil_iff.mp same.symm).1
          exact absurd empty (prefixed_ne_nil other)
  | cons field rest ih =>
      cases others with
      | nil => exact absurd (List.append_eq_nil_iff.mp same).1 (prefixed_ne_nil field)
      | cons other rest' =>
          obtain ⟨head, tail⟩ := prefixed_append_inj (fits field List.mem_cons_self)
            (fits' other List.mem_cons_self) same
          rw [head, ih (fun field listed => fits field (List.mem_cons_of_mem _ listed))
            (fun field listed => fits' field (List.mem_cons_of_mem _ listed)) tail]

end LengthHeader

end Dagron.Library
