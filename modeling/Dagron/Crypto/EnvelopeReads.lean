import Dagron.Crypto.Envelope
import Dagron.Library.Results

/-! What the readers of envelopes accept: exactly the bytes that headers and frames are written as.
None of them goes down, whatever it is given.
-/

namespace Dagron.Crypto

open Dagron.Library

-- Slices

@[simp]
theorem result_fail {Value : Type} (failure : Failure)
    : (fail failure : Reading Value).result = .error (.failed failure) :=
  rfl

theorem splits_iff {bytes first rest : List UInt8} {size : Nat}
    : (size ≤ bytes.length ∧ bytes.take size = first ∧ bytes.drop size = rest)
      ↔ bytes = first ++ rest ∧ first.length = size := by
  constructor
  · rintro ⟨within, rfl, rfl⟩
    exact ⟨(List.take_append_drop size bytes).symm, List.length_take_of_le within⟩
  · rintro ⟨rfl, rfl⟩
    refine ⟨?_, List.take_left, List.drop_left⟩
    rw [List.length_append]
    exact Nat.le_add_right _ _

theorem splitAt_eq_ok_iff {bytes first rest : List UInt8} {place : Nat}
    : (splitAt bytes place).result = .ok (first, rest)
      ↔ bytes = first ++ rest ∧ first.length = place := by
  rw [← splits_iff]
  unfold splitAt
  split
  case isTrue within =>
    rw [Traced.result_pure, Except.ok.injEq, Prod.mk.injEq]
    exact ⟨fun same => ⟨within, same⟩, fun same => same.2⟩
  case isFalse beyond => exact ⟨nofun, fun same => absurd same.1 beyond⟩

theorem take_eq_ok_iff {buf first rest : List UInt8} {size : Nat}
    : (take buf size).result = .ok (first, rest) ↔ buf = first ++ rest ∧ first.length = size := by
  rw [← splitAt_eq_ok_iff]
  unfold take
  split
  case isFalse => exact Iff.rfl
  case isTrue short =>
    refine ⟨nofun, ?_⟩
    intro split
    obtain ⟨rfl, rfl⟩ := splitAt_eq_ok_iff.mp split
    rw [List.length_append] at short
    omega

theorem fromSlice_eq_ok_iff {size : Nat} {bytes : List UInt8} {block : Block size}
    : (fromSlice size bytes).result = .ok block ↔ bytes = block.val := by
  unfold fromSlice
  split
  case isTrue fits =>
    rw [Traced.result_pure, Except.ok.injEq, Subtype.ext_iff]
  case isFalse unfit =>
    refine ⟨nofun, ?_⟩
    rintro rfl
    exact absurd block.property unfit

theorem byteAt_eq_ok_iff {bytes : List UInt8} {place : Nat} {byte : UInt8}
    : (byteAt bytes place).result = .ok byte ↔ bytes[place]? = some byte := by
  unfold byteAt
  cases bytes[place]? <;> simp [Traced.orRaise]

theorem orRaise_eq_ok_iff {Value : Type} {value? : Option Value} {fault : Fault} {value : Value}
    : (Traced.orRaise value? fault : Reading Value).result = .ok value ↔ value? = some value := by
  cases value? <;> simp

theorem failIf_eq_ok_iff {cond : Prop} [Decidable cond] {failure : Failure} {done : Unit}
    : (failIf cond failure).result = .ok done ↔ ¬ cond := by
  unfold failIf
  split
  case isTrue met => simp [met]
  case isFalse unmet => simp [unmet]

theorem first_eq_ok_iff {buf rest : List UInt8} {byte : UInt8}
    : (∃ first, (buf = first ++ rest ∧ first.length = 1) ∧ first[0]? = some byte)
      ↔ buf = byte :: rest := by
  constructor
  · rintro ⟨first, ⟨rfl, one⟩, found⟩
    obtain ⟨only, rfl⟩ := List.length_eq_one_iff.mp one
    cases found
    rfl
  · rintro rfl
    exact ⟨[byte], ⟨rfl, rfl⟩, rfl⟩

-- Headers

section Headers

variable {Draw : Type} {tag : UInt8} {other : UInt8 → Failure} {provider : KeyProvider Draw}
  {buf rest : List UInt8} {dek : DataKey}

theorem readHeader_eq_ok_iff
    : (readHeader tag other provider buf).result = .ok (dek, rest)
      ↔ ∃ wrapped, buf = headerBytes tag (utf8 provider.id) wrapped ++ rest
        ∧ (utf8 provider.id).length ≤ 255 ∧ wrapped.length < 256 ^ 4
        ∧ provider.unwrap wrapped = some dek := by
  simp only [readHeader, Traced.result_bind, bind_eq_ok_iff, Prod.exists, take_eq_ok_iff,
    byteAt_eq_ok_iff, failIf_eq_ok_iff, orRaise_eq_ok_iff, fromSlice_eq_ok_iff, Traced.result_pure,
    Except.ok.injEq, Prod.mk.injEq]
  constructor
  · rintro ⟨first, _, taken, found, byte, _, same, second, _, taken', idLen, byte', id, _,
      ⟨rfl, idLength⟩, pid, read, _, named, length, _, ⟨rfl, _⟩, block, rfl, wrapped, _,
      ⟨rfl, wrappedLength⟩, _, unwraps, rfl, rfl⟩
    obtain rfl := first_eq_ok_iff.mp ⟨second, taken', byte'⟩
    obtain rfl := first_eq_ok_iff.mp ⟨first, taken, byte⟩
    obtain rfl := not_not.mp same
    obtain rfl := not_not.mp named
    obtain rfl := fromUtf8_eq_some_iff.mp read
    have small := ofLittleEndian_lt block.val
    rw [block.property] at small
    have whole := littleEndian_ofLittleEndian block.val
    rw [block.property] at whole
    refine ⟨wrapped, ?_, ?_, ?_, unwraps⟩
    · rw [headerBytes, idLength, UInt8.ofNat_toNat, wrappedLength, whole]
      simp only [List.cons_append, List.append_assoc]
    · have byte := idLen.toNat_lt
      omega
    · rwa [wrappedLength]
  · rintro ⟨wrapped, rfl, short, small, unwraps⟩
    let id := utf8 provider.id
    have idLength : (UInt8.ofNat id.length).toNat = id.length := by
      rw [UInt8.toNat_ofNat']
      exact Nat.mod_eq_of_lt (Nat.lt_succ_of_le short)
    refine ⟨[tag], UInt8.ofNat id.length :: id ++ littleEndian 4 wrapped.length ++ wrapped ++ rest,
      ⟨rfl, rfl⟩, tag, rfl, (), not_not.mpr rfl, [UInt8.ofNat id.length],
      id ++ littleEndian 4 wrapped.length ++ wrapped ++ rest, ⟨rfl, rfl⟩, UInt8.ofNat id.length, rfl,
      id, littleEndian 4 wrapped.length ++ wrapped ++ rest, ⟨?_, idLength.symm⟩, provider.id,
      fromUtf8_eq_some_iff.mpr rfl, (), not_not.mpr rfl, littleEndian 4 wrapped.length,
      wrapped ++ rest, ⟨?_, length_littleEndian 4 _⟩,
      ⟨littleEndian 4 wrapped.length, length_littleEndian 4 _⟩, rfl, wrapped, rest, ⟨rfl, ?_⟩, dek,
      unwraps, rfl, rfl⟩
    · simp only [List.append_assoc]
    · simp only [List.append_assoc]
    · rw [ofLittleEndian_littleEndian, Nat.mod_eq_of_lt small]

end Headers

-- Whole envelopes and frames

section Opening

variable {Draw : Type} {cipher : Cipher} {provider : KeyProvider Draw} {key : DataKey}
  {blob message : List UInt8}

theorem open_eq_ok_iff
    : (open_ cipher key blob).result = .ok message
      ↔ ∃ nonce sealed_, blob = nonce.val ++ sealed_ ∧ sealed_ ≠ []
        ∧ cipher.decrypt key nonce [] sealed_ = some message := by
  simp only [open_, Traced.result_bind, bind_eq_ok_iff, Prod.exists, splitAt_eq_ok_iff,
    failIf_eq_ok_iff, orRaise_eq_ok_iff, fromSlice_eq_ok_iff]
  constructor
  · rintro ⟨_, long, _, sealed_, ⟨rfl, _⟩, nonce, rfl, opens⟩
    refine ⟨nonce, sealed_, rfl, ?_, opens⟩
    rintro rfl
    have size := nonce.property
    rw [List.append_nil] at long
    omega
  · rintro ⟨nonce, sealed_, rfl, some_, opens⟩
    refine ⟨(), ?_, nonce.val, sealed_, ⟨rfl, nonce.property⟩, nonce, rfl, opens⟩
    have size := nonce.property
    have long := List.length_pos_iff.mpr some_
    rw [List.length_append]
    omega

theorem localKekProvider_wrap_eq_some_iff {kek dek : DataKey} {id : String} {draw : Nonce}
    {wrapped : List UInt8}
    : (localKekProvider cipher kek id).wrap draw dek = some wrapped
      ↔ ∃ sealed_, cipher.encrypt kek draw [] dek.val = some sealed_
        ∧ draw.val ++ sealed_ = wrapped := by
  simp only [localKekProvider, seal_]
  cases cipher.encrypt kek draw [] dek.val with
  | none => simp
  | some sealed_ => simp

theorem localKekProvider_unwrap_eq_some_iff {kek dek : DataKey} {id : String} {wrapped : List UInt8}
    : (localKekProvider cipher kek id).unwrap wrapped = some dek
      ↔ ∃ nonce sealed_, wrapped = nonce.val ++ sealed_ ∧ sealed_ ≠ []
        ∧ cipher.decrypt kek nonce [] sealed_ = some dek.val := by
  rw [← open_eq_ok_iff]
  simp only [localKekProvider]
  split
  case h_1 failed => simp [failed]
  case h_2 bytes opened =>
    rw [opened, Except.ok.injEq]
    split
    case isTrue fits => rw [Option.some.injEq, Subtype.ext_iff]
    case isFalse unfit =>
      refine ⟨nofun, ?_⟩
      rintro rfl
      exact absurd dek.property unfit

theorem decryptEnvelopeBytes_eq_ok_iff
    : (decryptEnvelopeBytes cipher provider blob).result = .ok message
      ↔ ∃ wrapped dek nonce sealed_,
        blob = headerBytes envelopeBinTag (utf8 provider.id) wrapped ++ (nonce.val ++ sealed_)
        ∧ (utf8 provider.id).length ≤ 255 ∧ wrapped.length < 256 ^ 4
        ∧ provider.unwrap wrapped = some dek ∧ sealed_ ≠ []
        ∧ cipher.decrypt dek nonce [] sealed_ = some message := by
  simp only [decryptEnvelopeBytes, Traced.result_bind, bind_eq_ok_iff, Prod.exists,
    readHeader_eq_ok_iff, open_eq_ok_iff]
  constructor
  · rintro ⟨dek, _, ⟨wrapped, rfl, short, small, unwraps⟩, nonce, sealed_, rfl, some_, opens⟩
    exact ⟨wrapped, dek, nonce, sealed_, rfl, short, small, unwraps, some_, opens⟩
  · rintro ⟨wrapped, dek, nonce, sealed_, rfl, short, small, unwraps, some_, opens⟩
    exact ⟨dek, _, ⟨wrapped, rfl, short, small, unwraps⟩, nonce, sealed_, rfl, some_, opens⟩

theorem StreamOpener.new_eq_ok_iff {header : List UInt8} {opener : StreamOpener}
    : (StreamOpener.new provider header).result = .ok opener
      ↔ ∃ wrapped dek junk, header = headerBytes streamTag (utf8 provider.id) wrapped ++ junk
        ∧ (utf8 provider.id).length ≤ 255 ∧ wrapped.length < 256 ^ 4
        ∧ provider.unwrap wrapped = some dek ∧ opener = ⟨dek, 0, false⟩ := by
  simp only [StreamOpener.new, Traced.result_bind, bind_eq_ok_iff, Prod.exists,
    readHeader_eq_ok_iff, Traced.result_pure, Except.ok.injEq]
  constructor
  · rintro ⟨dek, junk, ⟨wrapped, rfl, short, small, unwraps⟩, rfl⟩
    exact ⟨wrapped, dek, junk, rfl, short, small, unwraps, rfl⟩
  · rintro ⟨wrapped, dek, junk, rfl, short, small, unwraps, rfl⟩
    exact ⟨dek, junk, ⟨wrapped, rfl, short, small, unwraps⟩, rfl⟩

/-- A frame opens exactly where its flag, its nonce and what follows are of a chunk at the opener's
index.
-/
theorem StreamOpener.openChunk_eq_ok_iff {index : UInt32} {frame : List UInt8} {isFinal : Bool}
    {opener : StreamOpener}
    : ((StreamOpener.mk key index false).openChunk cipher frame).result = .ok (message, isFinal, opener)
      ↔ ∃ flag nonce sealed_, frame = flag :: nonce.val ++ sealed_ ∧ isFinal = decide (flag ≠ 0)
        ∧ cipher.decrypt key nonce (chunkAad index isFinal) sealed_ = some message
        ∧ opener = ⟨key, index + 1, isFinal⟩ := by
  simp only [StreamOpener.openChunk, Traced.result_bind, bind_eq_ok_iff, Prod.exists,
    take_eq_ok_iff, byteAt_eq_ok_iff, failIf_eq_ok_iff, orRaise_eq_ok_iff, fromSlice_eq_ok_iff,
    Traced.result_pure, Except.ok.injEq, Prod.mk.injEq]
  constructor
  · rintro ⟨_, _, first, _, taken, flag, byte, _, sealed_, ⟨rfl, _⟩, nonce, rfl, _, opens, rfl, rfl,
      rfl⟩
    obtain rfl := first_eq_ok_iff.mp ⟨first, taken, byte⟩
    exact ⟨flag, nonce, sealed_, rfl, rfl, opens, rfl⟩
  · rintro ⟨flag, nonce, sealed_, rfl, rfl, opens, rfl⟩
    exact ⟨(), by simp, [flag], nonce.val ++ sealed_, ⟨rfl, rfl⟩, flag, rfl, nonce.val, sealed_,
      ⟨rfl, nonce.property⟩, nonce, rfl, message, opens, rfl, rfl, rfl⟩

end Opening

-- No reader goes down

/-- A reader does only what is allowed, and if it fails it says why. -/
abbrev Calm {Value : Type} (allowed : Act → Prop) (reading : Reading Value) : Prop :=
  reading.Within allowed (fun fault => fault ≠ .panicked)

section Calm

variable {allowed : Act → Prop} {Draw : Type}

theorem calm_fail {Value : Type} (failure : Failure)
    : Calm allowed (fail failure : Reading Value) :=
  .raise (by simp)

theorem calm_failIf {cond : Prop} [Decidable cond] {failure : Failure}
    : Calm allowed (failIf cond failure) := by
  unfold failIf
  split
  · exact calm_fail failure
  · exact .pure ()

theorem calm_orRaise {Value : Type} {value? : Option Value} {failure : Failure}
    : Calm allowed (.orRaise value? (.failed failure) : Reading Value) :=
  .orRaise (by simp)

theorem calm_splitAt {bytes : List UInt8} {place : Nat} (within : place ≤ bytes.length)
    : Calm allowed (splitAt bytes place) := by
  rw [splitAt, if_pos within]
  exact .pure _

theorem calm_byteAt {bytes : List UInt8} {place : Nat} (within : place < bytes.length)
    : Calm allowed (byteAt bytes place) := by
  rw [byteAt, List.getElem?_eq_getElem within]
  exact .pure _

theorem calm_fromSlice {size : Nat} {bytes : List UInt8} (fits : bytes.length = size)
    : Calm allowed (fromSlice size bytes) := by
  rw [fromSlice, dif_pos fits]
  exact .pure _

theorem calm_take {buf : List UInt8} {size : Nat}
    : Calm allowed (take buf size) := by
  unfold take
  split
  case isTrue => exact calm_fail _
  case isFalse enough => exact calm_splitAt (Nat.le_of_not_lt enough)

theorem length_of_take {buf : List UInt8} {size : Nat} {parts : List UInt8 × List UInt8}
    (taken : (take buf size).result = .ok parts)
    : parts.1.length = size :=
  (take_eq_ok_iff.mp taken).2

theorem calm_readHeader {tag : UInt8} {other : UInt8 → Failure} {provider : KeyProvider Draw}
    {buf : List UInt8}
    : Calm allowed (readHeader tag other provider buf) := by
  refine .bind calm_take (fun parts taken => ?_)
  refine .bind (calm_byteAt (by rw [length_of_take taken]; exact Nat.one_pos)) (fun _ _ => ?_)
  refine .bind calm_failIf (fun _ _ => ?_)
  refine .bind calm_take (fun parts taken => ?_)
  refine .bind (calm_byteAt (by rw [length_of_take taken]; exact Nat.one_pos)) (fun _ _ => ?_)
  refine .bind calm_take (fun _ _ => ?_)
  refine .bind calm_orRaise (fun _ _ => ?_)
  refine .bind calm_failIf (fun _ _ => ?_)
  refine .bind calm_take (fun parts taken => ?_)
  refine .bind (calm_fromSlice (length_of_take taken)) (fun _ _ => ?_)
  refine .bind calm_take (fun _ _ => ?_)
  exact .bind calm_orRaise (fun _ _ => .pure _)

theorem calm_decryptEnvelopeBytes {cipher : Cipher} {provider : KeyProvider Draw} {blob : List UInt8}
    : Calm allowed (decryptEnvelopeBytes cipher provider blob) := by
  refine .bind calm_readHeader (fun parts _ => ?_)
  refine .bind calm_failIf (fun _ long => ?_)
  have long : 12 ≤ parts.2.length := Nat.le_of_lt (Nat.lt_of_not_le (failIf_eq_ok_iff.mp long))
  refine .bind (calm_splitAt long) (fun halves split => ?_)
  refine .bind (calm_fromSlice (splitAt_eq_ok_iff.mp split).2) (fun _ _ => ?_)
  exact calm_orRaise

theorem calm_newOpener {provider : KeyProvider Draw} {header : List UInt8}
    : Calm allowed (StreamOpener.new provider header) :=
  .bind calm_readHeader (fun _ _ => .pure _)

theorem calm_openChunk {cipher : Cipher} {opener : StreamOpener} {frame : List UInt8}
    : Calm allowed (opener.openChunk cipher frame) := by
  refine .bind calm_failIf (fun _ _ => ?_)
  refine .bind calm_take (fun parts taken => ?_)
  refine .bind (calm_byteAt (by rw [length_of_take taken]; exact Nat.one_pos)) (fun _ _ => ?_)
  refine .bind calm_take (fun parts taken => ?_)
  refine .bind (calm_fromSlice (length_of_take taken)) (fun _ _ => ?_)
  exact .bind calm_orRaise (fun _ _ => .pure _)

end Calm

end Dagron.Crypto
