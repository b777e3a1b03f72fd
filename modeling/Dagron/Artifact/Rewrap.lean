import Dagron.Artifact.EncryptedIdeal

/-! Wrapping the key of a stored object anew: what is read of it under the new key is what was read
under the old one.
-/

namespace Dagron.Artifact

open Dagron.Library Dagron.Crypto

/-- Wraps the data key of what is stored anew, put whole or as a stream. -/
def rewrap {Draw : Type} (from_ new : KeyProvider Draw) (draw : Draw) (raw : List UInt8)
    : Reading (List UInt8) :=
  if raw.head? = some streamBlobTag then rotateStreamBlob from_ new draw raw
  else rewrapEnvelopeBytes from_ new draw raw

-- Headers and what they lead

/-- What a wrapped key leads: a payload, or the frames of a stream. -/
inductive Body where
  | whole (payload : List UInt8)
  | stream (frames : List UInt8)

def Body.Holds (opens : Opens) : Body → List UInt8 → Prop
  | .whole payload, content =>
      ∃ nonce sealed_, payload = nonce.val ++ sealed_ ∧ sealed_ ≠ [] ∧ opens nonce [] sealed_ content
  | .stream frames, content => Plays opens 0 frames content

/-- Stored bytes that are a body behind a header. -/
inductive Behind (id wrapped : List UInt8) : Body → List UInt8 → Prop
  | whole (payload : List UInt8)
      : Behind id wrapped (.whole payload) (headerBytes envelopeBinTag id wrapped ++ payload)
  | stream (frames junk : List UInt8)
      (short : (headerBytes streamTag id wrapped ++ junk).length ≤ maxFrameLen)
      : Behind id wrapped (.stream frames)
        (streamBlobTag :: (frameBytes (headerBytes streamTag id wrapped ++ junk) ++ frames))

theorem carries_iff {id wrapped raw content : List UInt8} {opens : Opens}
    : Carries id wrapped opens raw content
      ↔ ∃ body, Behind id wrapped body raw ∧ body.Holds opens content := by
  constructor
  · intro carries
    cases carries with
    | whole some_ opened => exact ⟨_, .whole _, _, _, rfl, some_, opened⟩
    | stream junk short plays => exact ⟨_, .stream _ junk short, plays⟩
  · rintro ⟨body, behind, holds⟩
    cases behind with
    | whole payload =>
        obtain ⟨nonce, sealed_, rfl, some_, opened⟩ := holds
        exact .whole some_ opened
    | stream frames junk short => exact .stream junk short holds

theorem lengthened_inj {first second rest tail : List UInt8} (small : first.length < 256 ^ 4)
    (small' : second.length < 256 ^ 4)
    (same : littleEndian 4 first.length ++ (first ++ rest)
      = littleEndian 4 second.length ++ (second ++ tail))
    : first = second ∧ rest = tail := by
  obtain ⟨lengths, bytes⟩ := List.append_inj same (by rw [length_littleEndian, length_littleEndian])
  have sizes := congrArg ofLittleEndian lengths
  rw [ofLittleEndian_littleEndian, ofLittleEndian_littleEndian, Nat.mod_eq_of_lt small,
    Nat.mod_eq_of_lt small'] at sizes
  exact List.append_inj bytes sizes

theorem frameBytes_inj {first second rest tail : List UInt8} (short : first.length ≤ maxFrameLen)
    (short' : second.length ≤ maxFrameLen)
    (same : frameBytes first ++ rest = frameBytes second ++ tail)
    : first = second ∧ rest = tail := by
  rw [frameBytes, frameBytes, List.append_assoc, List.append_assoc] at same
  exact lengthened_inj (Nat.lt_of_le_of_lt short (by decide)) (Nat.lt_of_le_of_lt short' (by decide)) same

theorem headerBytes_inj {tag : UInt8} {id other wrapped rewrapped rest tail : List UInt8}
    (named : id.length ≤ 255) (named' : other.length ≤ 255) (small : wrapped.length < 256 ^ 4)
    (small' : rewrapped.length < 256 ^ 4)
    (same : headerBytes tag id wrapped ++ rest = headerBytes tag other rewrapped ++ tail)
    : id = other ∧ wrapped = rewrapped ∧ rest = tail := by
  simp only [headerBytes, List.cons_append, List.append_assoc, List.cons.injEq, true_and] at same
  obtain ⟨length, bytes⟩ := same
  have sizes := congrArg UInt8.toNat length
  rw [UInt8.toNat_ofNat', UInt8.toNat_ofNat', Nat.mod_eq_of_lt (by omega),
    Nat.mod_eq_of_lt (by omega)] at sizes
  obtain ⟨ids, bytes⟩ := List.append_inj bytes sizes
  exact ⟨ids, lengthened_inj small small' bytes⟩

theorem Behind.unique {id other wrapped rewrapped raw : List UInt8} {body body' : Body}
    (behind : Behind id wrapped body raw) (behind' : Behind other rewrapped body' raw)
    (named : id.length ≤ 255) (named' : other.length ≤ 255) (small : wrapped.length < 256 ^ 4)
    (small' : rewrapped.length < 256 ^ 4)
    : id = other ∧ wrapped = rewrapped ∧ body = body' := by
  cases behind with
  | whole payload =>
      generalize bytes : headerBytes envelopeBinTag id wrapped ++ payload = raw at behind'
      cases behind' with
      | whole payload' =>
          obtain ⟨ids, keys, rfl⟩ := headerBytes_inj named named' small small' bytes
          exact ⟨ids, keys, rfl⟩
      | stream => cases bytes
  | stream frames junk short =>
      generalize bytes : streamBlobTag :: (frameBytes (headerBytes streamTag id wrapped ++ junk)
        ++ frames) = raw at behind'
      cases behind' with
      | whole => cases bytes
      | stream frames' junk' short' =>
          obtain ⟨headers, rfl⟩ := frameBytes_inj short short' (List.cons.inj bytes).2
          obtain ⟨ids, keys, _⟩ := headerBytes_inj named named' small small' headers
          exact ⟨ids, keys, rfl⟩

-- What is wrapped anew

section Rewrapped

variable {Draw : Type} {cipher : Cipher} {old new : KeyProvider Draw} {draw : Draw}
  {raw rotated content : List UInt8}

theorem readable_iff_behind
    : Readable cipher old raw content
      ↔ ∃ wrapped dek body, (utf8 old.id).length ≤ 255 ∧ wrapped.length < 256 ^ 4
        ∧ old.unwrap wrapped = some dek ∧ Behind (utf8 old.id) wrapped body raw
        ∧ body.Holds (decrypts cipher dek) content := by
  simp only [Readable, carries_iff]
  constructor
  · rintro ⟨wrapped, dek, named, small, unwraps, body, behind, holds⟩
    exact ⟨wrapped, dek, body, named, small, unwraps, behind, holds⟩
  · rintro ⟨wrapped, dek, body, named, small, unwraps, behind, holds⟩
    exact ⟨wrapped, dek, named, small, unwraps, body, behind, holds⟩

/-- What is wrapped anew is the same body, behind a header of the same data key. -/
structure Rewrapped (old new : KeyProvider Draw) (raw rotated : List UInt8) (wrapped : List UInt8)
    (dek : DataKey) (body : Body) : Prop where
  named
    : (utf8 old.id).length ≤ 255
  small
    : wrapped.length < 256 ^ 4
  unwraps
    : old.unwrap wrapped = some dek
  behind
    : Behind (utf8 old.id) wrapped body raw
  named'
    : (utf8 new.id).length ≤ 255
  rewraps
    : ∃ draw rewrapped, new.wrap draw dek = some rewrapped
      ∧ (rewrapped.length ≤ maxWrapped → Behind (utf8 new.id) rewrapped body rotated)

theorem rewrapEnvelopeBytes_eq_ok (ok : (rewrapEnvelopeBytes old new draw raw).result = .ok rotated)
    : ∃ wrapped dek body, Rewrapped old new raw rotated wrapped dek body := by
  simp only [rewrapEnvelopeBytes, Traced.result_bind, bind_eq_ok_iff, Prod.exists,
    readHeader_eq_ok_iff, failIf_eq_ok_iff, orRaise_eq_ok_iff, Traced.result_pure, Except.ok.injEq]
    at ok
  obtain ⟨_, long, dek, payload, ⟨wrapped, rfl, named, small, unwraps⟩, rewrapped, wraps, rfl⟩ := ok
  exact ⟨wrapped, dek, .whole payload, named, small, unwraps, .whole payload, Nat.le_of_not_lt long,
    draw, rewrapped, wraps, fun _ => .whole payload⟩

theorem rotateStreamBlob_eq_ok (ok : (rotateStreamBlob old new draw raw).result = .ok rotated)
    : ∃ wrapped dek body, Rewrapped old new raw rotated wrapped dek body := by
  rw [rotateStreamBlob, Traced.result_bind, bind_eq_ok_iff] at ok
  obtain ⟨cur, tagged, ok⟩ := ok
  have tagged := orRaise_eq_ok_iff.mp tagged
  obtain ⟨streamed, rfl⟩ : raw.head? = some streamBlobTag ∧ raw.tail = cur := by simpa using tagged
  obtain ⟨rest, rfl⟩ := List.head?_eq_some_iff.mp streamed
  rw [Traced.result_bind, bind_eq_ok_iff] at ok
  obtain ⟨next, read, ok⟩ := ok
  cases next with
  | none => cases ok
  | some parts =>
      obtain ⟨header, frames⟩ := parts
      obtain ⟨short, rfl⟩ := readFrameSync_eq_some_iff.mp read
      simp only [rewrapStreamHeader, Traced.result_bind, bind_eq_ok_iff, Prod.exists,
        readHeader_eq_ok_iff, failIf_eq_ok_iff, orRaise_eq_ok_iff, Traced.result_pure,
        Except.ok.injEq] at ok
      obtain ⟨_, ⟨_, long, dek, junk, ⟨wrapped, rfl, named, small, unwraps⟩, rewrapped, wraps, rfl⟩,
        rfl⟩ := ok
      have named' := Nat.le_of_not_lt long
      refine ⟨wrapped, dek, .stream frames, named, small, unwraps, .stream frames junk short, named',
        draw, rewrapped, wraps, ?_⟩
      intro brief
      have bare := List.append_nil (headerBytes streamTag (utf8 new.id) rewrapped)
      rw [← bare]
      exact .stream frames [] (header_short named' brief)

theorem rewrap_eq_ok (ok : (rewrap old new draw raw).result = .ok rotated)
    : ∃ wrapped dek body, Rewrapped old new raw rotated wrapped dek body := by
  unfold rewrap at ok
  split at ok
  · exact rotateStreamBlob_eq_ok ok
  · exact rewrapEnvelopeBytes_eq_ok ok

theorem readable_rewrap_iff (sound : Sound cipher new) (ok : (rewrap old new draw raw).result = .ok rotated)
    : Readable cipher new rotated content ↔ Readable cipher old raw content := by
  obtain ⟨wrapped, dek, body, rewrapped⟩ := rewrap_eq_ok ok
  obtain ⟨draw, key, wraps, behind⟩ := rewrapped.rewraps
  have brief := sound.brief wraps
  have behind := behind brief
  have fits : key.length < 256 ^ 4 := Nat.lt_of_le_of_lt brief (by decide)
  have unwraps := sound.unwraps wraps
  simp only [readable_iff_behind]
  constructor
  · rintro ⟨_, _, _, _, small, unwraps', behind', holds⟩
    obtain ⟨_, rfl, rfl⟩ := behind.unique behind' rewrapped.named' rewrapped.named' fits small
    obtain rfl := Option.some.inj (unwraps.symm.trans unwraps')
    exact ⟨wrapped, dek, body, rewrapped.named, rewrapped.small, rewrapped.unwraps, rewrapped.behind, holds⟩
  · rintro ⟨_, _, _, named, small, unwraps', behind', holds⟩
    obtain ⟨_, rfl, rfl⟩ := rewrapped.behind.unique behind' named named rewrapped.small small
    obtain rfl := Option.some.inj (rewrapped.unwraps.symm.trans unwraps')
    exact ⟨key, dek, body, rewrapped.named', fits, unwraps, behind, holds⟩

/-- What is read under one key, and wrapped anew from another, is read under the other, where they
unwrap nothing apart.
-/
theorem readable_of_rewrap {other : KeyProvider Draw}
    (agree : ∀ {wrapped dek dek'}, other.unwrap wrapped = some dek →
      old.unwrap wrapped = some dek' → dek = dek')
    (ok : (rewrap old new draw raw).result = .ok rotated)
    (readable : Readable cipher other raw content)
    : Readable cipher old raw content := by
  obtain ⟨wrapped, dek, body, rewrapped⟩ := rewrap_eq_ok ok
  obtain ⟨_, _, _, named, small, unwraps, behind, holds⟩ := readable_iff_behind.mp readable
  obtain ⟨_, rfl, rfl⟩ :=
    behind.unique rewrapped.behind named rewrapped.named small rewrapped.small
  obtain rfl := agree unwraps rewrapped.unwraps
  exact readable_iff_behind.mpr
    ⟨_, _, _, rewrapped.named, small, rewrapped.unwraps, rewrapped.behind, holds⟩

end Rewrapped

end Dagron.Artifact
