import Dagron.Artifact.EncryptedIdeal

/-! What the encrypting store reads: an object whole or not at all, by either reader; but where the
object is cut to nothing one refuses it, and the other reads it as empty.
-/

namespace Dagron.Artifact

open Dagron.Library Dagron.Crypto

section Both

variable {Draw : Type} (cipher : Cipher) (provider : KeyProvider Draw)

/-- Both readers read what is stored, to its end, as a content. -/
def BothRead (raw content : List UInt8) : Prop :=
  (get cipher provider raw).result = .ok content
    ∧ readToEnd (getStream cipher provider raw) = some content

def BothRefuse (raw : List UInt8) : Prop :=
  (∃ fault, (get cipher provider raw).result = .error fault)
    ∧ readToEnd (getStream cipher provider raw) = none

/-- No buffer is made for a frame that is longer than a frame may be. -/
def Act.Bounded : Act → Prop
  | .allocate size => size ≤ maxFrameLen
  | .give _ => True

variable {cipher provider} {raw content : List UInt8}

theorem bothRead_iff
    : BothRead cipher provider raw content ↔ Readable cipher provider raw content := by
  rw [BothRead, get_eq_ok_iff]
  constructor
  · exact And.left
  · intro readable
    have some_ : raw ≠ [] := by
      obtain ⟨_, _, _, _, _, carries⟩ := readable
      exact carries.ne_nil
    exact ⟨readable, (readToEnd_getStream_eq_some_iff some_).mpr readable⟩

theorem bothRefuse_iff (some_ : raw ≠ [])
    : BothRefuse cipher provider raw ↔ ∀ content, ¬ Readable cipher provider raw content := by
  constructor
  · rintro ⟨_, refused⟩ content readable
    rw [(readToEnd_getStream_eq_some_iff some_).mpr readable] at refused
    cases refused
  · intro nothing
    constructor
    · cases came : (get cipher provider raw).result with
      | error fault => exact ⟨fault, rfl⟩
      | ok content => exact absurd (get_eq_ok_iff.mp came) (nothing content)
    · cases came : readToEnd (getStream cipher provider raw) with
      | none => rfl
      | some content =>
          exact absurd ((readToEnd_getStream_eq_some_iff some_).mp came) (nothing content)

theorem nothing_read_apart
    : ¬ (BothRefuse cipher provider [] ∨ BothRead cipher provider [] content) := by
  rintro (⟨_, refused⟩ | ⟨read, _⟩)
  · cases refused
  · exact absurd rfl (get_eq_ok_iff.mp read).choose_spec.choose_spec.2.2.2.ne_nil

end Both

/-- With an ideal cipher and ideal wrapping, what is put is read back whole by both readers.
Whatever else is left in its place, neither goes down or makes a buffer beyond a frame's bound; and
they both refuse it or both read the object's content exactly where it is not empty, and carries no
other content of sealings that were written; its own carry none, where no two of its chunks have one
index.
-/
theorem encrypted_reads_whole_or_not {Draw : Type} {cipher : Cipher} {provider : KeyProvider Draw}
    {written : Set (Written Draw)} (ideal : Ideal cipher provider written) {object : Written Draw}
    (among : object ∈ written) {blob : List UInt8}
    (stored : object.write cipher provider = .ok blob)
    : BothRead cipher provider blob object.form.content
      ∧ ∀ raw, (Calm Act.Bounded (get cipher provider raw)
          ∧ Calm Act.Bounded (getStream cipher provider raw))
        ∧ ((BothRefuse cipher provider raw ∨ BothRead cipher provider raw object.form.content)
          ↔ raw ≠ [] ∧ ∀ other ∈ written, ∀ content, other.Carried cipher provider raw content →
            content = object.form.content)
        ∧ (object.form.Few → ∀ content, object.Carried cipher provider raw content →
          content = object.form.content) := by
  obtain ⟨named, carried⟩ := Written.carried_of_write ideal.toSound stored
  constructor
  · rw [bothRead_iff, readable_iff_carried ideal named]
    exact ⟨object, among, carried⟩
  · intro raw
    refine ⟨⟨calm_get (fun _ short => short), calm_getStream (fun _ short => short)
      (fun _ => trivial)⟩, ?_, fun few _ own => own.own few⟩
    constructor
    · intro agree
      have some_ : raw ≠ [] := by
        rintro rfl
        exact nothing_read_apart agree
      refine ⟨some_, ?_⟩
      intro other listed content carries
      have readable := (readable_iff_carried ideal named).mpr ⟨other, listed, carries⟩
      rcases agree with refused | read
      · exact absurd readable ((bothRefuse_iff some_).mp refused content)
      · have same := get_eq_ok_iff.mpr readable
        rw [read.1] at same
        exact (Except.ok.inj same).symm
    · rintro ⟨some_, only⟩
      by_cases any : ∃ content, Readable cipher provider raw content
      · obtain ⟨content, readable⟩ := any
        obtain ⟨other, listed, carries⟩ := (readable_iff_carried ideal named).mp readable
        rw [only other listed content carries] at readable
        exact .inr (bothRead_iff.mpr readable)
      · exact .inl ((bothRefuse_iff some_).mpr (not_exists.mp any))

-- A stream of two reads

section TwoReads

/-- One sealing of a cipher. -/
structure Sealing where
  key
    : DataKey
  nonce
    : Nonce
  aad
    : List UInt8
  message
    : List UInt8
  sealed_
    : List UInt8

def ofSealings (table : List Sealing) : Cipher where
  encrypt key nonce aad message :=
    (table.find? (fun entry =>
      entry.key = key ∧ entry.nonce = nonce ∧ entry.aad = aad ∧ entry.message = message)).map
      Sealing.sealed_
  decrypt key nonce aad sealed_ :=
    (table.find? (fun entry =>
      entry.key = key ∧ entry.nonce = nonce ∧ entry.aad = aad ∧ entry.sealed_ = sealed_)).map
      Sealing.message

variable {table : List Sealing} {key : DataKey} {nonce : Nonce} {aad message sealed_ : List UInt8}

theorem ofSealings_encrypt (done : (ofSealings table).encrypt key nonce aad message = some sealed_)
    : ⟨key, nonce, aad, message, sealed_⟩ ∈ table := by
  obtain ⟨entry, found, rfl⟩ := Option.map_eq_some_iff.mp done
  have same := List.find?_some found
  rw [decide_eq_true_eq] at same
  obtain ⟨rfl, rfl, rfl, rfl⟩ := same
  exact List.mem_of_find?_eq_some found

theorem ofSealings_decrypt (done : (ofSealings table).decrypt key nonce aad sealed_ = some message)
    : ⟨key, nonce, aad, message, sealed_⟩ ∈ table := by
  obtain ⟨entry, found, rfl⟩ := Option.map_eq_some_iff.mp done
  have same := List.find?_some found
  rw [decide_eq_true_eq] at same
  obtain ⟨rfl, rfl, rfl, rfl⟩ := same
  exact List.mem_of_find?_eq_some found

/-- A cipher of sealings is sound where each opens as what it was sealed of, and a provider that
wraps under a key of its own is with it.
-/
theorem sound_ofSealings {kek : DataKey} {id : String}
    (opens : ∀ entry ∈ table,
      (ofSealings table).decrypt entry.key entry.nonce entry.aad entry.sealed_ = some entry.message)
    (overhead : ∀ entry ∈ table, entry.sealed_.length = entry.message.length + 16)
    : Sound (ofSealings table) (localKekProvider (ofSealings table) kek id) where
  opens done := opens _ (ofSealings_encrypt done)
  overhead done := overhead _ (ofSealings_encrypt done)
  unwraps {draw dek wrapped} wraps := by
    obtain ⟨sealed_, encrypted, rfl⟩ := localKekProvider_wrap_eq_some_iff.mp wraps
    have listed := ofSealings_encrypt encrypted
    refine localKekProvider_unwrap_eq_some_iff.mpr ⟨draw, sealed_, rfl, ?_, opens _ listed⟩
    rintro rfl
    cases overhead _ listed
  brief {draw dek wrapped} wraps := by
    obtain ⟨sealed_, encrypted, rfl⟩ := localKekProvider_wrap_eq_some_iff.mp wraps
    have size := overhead _ (ofSealings_encrypt encrypted)
    rw [List.length_append, draw.property, size, dek.property]
    decide

def repeated (size : Nat) (byte : UInt8) : Block size :=
  ⟨List.replicate size byte, List.length_replicate⟩

def counted (drawn : Nat) : Nonce :=
  repeated 12 (UInt8.ofNat (drawn + 1))

def twoReads : Written Nonce where
  draw :=
    repeated 12 0
  dek :=
    repeated 32 1
  form :=
    .streamed counted [⟨[104, 105], by decide⟩, ⟨[33], by decide⟩]

def sealedKey : Sealing where
  key :=
    repeated 32 7
  nonce :=
    repeated 12 0
  aad :=
    []
  message :=
    List.replicate 32 1
  sealed_ :=
    [96, 217, 165, 179, 250, 147, 10, 233, 224, 6, 142, 101, 197, 122, 74, 175, 188, 238, 168, 248,
      114, 221, 170, 90, 23, 20, 129, 201, 78, 232, 27, 103, 36, 209, 230, 6, 145, 245, 3, 197, 150,
      121, 105, 8, 138, 252, 1, 137]

def firstChunk : Sealing where
  key :=
    repeated 32 1
  nonce :=
    repeated 12 1
  aad :=
    [0, 0, 0, 0, 0]
  message :=
    [104, 105]
  sealed_ :=
    [218, 16, 147, 201, 187, 89, 142, 103, 116, 83, 224, 2, 225, 24, 54, 173, 78, 124]

def lastChunk : Sealing where
  key :=
    repeated 32 1
  nonce :=
    repeated 12 2
  aad :=
    [1, 0, 0, 0, 1]
  message :=
    [33]
  sealed_ :=
    [38, 183, 154, 18, 218, 241, 30, 17, 104, 2, 68, 185, 145, 202, 242, 101, 47]

def twoReadsSealings : List Sealing :=
  [sealedKey, firstChunk, lastChunk]

theorem mem_twoReadsSealings {entry : Sealing}
    : entry ∈ twoReadsSealings ↔ entry = sealedKey ∨ entry = firstChunk ∨ entry = lastChunk := by
  simp [twoReadsSealings]

def twoReadsCipher : Cipher :=
  ofSealings twoReadsSealings

def twoReadsProvider : KeyProvider Nonce :=
  localKekProvider twoReadsCipher (repeated 32 7) "local"

theorem ideal_twoReads
    : Ideal twoReadsCipher twoReadsProvider {twoReads} := by
  have seals : ∀ entry ∈ twoReadsSealings,
      twoReadsCipher.encrypt entry.key entry.nonce entry.aad entry.message = some entry.sealed_ := by
    decide
  have apart : sealedKey.key ≠ twoReads.dek := by decide
  constructor
  case toSound => exact sound_ofSealings (by decide) (by decide)
  case authentic =>
    intro object nonce aad message sealed_ among opened
    obtain rfl := Set.mem_singleton_iff.mp among
    have listed := ofSealings_decrypt opened
    refine ⟨twoReads, rfl, rfl, ?_, seals _ listed⟩
    rcases mem_twoReadsSealings.mp listed with same | same | same
    · exact absurd (congrArg Sealing.key same).symm apart
    · obtain ⟨-, rfl, rfl, rfl, -⟩ := Sealing.mk.inj same
      exact @Form.Seals.chunk _ 0 _ counted rfl
    · obtain ⟨-, rfl, rfl, rfl, -⟩ := Sealing.mk.inj same
      exact @Form.Seals.chunk _ 1 _ counted rfl
  case fresh =>
    intro object other among listed _
    exact (Set.mem_singleton_iff.mp among).trans (Set.mem_singleton_iff.mp listed).symm
  case genuine =>
    intro wrapped dek unwraps
    obtain ⟨nonce, sealed_, rfl, _, opened⟩ := localKekProvider_unwrap_eq_some_iff.mp unwraps
    refine ⟨twoReads, rfl, Subtype.ext ?_⟩
    rcases mem_twoReadsSealings.mp (ofSealings_decrypt opened) with same | same | same
    · exact (congrArg Sealing.message same).symm
    · exact absurd (congrArg Sealing.key same) apart
    · exact absurd (congrArg Sealing.key same) apart

def twoReadsBlob : List UInt8 :=
  3 :: frameBytes (headerBytes 3 (utf8 "local") ((repeated 12 0).val ++ sealedKey.sealed_))
    ++ frameBytes (0 :: firstChunk.nonce.val ++ firstChunk.sealed_)
    ++ frameBytes (1 :: lastChunk.nonce.val ++ lastChunk.sealed_)

theorem write_twoReads
    : twoReads.write twoReadsCipher twoReadsProvider = .ok twoReadsBlob := by
  rfl

/-- A stream of two reads is read back whole by both readers. -/
theorem encrypted_reads_whole_or_not_twoReads
    : BothRead twoReadsCipher twoReadsProvider twoReadsBlob [104, 105, 33] :=
  (encrypted_reads_whole_or_not ideal_twoReads rfl write_twoReads).1

/-- Cut to nothing, it is refused by one reader, and read as empty by the other. -/
theorem not_encrypted_reads_whole_or_not
    : Ideal twoReadsCipher twoReadsProvider {twoReads}
      ∧ twoReads.write twoReadsCipher twoReadsProvider = .ok twoReadsBlob
      ∧ (get twoReadsCipher twoReadsProvider []).result = .error (.failed (.truncatedEnvelope 1 0))
      ∧ readToEnd (getStream twoReadsCipher twoReadsProvider []) = some []
      ∧ ¬ (BothRefuse twoReadsCipher twoReadsProvider []
        ∨ BothRead twoReadsCipher twoReadsProvider [] [104, 105, 33]) :=
  ⟨ideal_twoReads, write_twoReads, rfl, rfl, nothing_read_apart⟩

end TwoReads

end Dagron.Artifact
