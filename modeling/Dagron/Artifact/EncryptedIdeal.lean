import Dagron.Artifact.EncryptedReads
import Mathlib.Data.Set.Insert

/-! Where the cipher and the wrapping of keys are ideal: what was put is read back whole by either
reader, and whatever is left in its place is read by both as what it carries, or by neither.
-/

namespace Dagron.Artifact

open Dagron.Library Dagron.Crypto

-- What was put

abbrev Read :=
  { bytes : List UInt8 // 0 < bytes.length ∧ bytes.length ≤ readSize }

/-- How bytes are put: whole, or as a stream, read by read. -/
inductive Form where
  | whole (nonce : Nonce) (content : List UInt8)
  | streamed (nonces : Nat → Nonce) (reads : List Read)

def Form.content : Form → List UInt8
  | .whole _ content => content
  | .streamed _ reads => (reads.map Subtype.val).flatten

/-- The chunks that a stream's reads are sealed as: one that is empty, where there are none. -/
def chunksOf (reads : List (List UInt8)) : List (List UInt8) :=
  if reads = [] then [[]] else reads

/-- What is sealed of bytes that are put: with what nonce, and bound to what. -/
inductive Form.Seals : Form → Nonce → (aad message : List UInt8) → Prop
  | whole (nonce : Nonce) (content : List UInt8)
      : Seals (.whole nonce content) nonce [] content
  | chunk {reads : List Read} {place : Nat} {message : List UInt8} (nonces : Nat → Nonce)
      (there : (chunksOf (reads.map Subtype.val))[place]? = some message)
      : Seals (.streamed nonces reads) (nonces place)
        (chunkAad (UInt32.ofNat place)
          (decide (place + 1 = (chunksOf (reads.map Subtype.val)).length))) message

/-- Bytes that were put, with what was drawn for them. -/
structure Written (Draw : Type) where
  draw
    : Draw
  dek
    : DataKey
  form
    : Form

section Written

variable {Draw : Type} (cipher : Cipher) (provider : KeyProvider Draw)

def Written.write (object : Written Draw) : Except Failure (List UInt8) :=
  match object.form with
  | .whole nonce content => put cipher provider object.draw object.dek nonce content
  | .streamed nonces reads =>
      putStream cipher provider object.draw object.dek nonces (reads.map Subtype.val)

def Written.Opens (object : Written Draw) : Opens :=
  fun nonce aad sealed_ message =>
    object.form.Seals nonce aad message
      ∧ cipher.encrypt object.dek nonce aad message = some sealed_

/-- Stored bytes carry an object's sealings, behind its wrapped key, and what they open as. -/
def Written.Carried (object : Written Draw) (raw content : List UInt8) : Prop :=
  ∃ wrapped, wrapped.length < 256 ^ 4 ∧ provider.unwrap wrapped = some object.dek
    ∧ Carries (utf8 provider.id) wrapped (object.Opens cipher) raw content

end Written

-- Ideal ciphers and wrappings

def maxWrapped : Nat :=
  64 * 1024

/-- A cipher opens what it sealed, and a provider unwraps what it wrapped. -/
structure Sound {Draw : Type} (cipher : Cipher) (provider : KeyProvider Draw) : Prop where
  opens {key : DataKey} {nonce : Nonce} {aad message sealed_ : List UInt8}
    : cipher.encrypt key nonce aad message = some sealed_ →
      cipher.decrypt key nonce aad sealed_ = some message
  overhead {key : DataKey} {nonce : Nonce} {aad message sealed_ : List UInt8}
    : cipher.encrypt key nonce aad message = some sealed_ → sealed_.length = message.length + 16
  unwraps {draw : Draw} {dek : DataKey} {wrapped : List UInt8}
    : provider.wrap draw dek = some wrapped → provider.unwrap wrapped = some dek
  brief {draw : Draw} {dek : DataKey} {wrapped : List UInt8}
    : provider.wrap draw dek = some wrapped → wrapped.length ≤ maxWrapped

/-- A cipher opens what it sealed, and under a key that was drawn nothing else; a provider unwraps
what it wrapped, and nothing but keys that were drawn; no key was drawn twice.
-/
structure Ideal {Draw : Type} (cipher : Cipher) (provider : KeyProvider Draw)
    (written : Set (Written Draw)) : Prop extends Sound cipher provider where
  authentic {object : Written Draw} {nonce : Nonce} {aad message sealed_ : List UInt8}
    : object ∈ written → cipher.decrypt object.dek nonce aad sealed_ = some message →
      ∃ sealer ∈ written, sealer.dek = object.dek ∧ sealer.Opens cipher nonce aad sealed_ message
  fresh {object other : Written Draw}
    : object ∈ written → other ∈ written → object.dek = other.dek → object = other
  genuine {wrapped : List UInt8} {dek : DataKey}
    : provider.unwrap wrapped = some dek → ∃ object ∈ written, object.dek = dek

-- What is written carries what was put

section Carrying

variable {cipher : Cipher} {dek : DataKey} {nonces : Nat → Nonce} {opens : Opens}

/-- What opens covers the chunks of a stream, from an index on. -/
def Covers (cipher : Cipher) (dek : DataKey) (nonces : Nat → Nonce) (opens : Opens) (drawn : Nat)
    (chunks : List (List UInt8)) : Prop :=
  ∀ {place : Nat} {message sealed_ : List UInt8}, chunks[place]? = some message →
    cipher.encrypt dek (nonces (drawn + place))
        (chunkAad (UInt32.ofNat (drawn + place)) (decide (place + 1 = chunks.length))) message
      = some sealed_ →
    opens (nonces (drawn + place))
      (chunkAad (UInt32.ofNat (drawn + place)) (decide (place + 1 = chunks.length))) sealed_ message

theorem Covers.tail {drawn : Nat} {chunk : List UInt8} {rest : List (List UInt8)}
    (covers : Covers cipher dek nonces opens drawn (chunk :: rest))
    : Covers cipher dek nonces opens (drawn + 1) rest := by
  intro place message sealed_ there encrypted
  have next : drawn + 1 + place = drawn + (place + 1) := by omega
  have final : decide (place + 1 = rest.length)
      = decide (place + 1 + 1 = (chunk :: rest).length) := by
    rw [List.length_cons, decide_eq_decide]
    omega
  rw [next, final] at encrypted ⊢
  exact covers (by rwa [List.getElem?_cons_succ]) encrypted

theorem sealChunk_eq_ok {sealer : StreamSealer} {nonce : Nonce} {message frame : List UInt8}
    {isFinal : Bool} {next : StreamSealer}
    (ok : sealer.sealChunk cipher nonce message isFinal = .ok (frame, next))
    : ∃ sealed_, cipher.encrypt sealer.dek nonce (chunkAad sealer.index isFinal) message = some sealed_
        ∧ frame = isFinal.toUInt8 :: nonce.val ++ sealed_
        ∧ next = { sealer with index := sealer.index + 1 } := by
  unfold StreamSealer.sealChunk at ok
  split at ok
  case h_1 => cases ok
  case h_2 sealed_ encrypted =>
    cases ok
    exact ⟨sealed_, encrypted, rfl, rfl⟩

variable (overhead : ∀ {key nonce aad message sealed_},
  cipher.encrypt key nonce aad message = some sealed_ → sealed_.length = message.length + 16)
include overhead

theorem frame_short {nonce : Nonce} {aad message sealed_ : List UInt8} {flag : UInt8}
    (encrypted : cipher.encrypt dek nonce aad message = some sealed_)
    (short : message.length ≤ readSize)
    : (flag :: nonce.val ++ sealed_).length ≤ maxFrameLen := by
  have size := overhead encrypted
  have twelve := nonce.property
  simp only [List.length_cons, List.length_append, List.cons_append, readSize, maxFrameLen]
    at short ⊢
  omega

theorem plays_sealReads_some {drawn : Nat} {previous frames : List UInt8}
    {rest : List (List UInt8)} (covers : Covers cipher dek nonces opens drawn (previous :: rest))
    (short : ∀ message ∈ previous :: rest, message.length ≤ readSize)
    (ok : sealReads cipher nonces drawn ⟨dek, UInt32.ofNat drawn⟩ (some previous) rest = .ok frames)
    : Plays opens (UInt32.ofNat drawn) frames (previous :: rest).flatten := by
  have first := short previous List.mem_cons_self
  induction rest generalizing drawn previous frames with
  | nil =>
      rw [sealReads, bind_eq_ok_iff] at ok
      obtain ⟨⟨frame, next⟩, done, ok⟩ := ok
      cases ok
      obtain ⟨sealed_, encrypted, rfl, -⟩ := sealChunk_eq_ok done
      have opened := @covers 0 _ _ rfl encrypted
      rw [List.flatten_singleton, ← List.append_nil (frameBytes _)]
      exact .last [] (by decide) opened (frame_short overhead encrypted first)
  | cons chunk rest ih =>
      rw [sealReads, bind_eq_ok_iff] at ok
      obtain ⟨⟨frame, next⟩, done, ok⟩ := ok
      obtain ⟨sealed_, encrypted, rfl, rfl⟩ := sealChunk_eq_ok done
      dsimp only at ok
      rw [bind_eq_ok_iff] at ok
      obtain ⟨later, sealedLater, ok⟩ := ok
      cases ok
      have next : UInt32.ofNat drawn + 1 = UInt32.ofNat (drawn + 1) := by
        rw [UInt32.ofNat_add]
        rfl
      rw [next] at sealedLater
      have more : false = decide (0 + 1 = (previous :: chunk :: rest).length) := by simp
      have opened : opens (nonces drawn) (chunkAad (UInt32.ofNat drawn) false) sealed_ previous := by
        rw [more] at encrypted ⊢
        exact @covers 0 _ _ rfl encrypted
      have plays := ih covers.tail (fun message listed => short message (.tail _ listed)) sealedLater
        (short chunk (.tail _ List.mem_cons_self))
      rw [← next] at plays
      exact .more opened (frame_short overhead encrypted first) plays

theorem plays_sealReads {reads : List (List UInt8)} {frames : List UInt8}
    (covers : Covers cipher dek nonces opens 0 (chunksOf reads))
    (short : ∀ message ∈ reads, message.length ≤ readSize)
    (ok : sealReads cipher nonces 0 ⟨dek, 0⟩ none reads = .ok frames)
    : Plays opens 0 frames reads.flatten := by
  cases reads with
  | nil =>
      have empty : ∀ message ∈ [([] : List UInt8)], message.length ≤ readSize := by
        intro message listed
        rw [List.mem_singleton.mp listed]
        exact Nat.zero_le _
      exact plays_sealReads_some overhead covers empty ok
  | cons chunk rest => exact plays_sealReads_some overhead covers short ok

end Carrying

section Reading

variable {Draw : Type} {cipher : Cipher} {provider : KeyProvider Draw} {written : Set (Written Draw)}
  {object : Written Draw} {blob raw content : List UInt8}

theorem wrapHeader_eq_ok {tag : UInt8} {draw : Draw} {dek : DataKey} {header : List UInt8}
    (ok : wrapHeader tag provider draw dek = .ok header)
    : ∃ wrapped, provider.wrap draw dek = some wrapped
        ∧ header = headerBytes tag (utf8 provider.id) wrapped := by
  unfold wrapHeader at ok
  split at ok
  case h_1 => cases ok
  case h_2 wrapped wraps =>
    cases ok
    exact ⟨wrapped, wraps, rfl⟩

theorem checkId_eq_ok (ok : checkId provider = .ok ())
    : (utf8 provider.id).length ≤ 255 := by
  unfold checkId at ok
  split at ok
  case isTrue => cases ok
  case isFalse short => exact Nat.le_of_not_lt short

theorem header_short {tag : UInt8} {wrapped : List UInt8} (named : (utf8 provider.id).length ≤ 255)
    (brief : wrapped.length ≤ maxWrapped)
    : (headerBytes tag (utf8 provider.id) wrapped ++ []).length ≤ maxFrameLen := by
  simp only [headerBytes, List.append_nil, List.length_cons, List.length_append, List.cons_append,
    length_littleEndian, maxWrapped, maxFrameLen] at brief ⊢
  omega

theorem Written.carried_of_write (sound : Sound cipher provider)
    (stored : object.write cipher provider = .ok blob)
    : (utf8 provider.id).length ≤ 255 ∧ object.Carried cipher provider blob object.form.content := by
  obtain ⟨draw, dek, form⟩ := object
  cases form with
  | whole nonce content =>
      simp only [Written.write, put, encryptEnvelopeBytes, bind_eq_ok_iff] at stored
      obtain ⟨_, checked, payload, sealed_, header, wrote, ok⟩ := stored
      obtain ⟨wrapped, wraps, rfl⟩ := wrapHeader_eq_ok wrote
      cases ok
      unfold seal_ at sealed_
      split at sealed_
      case h_1 => cases sealed_
      case h_2 bytes encrypted =>
        cases sealed_
        have size := sound.overhead encrypted
        have some_ : bytes ≠ [] := by
          rintro rfl
          cases size
        refine ⟨checkId_eq_ok checked, wrapped, ?_, sound.unwraps wraps,
          .whole some_ ⟨.whole nonce content, encrypted⟩⟩
        exact Nat.lt_of_le_of_lt (sound.brief wraps) (by decide)
  | streamed nonces reads =>
      simp only [Written.write, putStream, StreamSealer.new, bind_eq_ok_iff, Prod.exists] at stored
      obtain ⟨_, _, ⟨_, checked, header, wrote, new⟩, frames, sealed_, ok⟩ := stored
      obtain ⟨wrapped, wraps, rfl⟩ := wrapHeader_eq_ok wrote
      cases new
      cases ok
      have named := checkId_eq_ok checked
      refine ⟨named, wrapped, Nat.lt_of_le_of_lt (sound.brief wraps) (by decide), sound.unwraps wraps, ?_⟩
      rw [← List.append_nil (headerBytes _ _ _)]
      refine .stream [] (header_short named (sound.brief wraps)) ?_
      have covers : Covers cipher dek nonces (Written.Opens cipher ⟨draw, dek, .streamed nonces reads⟩)
          0 (chunksOf (reads.map Subtype.val)) := by
        intro place message bytes there encrypted
        rw [Nat.zero_add] at encrypted ⊢
        exact ⟨.chunk nonces there, encrypted⟩
      refine plays_sealReads sound.overhead covers ?_ sealed_
      intro message listed
      obtain ⟨read, _, rfl⟩ := List.mem_map.mp listed
      exact read.property.2

theorem readable_iff_carried (ideal : Ideal cipher provider written)
    (named : (utf8 provider.id).length ≤ 255)
    : Readable cipher provider raw content
      ↔ ∃ other ∈ written, other.Carried cipher provider raw content := by
  constructor
  · rintro ⟨wrapped, dek, _, small, unwraps, carries⟩
    obtain ⟨other, among, rfl⟩ := ideal.genuine unwraps
    refine ⟨other, among, wrapped, small, unwraps, carries.mono ?_⟩
    intro nonce aad sealed_ message opened
    obtain ⟨sealer, listed, same, opens⟩ := ideal.authentic among opened
    rwa [ideal.fresh listed among same] at opens
  · rintro ⟨other, _, wrapped, small, unwraps, carries⟩
    exact ⟨wrapped, other.dek, named, small, unwraps, carries.mono (fun opened => ideal.opens opened.2)⟩

end Reading

-- What an object's own sealings carry

section Own

theorem chunkAad_inj {index other : UInt32} {isFinal isLast : Bool}
    (same : chunkAad index isFinal = chunkAad other isLast)
    : index = other ∧ isFinal = isLast := by
  obtain ⟨bytes, flags⟩ := List.append_inj' same rfl
  have small (number : UInt32) : number.toNat < 256 ^ 4 := number.toNat_lt
  have numbers := congrArg ofLittleEndian bytes
  rw [ofLittleEndian_littleEndian, ofLittleEndian_littleEndian,
    Nat.mod_eq_of_lt (small index), Nat.mod_eq_of_lt (small other)] at numbers
  refine ⟨UInt32.toNat_inj.mp numbers, ?_⟩
  cases isFinal <;> cases isLast <;> first | rfl | cases flags

/-- What is sealed of a stream, bound to an index within its chunks, is the chunk there, where no
two of its chunks have one index.
-/
theorem Form.Seals.chunk_there {nonces : Nat → Nonce} {reads : List Read} {nonce : Nonce}
    {place : Nat} {isFinal : Bool} {message : List UInt8}
    (few : (chunksOf (reads.map Subtype.val)).length ≤ 2 ^ 32)
    (within : place < (chunksOf (reads.map Subtype.val)).length)
    (seals : (Form.streamed nonces reads).Seals nonce (chunkAad (UInt32.ofNat place) isFinal) message)
    : (chunksOf (reads.map Subtype.val))[place]? = some message
      ∧ isFinal = decide (place + 1 = (chunksOf (reads.map Subtype.val)).length) := by
  generalize bound : chunkAad (UInt32.ofNat place) isFinal = aad at seals
  cases seals with
  | @chunk _ other _ _ there =>
      obtain ⟨index, flag⟩ := chunkAad_inj bound
      have before := (List.getElem?_eq_some_iff.mp there).1
      have indices := congrArg UInt32.toNat index
      rw [UInt32.toNat_ofNat', UInt32.toNat_ofNat', Nat.mod_eq_of_lt (by omega),
        Nat.mod_eq_of_lt (by omega)] at indices
      subst indices
      exact ⟨there, flag⟩

variable {Draw : Type} {cipher : Cipher} {provider : KeyProvider Draw}

/-- Frames of a stream's own sealings play its chunks from an index to the last, by induction on the
frames.
-/
theorem Plays.own {draw : Draw} {dek : DataKey} {nonces : Nat → Nonce} {reads : List Read}
    {index : UInt32} {place : Nat} {frames content : List UInt8}
    (few : (chunksOf (reads.map Subtype.val)).length ≤ 2 ^ 32)
    (within : place < (chunksOf (reads.map Subtype.val)).length)
    (plays : Plays (Written.Opens cipher ⟨draw, dek, .streamed nonces reads⟩) index frames content)
    (at_ : index = UInt32.ofNat place)
    : content = ((chunksOf (reads.map Subtype.val)).drop place).flatten := by
  induction plays generalizing place with
  | last tail final opened short =>
      subst at_
      obtain ⟨there, last⟩ := opened.1.chunk_there few within
      have ends : place + 1 = (chunksOf (reads.map Subtype.val)).length := of_decide_eq_true last.symm
      rw [List.drop_eq_getElem_cons within, ends, List.drop_length, (List.getElem?_eq_some_iff.mp there).2]
      exact (List.append_nil _).symm
  | more opened short rest ih =>
      subst at_
      obtain ⟨there, more⟩ := opened.1.chunk_there few within
      have goes : place + 1 ≠ (chunksOf (reads.map Subtype.val)).length :=
        of_decide_eq_false more.symm
      have later := @ih (place + 1) (by omega) (by rw [UInt32.ofNat_add]; rfl)
      rw [List.drop_eq_getElem_cons within, (List.getElem?_eq_some_iff.mp there).2, later]
      rfl

theorem flatten_chunksOf (reads : List (List UInt8))
    : (chunksOf reads).flatten = reads.flatten := by
  unfold chunksOf
  split
  case isTrue empty =>
    subst empty
    rfl
  case isFalse => rfl

def Form.Few : Form → Prop
  | .whole _ _ => True
  | .streamed _ reads => (chunksOf (reads.map Subtype.val)).length ≤ 2 ^ 32

theorem Plays.opens_first {opens : Opens} {index : UInt32} {frames content : List UInt8}
    (plays : Plays opens index frames content)
    : ∃ nonce isFinal sealed_ message, opens nonce (chunkAad index isFinal) sealed_ message := by
  cases plays with
  | last tail final opened short | more opened short rest => exact ⟨_, _, _, _, opened⟩

theorem Form.Seals.whole_unbound {nonce other : Nonce} {content aad message : List UInt8}
    (seals : (Form.whole nonce content).Seals other aad message)
    : aad = [] := by
  cases seals
  rfl

theorem chunkAad_ne_nil (index : UInt32) (isFinal : Bool)
    : chunkAad index isFinal ≠ [] :=
  List.append_ne_nil_of_right_ne_nil _ (List.cons_ne_nil _ _)

/-- An object of so few chunks that no two have one index is all that its own sealings carry. -/
theorem Written.Carried.own {object : Written Draw} {raw content : List UInt8}
    (few : object.form.Few) (carried : object.Carried cipher provider raw content)
    : content = object.form.content := by
  obtain ⟨draw, dek, form⟩ := object
  obtain ⟨wrapped, _, _, carries⟩ := carried
  cases carries with
  | whole some_ opened =>
      generalize bound : ([] : List UInt8) = aad at opened
      cases opened.1 with
      | whole nonce content => rfl
      | chunk nonces there => cases bound
  | stream junk short plays =>
      cases form with
      | whole nonce content =>
          obtain ⟨_, _, _, _, opened⟩ := plays.opens_first
          exact absurd opened.1.whole_unbound (chunkAad_ne_nil _ _)
      | streamed nonces reads =>
          have some_ : 0 < (chunksOf (reads.map Subtype.val)).length := by
            unfold chunksOf
            split
            case isTrue => exact Nat.one_pos
            case isFalse some_ => exact List.length_pos_iff.mpr some_
          rw [plays.own few some_ rfl, List.drop_zero, flatten_chunksOf]
          rfl

end Own

end Dagron.Artifact
