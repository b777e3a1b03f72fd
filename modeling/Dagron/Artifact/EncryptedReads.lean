import Dagron.Artifact.Encrypted
import Dagron.Crypto.EnvelopeReads

/-! What the encrypting store's readers accept: the same bytes, but for none at all, and of these
exactly the ones that something was put as under a data key that its provider unwraps.
-/

namespace Dagron.Artifact

open Dagron.Library Dagron.Crypto

-- Frames

theorem frame_iff {cur frame tail : List UInt8}
    : (∃ length rest, (cur = length ++ rest ∧ length.length = 4) ∧ ∃ block : Block 4,
        length = block.val ∧ ¬ maxFrameLen < ofLittleEndian block.val
          ∧ rest = frame ++ tail ∧ frame.length = ofLittleEndian block.val)
      ↔ frame.length ≤ maxFrameLen ∧ cur = frameBytes frame ++ tail := by
  constructor
  · rintro ⟨_, _, ⟨rfl, _⟩, block, rfl, bounded, rfl, whole⟩
    have written := littleEndian_ofLittleEndian block.val
    rw [block.property] at written
    refine ⟨whole ▸ Nat.le_of_not_lt bounded, ?_⟩
    rw [frameBytes, whole, written, List.append_assoc]
  · rintro ⟨bounded, rfl⟩
    have small : frame.length < 256 ^ 4 := Nat.lt_of_le_of_lt bounded (by decide)
    have length : ofLittleEndian (littleEndian 4 frame.length) = frame.length := by
      rw [ofLittleEndian_littleEndian, Nat.mod_eq_of_lt small]
    refine ⟨littleEndian 4 frame.length, frame ++ tail, ⟨?_, length_littleEndian 4 _⟩,
      ⟨littleEndian 4 frame.length, length_littleEndian 4 _⟩, rfl, ?_, rfl, length.symm⟩
    · rw [frameBytes, List.append_assoc]
    · rw [length]
      exact Nat.not_lt_of_le bounded

theorem readFrameSync_eq_some_iff {cur frame tail : List UInt8}
    : (readFrameSync cur).result = .ok (some (frame, tail))
      ↔ frame.length ≤ maxFrameLen ∧ cur = frameBytes frame ++ tail := by
  rw [← frame_iff, readFrameSync]
  split
  case isTrue empty =>
    subst empty
    simp [and_assoc]
  case isFalse some_ =>
    simp only [Traced.result_bind, bind_eq_ok_iff, Prod.exists, splitAt_eq_ok_iff,
      failIf_eq_ok_iff, fromSlice_eq_ok_iff, Traced.result_pure, Except.ok.injEq, Traced.result_act,
      Option.some.injEq, Prod.mk.injEq]
    constructor
    · rintro ⟨_, _, length, rest, parts, block, rfl, _, bounded, _, _, _, _, ⟨rfl, whole⟩, _, _, rfl, rfl⟩
      exact ⟨block.val, _, parts, block, rfl, bounded, rfl, whole⟩
    · rintro ⟨_, _, ⟨rfl, four⟩, block, rfl, bounded, rfl, whole⟩
      refine ⟨(), ?_, block.val, _, ⟨rfl, four⟩, block, rfl, (), bounded, (), ?_, frame, tail,
        ⟨rfl, whole⟩, (), trivial, rfl, rfl⟩
      · rw [List.length_append]
        omega
      · rw [List.length_append]
        omega

theorem readFrameAsync_eq_some_iff {cur frame tail : List UInt8}
    : (readFrameAsync cur).result = .ok (some (frame, tail))
      ↔ frame.length ≤ maxFrameLen ∧ cur = frameBytes frame ++ tail := by
  rw [← frame_iff, readFrameAsync]
  split
  case isTrue few =>
    refine ⟨(by rintro ⟨⟩), ?_⟩
    rintro ⟨_, _, ⟨rfl, four⟩, _⟩
    rw [List.length_append] at few
    omega
  case isFalse enough =>
    simp only [Traced.result_bind, bind_eq_ok_iff, Prod.exists, splitAt_eq_ok_iff,
      failIf_eq_ok_iff, fromSlice_eq_ok_iff, Traced.result_pure, Except.ok.injEq, Traced.result_act,
      Option.some.injEq, Prod.mk.injEq]
    constructor
    · rintro ⟨length, rest, parts, block, rfl, _, bounded, _, _, _, _, _, _, ⟨rfl, whole⟩, rfl, rfl⟩
      exact ⟨block.val, _, parts, block, rfl, bounded, rfl, whole⟩
    · rintro ⟨_, _, ⟨rfl, four⟩, block, rfl, bounded, rfl, whole⟩
      refine ⟨block.val, _, ⟨rfl, four⟩, block, rfl, (), bounded, (), trivial, (), ?_, frame, tail,
        ⟨rfl, whole⟩, rfl, rfl⟩
      rw [List.length_append]
      omega

-- Streams of frames

/-- What opens: a nonce, what is bound to it, sealed bytes, and the message they open as. -/
abbrev Opens :=
  Nonce → (aad sealed_ message : List UInt8) → Prop

/-- Frames that open one after the other, from an index up to one that is final, and whatever
follows it; and what they open as.
-/
inductive Plays (opens : Opens) : UInt32 → (frames content : List UInt8) → Prop
  | last {index : UInt32} {flag : UInt8} {nonce : Nonce} {sealed_ message : List UInt8}
      (tail : List UInt8) (final : flag ≠ 0)
      (opened : opens nonce (chunkAad index true) sealed_ message)
      (short : (flag :: nonce.val ++ sealed_).length ≤ maxFrameLen)
      : Plays opens index (frameBytes (flag :: nonce.val ++ sealed_) ++ tail) message
  | more {index : UInt32} {nonce : Nonce} {sealed_ message frames content : List UInt8}
      (opened : opens nonce (chunkAad index false) sealed_ message)
      (short : (0 :: nonce.val ++ sealed_).length ≤ maxFrameLen)
      (rest : Plays opens (index + 1) frames content)
      : Plays opens index (frameBytes (0 :: nonce.val ++ sealed_) ++ frames) (message ++ content)

theorem Plays.mono {opens others : Opens} {index : UInt32} {frames content : List UInt8}
    (plays : Plays opens index frames content)
    (same : ∀ {nonce aad sealed_ message}, opens nonce aad sealed_ message →
      others nonce aad sealed_ message)
    : Plays others index frames content := by
  induction plays with
  | last tail final opened short => exact .last tail final (same opened) short
  | more opened short rest ih => exact .more (same opened) short ih

def decrypts (cipher : Cipher) (dek : DataKey) : Opens :=
  fun nonce aad sealed_ message => cipher.decrypt dek nonce aad sealed_ = some message

section Loops

variable {cipher : Cipher} {dek : DataKey} {index : UInt32} {cur content : List UInt8}
  {rounds : Nat}

theorem plays_iff
    : Plays (decrypts cipher dek) index cur content
      ↔ ∃ frame tail, (frame.length ≤ maxFrameLen ∧ cur = frameBytes frame ++ tail)
        ∧ ∃ message isFinal opener,
          ((StreamOpener.mk dek index false).openChunk cipher frame).result = .ok (message, isFinal, opener)
          ∧ ((isFinal = true ∧ content = message)
            ∨ (isFinal = false ∧ ∃ rest, content = message ++ rest
              ∧ Plays (decrypts cipher dek) (index + 1) tail rest)) := by
  simp only [StreamOpener.openChunk_eq_ok_iff]
  constructor
  · intro plays
    cases plays with
    | @last _ flag nonce sealed_ _ tail final opened short =>
        refine ⟨_, tail, ⟨short, rfl⟩, content, true, _, ⟨flag, nonce, sealed_, rfl, ?_, opened, rfl⟩,
          .inl ⟨rfl, rfl⟩⟩
        simp [final]
    | @more _ nonce sealed_ message frames rest opened short later =>
        exact ⟨_, frames, ⟨short, rfl⟩, message, false, _,
          ⟨0, nonce, sealed_, rfl, by simp, opened, rfl⟩, .inr ⟨rfl, rest, rfl, later⟩⟩
  · rintro ⟨_, tail, ⟨short, rfl⟩, message, isFinal, _, ⟨flag, nonce, sealed_, rfl, final, opened, -⟩,
      ⟨rfl, rfl⟩ | ⟨rfl, rest, rfl, later⟩⟩
    · exact .last tail (of_decide_eq_true final.symm) opened short
    · obtain rfl : flag = 0 := by simpa using final.symm
      exact .more opened short later

theorem length_frameBytes_append (frame tail : List UInt8)
    : tail.length + 4 ≤ (frameBytes frame ++ tail).length := by
  rw [frameBytes, List.length_append, List.length_append, length_littleEndian]
  omega

theorem decryptFrames_eq_ok_iff {out all : List UInt8} (enough : cur.length < rounds)
    : (decryptFrames cipher rounds ⟨dek, index, false⟩ out cur).result = .ok all
      ↔ ∃ content, all = out ++ content ∧ Plays (decrypts cipher dek) index cur content := by
  induction rounds generalizing index out cur with
  | zero => exact absurd enough (Nat.not_lt_zero _)
  | succ rounds ih =>
      rw [decryptFrames, Traced.result_bind, bind_eq_ok_iff]
      constructor
      · rintro ⟨next, read, ok⟩
        cases next with
        | none =>
            dsimp only at ok
            cases ok
        | some parts =>
            obtain ⟨frame, tail⟩ := parts
            obtain ⟨short, rfl⟩ := readFrameSync_eq_some_iff.mp read
            dsimp only at ok
            rw [Traced.result_bind, bind_eq_ok_iff] at ok
            obtain ⟨⟨message, isFinal, opener⟩, opened, ok⟩ := ok
            have within := length_frameBytes_append frame tail
            cases isFinal with
            | true =>
                obtain rfl := Except.ok.inj ok
                exact ⟨message, rfl, plays_iff.mpr ⟨frame, tail, ⟨short, rfl⟩, message, true, opener,
                  opened, .inl ⟨rfl, rfl⟩⟩⟩
            | false =>
                obtain ⟨_, _, _, _, _, _, rfl⟩ := StreamOpener.openChunk_eq_ok_iff.mp opened
                obtain ⟨rest, rfl, plays⟩ := (ih (by omega)).mp ok
                exact ⟨message ++ rest, List.append_assoc .., plays_iff.mpr ⟨frame, tail,
                  ⟨short, rfl⟩, message, false, _, opened, .inr ⟨rfl, rest, rfl, plays⟩⟩⟩
      · rintro ⟨content, rfl, plays⟩
        obtain ⟨frame, tail, read, message, isFinal, opener, opened, ends⟩ := plays_iff.mp plays
        refine ⟨some (frame, tail), readFrameSync_eq_some_iff.mpr read, ?_⟩
        obtain ⟨_, rfl⟩ := read
        have within := length_frameBytes_append frame tail
        dsimp only
        rw [Traced.result_bind, bind_eq_ok_iff]
        refine ⟨(message, isFinal, opener), opened, ?_⟩
        rcases ends with ⟨rfl, rfl⟩ | ⟨rfl, rest, rfl, later⟩
        · rfl
        · obtain ⟨_, _, _, _, _, _, rfl⟩ := StreamOpener.openChunk_eq_ok_iff.mp opened
          exact (ih (by omega)).mpr ⟨rest, (List.append_assoc ..).symm, later⟩

end Loops

-- Reading to the end

def Act.Quiet : Act → Prop
  | .allocate _ => True
  | .give _ => False

@[simp]
theorem given_append (first second : List Act)
    : given (first ++ second) = given first ++ given second :=
  List.flatMap_append

theorem given_quiet {acts : List Act} (quiet : ∀ act ∈ acts, Act.Quiet act)
    : given acts = [] := by
  refine List.flatMap_eq_nil_iff.mpr ?_
  intro act listed
  cases act with
  | allocate size => rfl
  | give bytes => exact (quiet _ listed).elim

theorem readToEnd_eq_some_iff {stream : Reading Unit} {content : List UInt8}
    : readToEnd stream = some content ↔ stream.result = .ok () ∧ given stream.acts = content := by
  unfold readToEnd
  split
  case h_1 failed => simp [failed]
  case h_2 ended => simp [ended]

section ToEnd

variable {Value : Type} {content : List UInt8}

theorem readToEnd_after_quiet {first : Reading Value} {next : Value → Reading Unit}
    (quiet : Calm Act.Quiet first)
    : readToEnd (first >>= next) = some content
      ↔ ∃ value, first.result = .ok value ∧ readToEnd (next value) = some content := by
  simp only [readToEnd_eq_some_iff]
  change (Traced.andThen first next).result = _ ∧ given (Traced.andThen first next).acts = _ ↔ _
  unfold Traced.andThen
  cases came : first.result with
  | error fault => simp
  | ok value => simp [given_quiet quiet.acts]

theorem readToEnd_after_give {bytes : List UInt8} {next : Reading Unit}
    : readToEnd (.act (.give bytes) >>= fun (_ : Unit) => next) = some content
      ↔ ∃ rest, content = bytes ++ rest ∧ readToEnd next = some rest := by
  simp only [readToEnd_eq_some_iff]
  have acts : (Traced.act (.give bytes) >>= fun (_ : Unit) => next : Reading Unit).acts
      = [.give bytes] ++ next.acts := rfl
  have result : (Traced.act (.give bytes) >>= fun (_ : Unit) => next : Reading Unit).result
      = next.result := rfl
  have handed : given [.give bytes] = bytes := List.append_nil bytes
  rw [acts, result, given_append, handed]
  constructor
  · rintro ⟨ended, rfl⟩
    exact ⟨_, rfl, ended, rfl⟩
  · rintro ⟨_, rfl, ended, rfl⟩
    exact ⟨ended, rfl⟩

theorem readToEnd_pure
    : readToEnd (pure () : Reading Unit) = some content ↔ content = [] := by
  rw [readToEnd_eq_some_iff]
  exact ⟨fun ended => ended.2.symm, fun empty => ⟨rfl, empty.symm⟩⟩

theorem readToEnd_give {bytes : List UInt8}
    : readToEnd (.act (.give bytes)) = some content ↔ bytes = content := by
  have handed : given [.give bytes] = bytes := List.append_nil bytes
  rw [readToEnd_eq_some_iff]
  change _ ∧ given [.give bytes] = content ↔ _
  rw [handed]
  exact and_iff_right rfl

end ToEnd

-- No reader goes down, or makes a buffer beyond a frame's bound

section Bounds

variable {allowed : Act → Prop} (bounded : ∀ size ≤ maxFrameLen, allowed (.allocate size))
  {Draw : Type} {cipher : Cipher} {provider : KeyProvider Draw}
include bounded

theorem calm_readFrameSync {cur : List UInt8}
    : Calm allowed (readFrameSync cur) := by
  unfold readFrameSync
  split
  case isTrue => exact .pure _
  case isFalse =>
    refine .bind calm_failIf (fun _ enough => ?_)
    have four : 4 ≤ cur.length := Nat.le_of_not_lt (failIf_eq_ok_iff.mp enough)
    refine .bind (calm_splitAt four) (fun parts split => ?_)
    refine .bind (calm_fromSlice (splitAt_eq_ok_iff.mp split).2) (fun block _ => ?_)
    refine .bind calm_failIf (fun _ short => ?_)
    refine .bind calm_failIf (fun _ enough => ?_)
    have whole := Nat.le_of_not_lt (failIf_eq_ok_iff.mp enough)
    refine .bind (calm_splitAt whole) (fun halves split => ?_)
    refine .bind (.act (bounded _ ?_)) (fun _ _ => .pure _)
    rw [(splitAt_eq_ok_iff.mp split).2]
    exact Nat.le_of_not_lt (failIf_eq_ok_iff.mp short)

theorem calm_readFrameAsync {cur : List UInt8}
    : Calm allowed (readFrameAsync cur) := by
  unfold readFrameAsync
  split
  case isTrue => exact .pure _
  case isFalse enough =>
    refine .bind (calm_splitAt (Nat.le_of_not_lt enough)) (fun parts split => ?_)
    refine .bind (calm_fromSlice (splitAt_eq_ok_iff.mp split).2) (fun block _ => ?_)
    refine .bind calm_failIf (fun _ short => ?_)
    refine .bind (.act (bounded _ (Nat.le_of_not_lt (failIf_eq_ok_iff.mp short)))) (fun _ _ => ?_)
    refine .bind calm_failIf (fun _ enough => ?_)
    have whole := Nat.le_of_not_lt (failIf_eq_ok_iff.mp enough)
    exact .bind (calm_splitAt whole) (fun _ _ => .pure _)

theorem calm_decryptFrames {rounds : Nat} {opener : StreamOpener} {out cur : List UInt8}
    : Calm allowed (decryptFrames cipher rounds opener out cur) := by
  induction rounds generalizing opener out cur with
  | zero => exact calm_fail _
  | succ rounds ih =>
      rw [decryptFrames]
      refine .bind (calm_readFrameSync bounded) (fun next _ => ?_)
      cases next with
      | none =>
          dsimp only
          split
          · exact .pure _
          · exact calm_fail _
      | some parts =>
          refine .bind calm_openChunk (fun opened _ => ?_)
          obtain ⟨plaintext, isFinal, opener⟩ := opened
          cases isFinal with
          | true => exact .pure _
          | false => exact ih

theorem calm_get {raw : List UInt8}
    : Calm allowed (get cipher provider raw) := by
  unfold get decryptStreamBlob
  split
  case isFalse => exact calm_decryptEnvelopeBytes
  case isTrue =>
    refine .bind calm_orRaise (fun cur _ => ?_)
    refine .bind (calm_readFrameSync bounded) (fun next _ => ?_)
    cases next with
    | none => exact calm_fail _
    | some parts => exact .bind calm_newOpener (fun _ _ => calm_decryptFrames bounded)

variable (handing : ∀ bytes, allowed (.give bytes))
include handing

theorem calm_streamFrames {rounds : Nat} {opener : StreamOpener} {cur : List UInt8}
    : Calm allowed (streamFrames cipher rounds opener cur) := by
  induction rounds generalizing opener cur with
  | zero => exact calm_fail _
  | succ rounds ih =>
      rw [streamFrames]
      refine .bind (calm_readFrameAsync bounded) (fun next _ => ?_)
      cases next with
      | none =>
          dsimp only
          split
          · exact .pure _
          · exact calm_fail _
      | some parts =>
          refine .bind calm_openChunk (fun opened _ => ?_)
          refine .bind (.act (handing _)) (fun _ _ => ?_)
          obtain ⟨plaintext, isFinal, opener⟩ := opened
          cases isFinal with
          | true => exact .pure _
          | false => exact ih

theorem calm_getStream {raw : List UInt8}
    : Calm allowed (getStream cipher provider raw) := by
  unfold getStream
  split
  case h_1 => exact .pure _
  case h_2 tag rest =>
    split
    case isFalse =>
      exact .bind calm_decryptEnvelopeBytes (fun plaintext _ => .act (handing plaintext))
    case isTrue =>
      refine .bind (calm_readFrameAsync bounded) (fun next _ => ?_)
      cases next with
      | none => exact calm_fail _
      | some parts =>
          exact .bind calm_newOpener (fun _ _ => calm_streamFrames bounded handing)

end Bounds

/-- What is handed on of a stream's frames, read to the end, is what they play, by induction on the
rounds.
-/
theorem readToEnd_streamFrames_eq_some_iff {cipher : Cipher} {dek : DataKey} {index : UInt32}
    {cur content : List UInt8} {rounds : Nat} (enough : cur.length < rounds)
    : readToEnd (streamFrames cipher rounds ⟨dek, index, false⟩ cur) = some content
      ↔ Plays (decrypts cipher dek) index cur content := by
  induction rounds generalizing index cur content with
  | zero => exact absurd enough (Nat.not_lt_zero _)
  | succ rounds ih =>
      rw [streamFrames, readToEnd_after_quiet (calm_readFrameAsync (fun _ _ => trivial))]
      constructor
      · rintro ⟨next, read, ended⟩
        cases next with
        | none =>
            dsimp only at ended
            cases ended
        | some parts =>
            obtain ⟨frame, tail⟩ := parts
            obtain ⟨short, rfl⟩ := readFrameAsync_eq_some_iff.mp read
            dsimp only at ended
            obtain ⟨⟨message, isFinal, opener⟩, opened, ended⟩ :=
              (readToEnd_after_quiet calm_openChunk).mp ended
            obtain ⟨rest, rfl, later⟩ := readToEnd_after_give.mp ended
            refine plays_iff.mpr ⟨frame, tail, ⟨short, rfl⟩, message, isFinal, opener, opened, ?_⟩
            have within := length_frameBytes_append frame tail
            cases isFinal with
            | true =>
                obtain rfl := readToEnd_pure.mp later
                exact .inl ⟨rfl, List.append_nil message⟩
            | false =>
                obtain ⟨_, _, _, _, _, _, rfl⟩ := StreamOpener.openChunk_eq_ok_iff.mp opened
                exact .inr ⟨rfl, rest, rfl, (ih (by omega)).mp later⟩
      · intro plays
        obtain ⟨frame, tail, read, message, isFinal, opener, opened, ends⟩ := plays_iff.mp plays
        refine ⟨some (frame, tail), readFrameAsync_eq_some_iff.mpr read, ?_⟩
        obtain ⟨_, rfl⟩ := read
        have within := length_frameBytes_append frame tail
        dsimp only
        refine (readToEnd_after_quiet calm_openChunk).mpr
          ⟨(message, isFinal, opener), opened, readToEnd_after_give.mpr ?_⟩
        rcases ends with ⟨rfl, rfl⟩ | ⟨rfl, rest, rfl, later⟩
        · exact ⟨[], (List.append_nil _).symm, readToEnd_pure.mpr rfl⟩
        · obtain ⟨_, _, _, _, _, _, rfl⟩ := StreamOpener.openChunk_eq_ok_iff.mp opened
          exact ⟨rest, rfl, (ih (by omega)).mpr later⟩

-- What is read of what is stored

/-- Stored bytes that lead with a wrapped key, whole or as a stream, and what they open as; whatever
follows a stream's header within its frame, or its final frame, is not looked at.
-/
inductive Carries (id wrapped : List UInt8) (opens : Opens) : (raw content : List UInt8) → Prop
  | whole {nonce : Nonce} {sealed_ message : List UInt8} (some_ : sealed_ ≠ [])
      (opened : opens nonce [] sealed_ message)
      : Carries id wrapped opens (headerBytes envelopeBinTag id wrapped ++ (nonce.val ++ sealed_))
        message
  | stream {frames content : List UInt8} (junk : List UInt8)
      (short : (headerBytes streamTag id wrapped ++ junk).length ≤ maxFrameLen)
      (plays : Plays opens 0 frames content)
      : Carries id wrapped opens
        (streamBlobTag :: (frameBytes (headerBytes streamTag id wrapped ++ junk) ++ frames)) content

theorem Carries.mono {id wrapped raw content : List UInt8} {opens others : Opens}
    (carries : Carries id wrapped opens raw content)
    (same : ∀ {nonce aad sealed_ message}, opens nonce aad sealed_ message →
      others nonce aad sealed_ message)
    : Carries id wrapped others raw content := by
  cases carries with
  | whole some_ opened => exact .whole some_ (same opened)
  | stream junk short plays => exact .stream junk short (plays.mono same)

theorem Carries.ne_nil {id wrapped raw content : List UInt8} {opens : Opens}
    (carries : Carries id wrapped opens raw content)
    : raw ≠ [] := by
  cases carries with
  | whole | stream => exact List.cons_ne_nil _ _

section Stored

variable {Draw : Type} (cipher : Cipher) (provider : KeyProvider Draw)

/-- Stored bytes carry something under a key that a provider unwraps. -/
def Readable (raw content : List UInt8) : Prop :=
  ∃ wrapped dek, (utf8 provider.id).length ≤ 255 ∧ wrapped.length < 256 ^ 4
    ∧ provider.unwrap wrapped = some dek
    ∧ Carries (utf8 provider.id) wrapped (decrypts cipher dek) raw content

variable {cipher provider} {raw content : List UInt8}

theorem readable_stream_iff {rest : List UInt8}
    : Readable cipher provider (streamBlobTag :: rest) content
      ↔ ∃ header frames, (header.length ≤ maxFrameLen ∧ rest = frameBytes header ++ frames)
        ∧ ∃ opener, (StreamOpener.new provider header).result = .ok opener
          ∧ ∃ dek, opener = ⟨dek, 0, false⟩ ∧ Plays (decrypts cipher dek) 0 frames content := by
  simp only [StreamOpener.new_eq_ok_iff]
  constructor
  · rintro ⟨wrapped, dek, named, small, unwraps, carries⟩
    cases carries with
    | stream junk short plays =>
        exact ⟨_, _, ⟨short, rfl⟩, _, ⟨wrapped, dek, junk, rfl, named, small, unwraps, rfl⟩, dek, rfl,
          plays⟩
  · rintro ⟨_, frames, ⟨short, rfl⟩, _, ⟨wrapped, dek, junk, rfl, named, small, unwraps, rfl⟩, _, same,
      plays⟩
    cases same
    exact ⟨wrapped, dek, named, small, unwraps, .stream junk short plays⟩

theorem readable_whole_iff (whole : raw.head? ≠ some streamBlobTag)
    : Readable cipher provider raw content
      ↔ (decryptEnvelopeBytes cipher provider raw).result = .ok content := by
  rw [decryptEnvelopeBytes_eq_ok_iff]
  constructor
  · rintro ⟨wrapped, dek, named, small, unwraps, carries⟩
    cases carries with
    | whole some_ opened =>
        exact ⟨wrapped, dek, _, _, rfl, named, small, unwraps, some_, opened⟩
    | stream => exact absurd rfl whole
  · rintro ⟨wrapped, dek, nonce, sealed_, rfl, named, small, unwraps, some_, opened⟩
    exact ⟨wrapped, dek, named, small, unwraps, .whole some_ opened⟩

theorem get_eq_ok_iff
    : (get cipher provider raw).result = .ok content ↔ Readable cipher provider raw content := by
  unfold get
  split
  case isFalse whole => exact (readable_whole_iff whole).symm
  case isTrue streamed =>
    obtain ⟨rest, rfl⟩ : ∃ rest, raw = streamBlobTag :: rest :=
      List.head?_eq_some_iff.mp streamed
    rw [readable_stream_iff, decryptStreamBlob, if_pos streamed]
    simp only [Traced.result_bind, bind_eq_ok_iff, orRaise_eq_ok_iff, Option.some.injEq,
      List.tail_cons, exists_eq_left']
    constructor
    · rintro ⟨next, read, ok⟩
      cases next with
      | none => cases ok
      | some parts =>
          obtain ⟨header, frames⟩ := parts
          dsimp only at ok
          rw [Traced.result_bind, bind_eq_ok_iff] at ok
          obtain ⟨opener, new, ok⟩ := ok
          obtain ⟨_, dek, _, _, _, _, _, rfl⟩ := StreamOpener.new_eq_ok_iff.mp new
          obtain ⟨_, rfl, plays⟩ := (decryptFrames_eq_ok_iff (Nat.lt_succ_self _)).mp ok
          exact ⟨header, frames, readFrameSync_eq_some_iff.mp read, _, new, dek, rfl, plays⟩
    · rintro ⟨header, frames, read, _, new, dek, rfl, plays⟩
      refine ⟨some (header, frames), readFrameSync_eq_some_iff.mpr read, ?_⟩
      dsimp only
      rw [Traced.result_bind, bind_eq_ok_iff]
      exact ⟨_, new, (decryptFrames_eq_ok_iff (Nat.lt_succ_self _)).mpr ⟨content, rfl, plays⟩⟩

theorem readToEnd_getStream_eq_some_iff (some_ : raw ≠ [])
    : readToEnd (getStream cipher provider raw) = some content
      ↔ Readable cipher provider raw content := by
  obtain ⟨tag, rest, rfl⟩ := List.exists_cons_of_ne_nil some_
  unfold getStream
  dsimp only
  split
  case isFalse whole =>
    have whole : (tag :: rest).head? ≠ some streamBlobTag := by simpa using whole
    rw [readable_whole_iff whole, readToEnd_after_quiet calm_decryptEnvelopeBytes]
    constructor
    · rintro ⟨message, opened, ended⟩
      rwa [← readToEnd_give.mp ended]
    · intro opened
      exact ⟨content, opened, readToEnd_give.mpr rfl⟩
  case isTrue streamed =>
    subst streamed
    rw [readable_stream_iff, readToEnd_after_quiet (calm_readFrameAsync (fun _ _ => trivial))]
    constructor
    · rintro ⟨next, read, ended⟩
      cases next with
      | none => cases ended
      | some parts =>
          obtain ⟨header, frames⟩ := parts
          dsimp only at ended
          obtain ⟨opener, new, ended⟩ := (readToEnd_after_quiet calm_newOpener).mp ended
          obtain ⟨_, dek, _, _, _, _, _, rfl⟩ := StreamOpener.new_eq_ok_iff.mp new
          have plays := (readToEnd_streamFrames_eq_some_iff (Nat.lt_succ_self _)).mp ended
          exact ⟨header, frames, readFrameAsync_eq_some_iff.mp read, _, new, dek, rfl, plays⟩
    · rintro ⟨header, frames, read, _, new, dek, rfl, plays⟩
      refine ⟨some (header, frames), readFrameAsync_eq_some_iff.mpr read, ?_⟩
      exact (readToEnd_after_quiet calm_newOpener).mpr
        ⟨_, new, (readToEnd_streamFrames_eq_some_iff (Nat.lt_succ_self _)).mpr plays⟩

end Stored

end Dagron.Artifact
