import Dagron.Crypto.Envelope

/-! The encrypting store: what it leaves in the store under it for bytes that are put whole or as a
stream, and how it reads what it finds there, whole or as a stream.
-/

namespace Dagron.Artifact

open Dagron.Library Dagron.Crypto

def streamBlobTag : UInt8 :=
  3

def maxFrameLen : Nat :=
  8 * 1024 * 1024

/-- How many bytes a read of a stream that is put asks for. -/
def readSize : Nat :=
  64 * 1024

def frameBytes (data : List UInt8) : List UInt8 :=
  littleEndian 4 data.length ++ data

-- Writing

section Writing

variable {Draw : Type} (cipher : Cipher) (provider : KeyProvider Draw) (draw : Draw)
  (dek : DataKey)

def put (nonce : Nonce) (bytes : List UInt8) : Except Failure (List UInt8) :=
  encryptEnvelopeBytes cipher provider draw dek nonce bytes

/-- The frames of a stream's reads: a chunk is held back until the next is read, so that the last
is known when it is sealed; (drawn) counts the nonces that were drawn.
-/
def sealReads (nonces : Nat → Nonce)
    : Nat → StreamSealer → Option (List UInt8) → List (List UInt8) → Except Failure (List UInt8)
  | drawn, sealer, pending, [] => do
      let (frame, _) ← sealer.sealChunk cipher (nonces drawn) (pending.getD []) true
      return frameBytes frame
  | drawn, sealer, none, chunk :: rest => sealReads nonces drawn sealer (some chunk) rest
  | drawn, sealer, some previous, chunk :: rest => do
      let (frame, sealer) ← sealer.sealChunk cipher (nonces drawn) previous false
      let later ← sealReads nonces (drawn + 1) sealer (some chunk) rest
      return frameBytes frame ++ later

/-- What is stored of bytes that are put as a stream, by what each read returned. -/
def putStream (nonces : Nat → Nonce) (reads : List (List UInt8)) : Except Failure (List UInt8) := do
  let (header, sealer) ← StreamSealer.new provider draw dek
  let frames ← sealReads cipher nonces 0 sealer none reads
  return streamBlobTag :: frameBytes header ++ frames

end Writing

-- Reading what is in memory

/-- The next frame of a buffer, and what follows it; nothing at its end. -/
def readFrameSync (cur : List UInt8) : Reading (Option (List UInt8 × List UInt8)) := do
  if cur = [] then return none
  else
    failIf (cur.length < 4) .truncatedPrefix
    let (length, rest) ← splitAt cur 4
    let length ← fromSlice 4 length
    let size := ofLittleEndian length.val
    failIf (maxFrameLen < size) (.frameTooLong size)
    failIf (rest.length < size) (.truncatedBody size rest.length)
    let (body, tail) ← splitAt rest size
    .act (.allocate body.length)
    return some (body, tail)

section Reading

variable {Draw : Type} (cipher : Cipher) (provider : KeyProvider Draw)

/-- The chunks of a buffer's frames, up to the last; every frame takes some of the buffer, so as
many rounds as it has bytes are enough.
-/
def decryptFrames : Nat → StreamOpener → List UInt8 → List UInt8 → Reading (List UInt8)
  | 0, _, _, _ => fail .truncatedStream
  | rounds + 1, opener, out, cur => do
      match ← readFrameSync cur with
      | none => if opener.finished then return out else fail .truncatedStream
      | some (frame, tail) =>
          let (plaintext, isFinal, opener) ← opener.openChunk cipher frame
          if isFinal then return out ++ plaintext
          else decryptFrames rounds opener (out ++ plaintext) tail

def decryptStreamBlob (raw : List UInt8) : Reading (List UInt8) := do
  let cur ← .orRaise (if raw.head? = some streamBlobTag then some raw.tail else none)
    (.failed .missingTag)
  match ← readFrameSync cur with
  | none => fail .missingHeader
  | some (header, frames) =>
      let opener ← StreamOpener.new provider header
      decryptFrames cipher (frames.length + 1) opener [] frames

def get (raw : List UInt8) : Reading (List UInt8) :=
  if raw.head? = some streamBlobTag then decryptStreamBlob cipher provider raw
  else decryptEnvelopeBytes cipher provider raw

-- Reading as a stream

/-- The next frame of what is read, and what follows; nothing where not even a length is left. -/
def readFrameAsync (cur : List UInt8) : Reading (Option (List UInt8 × List UInt8)) := do
  if cur.length < 4 then return none
  else
    let (length, rest) ← splitAt cur 4
    let length ← fromSlice 4 length
    let size := ofLittleEndian length.val
    failIf (maxFrameLen < size) (.frameTooLong size)
    .act (.allocate size)
    failIf (rest.length < size) .unexpectedEof
    let (body, tail) ← splitAt rest size
    return some (body, tail)

/-- Hands on the chunks of the frames that are read, up to the last. -/
def streamFrames : Nat → StreamOpener → List UInt8 → Reading Unit
  | 0, _, _ => fail .truncatedStream
  | rounds + 1, opener, cur => do
      match ← readFrameAsync cur with
      | some (frame, tail) =>
          let (plaintext, isFinal, opener) ← opener.openChunk cipher frame
          .act (.give plaintext)
          if isFinal then return () else streamFrames rounds opener tail
      | none => if opener.finished then return () else fail .truncatedStream

/-- Hands on, as a stream, what is stored: bytes that were put whole are opened before any. -/
def getStream (raw : List UInt8) : Reading Unit :=
  match raw with
  | [] => return ()
  | tag :: rest =>
      if tag = streamBlobTag then do
        match ← readFrameAsync rest with
        | none => fail .missingHeader
        | some (header, frames) =>
            let opener ← StreamOpener.new provider header
            streamFrames cipher (frames.length + 1) opener frames
      else do
        let plaintext ← decryptEnvelopeBytes cipher provider (tag :: rest)
        .act (.give plaintext)

end Reading

def given (acts : List Act) : List UInt8 :=
  acts.flatMap (fun
    | .give bytes => bytes
    | .allocate _ => [])

/-- What the reader of a stream has in hand where it reads to the end, if it gets there. -/
def readToEnd (stream : Reading Unit) : Option (List UInt8) :=
  match stream.result with
  | .error _ => none
  | .ok _ => some (given stream.acts)

/-- Wraps the data key of what was put as a stream anew; the frames are left. -/
def rotateStreamBlob {Draw : Type} (old new : KeyProvider Draw) (draw : Draw) (raw : List UInt8)
    : Reading (List UInt8) := do
  let cur ← .orRaise (if raw.head? = some streamBlobTag then some raw.tail else none)
    (.failed .missingTag)
  match ← readFrameSync cur with
  | none => fail .missingHeader
  | some (header, frames) =>
      let rewrapped ← rewrapStreamHeader old new draw header
      return streamBlobTag :: frameBytes rewrapped ++ frames

end Dagron.Artifact
