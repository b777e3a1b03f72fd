import Dagron.Library.LittleEndian
import Dagron.Library.Traced
import Dagron.Library.Utf8Reading

/-! Envelopes: bytes sealed under a fresh data key, which stands beside them wrapped by a provider's
key; whole, or chunk by chunk. The cipher and the providers are given.
-/

namespace Dagron.Crypto

open Dagron.Library

abbrev Block (size : Nat) :=
  { bytes : List UInt8 // bytes.length = size }

abbrev DataKey :=
  Block 32

abbrev Nonce :=
  Block 12

/-- Authenticated encryption: a message is sealed under a key, with a nonce, beside data that is
bound to it and not kept.
-/
structure Cipher where
  encrypt
    : DataKey → Nonce → (aad message : List UInt8) → Option (List UInt8)
  decrypt
    : DataKey → Nonce → (aad sealed_ : List UInt8) → Option (List UInt8)

/-- What wraps data keys. A wrapping may draw on chance. -/
structure KeyProvider (Draw : Type) where
  id
    : String
  wrap
    : Draw → DataKey → Option (List UInt8)
  unwrap
    : List UInt8 → Option DataKey

/-- Why bytes are not sealed, or not read. -/
inductive Failure where
  | idTooLong (length : Nat)
  | wrap
  | encrypt
  | truncatedEnvelope (need have_ : Nat)
  | notEnvelope (tag : UInt8)
  | notStreamHeader (tag : UInt8)
  | idNotUtf8
  | otherProvider (named supplied : String)
  | unwrap
  | payload
  | chunk
  | afterFinal
  | missingTag
  | missingHeader
  | truncatedPrefix
  | frameTooLong (length : Nat)
  | truncatedBody (need have_ : Nat)
  | unexpectedEof
  | truncatedStream
  deriving DecidableEq

/-- How a reader stops short: it says why, or it goes down. -/
inductive Fault where
  | failed (failure : Failure)
  | panicked
  deriving DecidableEq

/-- What a reader does: it makes a buffer for a frame, or hands bytes on. -/
inductive Act where
  | allocate (size : Nat)
  | give (bytes : List UInt8)
  deriving DecidableEq

abbrev Reading (Value : Type) :=
  Traced Act Fault Value

def fail {Value : Type} (failure : Failure) : Reading Value :=
  .raise (.failed failure)

def failIf (cond : Prop) [Decidable cond] (failure : Failure) : Reading Unit :=
  if cond then fail failure else pure ()

-- Slices

def splitAt (bytes : List UInt8) (place : Nat) : Reading (List UInt8 × List UInt8) :=
  if place ≤ bytes.length then pure (bytes.take place, bytes.drop place) else .raise .panicked

def byteAt (bytes : List UInt8) (place : Nat) : Reading UInt8 :=
  .orRaise bytes[place]? .panicked

def fromSlice (size : Nat) (bytes : List UInt8) : Reading (Block size) :=
  if fits : bytes.length = size then pure ⟨bytes, fits⟩ else .raise .panicked

/-- The first bytes of a buffer, and the rest; or a failure where there are too few. -/
def take (buf : List UInt8) (size : Nat) : Reading (List UInt8 × List UInt8) :=
  if buf.length < size then fail (.truncatedEnvelope size buf.length) else splitAt buf size

-- Headers

section Headers

variable {Draw : Type}

/-- A header: what follows, who wrapped the data key, and the wrapped key. -/
def headerBytes (tag : UInt8) (id wrapped : List UInt8) : List UInt8 :=
  tag :: UInt8.ofNat id.length :: id ++ littleEndian 4 wrapped.length ++ wrapped

/-- Refuses a provider whose name is too long for a header. -/
def checkId (provider : KeyProvider Draw) : Except Failure Unit :=
  if 255 < (utf8 provider.id).length then .error (.idTooLong (utf8 provider.id).length) else .ok ()

def wrapHeader (tag : UInt8) (provider : KeyProvider Draw) (draw : Draw) (dek : DataKey)
    : Except Failure (List UInt8) :=
  match provider.wrap draw dek with
  | none => .error .wrap
  | some wrapped => .ok (headerBytes tag (utf8 provider.id) wrapped)

def readHeader (tag : UInt8) (other : UInt8 → Failure) (provider : KeyProvider Draw)
    (buf : List UInt8) : Reading (DataKey × List UInt8) := do
  let (first, rest) ← take buf 1
  let found ← byteAt first 0
  failIf (found ≠ tag) (other found)
  let (first, rest) ← take rest 1
  let idLen ← byteAt first 0
  let (id, rest) ← take rest idLen.toNat
  let pid ← .orRaise (fromUtf8 id) (.failed .idNotUtf8)
  failIf (pid ≠ provider.id) (.otherProvider pid provider.id)
  let (length, rest) ← take rest 4
  let length ← fromSlice 4 length
  let (wrapped, rest) ← take rest (ofLittleEndian length.val)
  let dek ← .orRaise (provider.unwrap wrapped) (.failed .unwrap)
  return (dek, rest)

end Headers

-- Whole envelopes

def envelopeBinTag : UInt8 :=
  2

def streamTag : UInt8 :=
  3

section Whole

variable {Draw : Type} (cipher : Cipher)

def seal_ (key : DataKey) (nonce : Nonce) (plaintext : List UInt8) : Except Failure (List UInt8) :=
  match cipher.encrypt key nonce [] plaintext with
  | none => .error .encrypt
  | some sealed_ => .ok (nonce.val ++ sealed_)

def open_ (key : DataKey) (blob : List UInt8) : Reading (List UInt8) := do
  failIf (blob.length ≤ 12) .payload
  let (nonce, sealed_) ← splitAt blob 12
  let nonce ← fromSlice 12 nonce
  .orRaise (cipher.decrypt key nonce [] sealed_) (.failed .payload)

def encryptEnvelopeBytes (provider : KeyProvider Draw) (draw : Draw) (dek : DataKey) (nonce : Nonce)
    (plaintext : List UInt8) : Except Failure (List UInt8) := do
  checkId provider
  let payload ← seal_ cipher dek nonce plaintext
  let header ← wrapHeader envelopeBinTag provider draw dek
  return header ++ payload

def decryptEnvelopeBytes (provider : KeyProvider Draw) (blob : List UInt8)
    : Reading (List UInt8) := do
  let (dek, rest) ← readHeader envelopeBinTag .notEnvelope provider blob
  open_ cipher dek rest

/-- Wraps the data key of a whole envelope anew, and leaves the rest. -/
def rewrapEnvelopeBytes (old new : KeyProvider Draw) (draw : Draw) (blob : List UInt8)
    : Reading (List UInt8) := do
  failIf (255 < (utf8 new.id).length) (.idTooLong (utf8 new.id).length)
  let (dek, payload) ← readHeader envelopeBinTag .notEnvelope old blob
  let rewrapped ← .orRaise (new.wrap draw dek) (.failed .wrap)
  return headerBytes envelopeBinTag (utf8 new.id) rewrapped ++ payload

/-- The provider that wraps by sealing under a key of its own. -/
def localKekProvider (kek : DataKey) (id : String) : KeyProvider Nonce where
  id :=
    id
  wrap nonce dek :=
    match seal_ cipher kek nonce dek.val with
    | .error _ => none
    | .ok wrapped => some wrapped
  unwrap wrapped :=
    match (open_ cipher kek wrapped).result with
    | .error _ => none
    | .ok bytes => if fits : bytes.length = 32 then some ⟨bytes, fits⟩ else none

end Whole

-- Streams

/-- What a chunk is bound to: its index in the stream, and whether it is the last. -/
def chunkAad (index : UInt32) (isFinal : Bool) : List UInt8 :=
  littleEndian 4 index.toNat ++ [isFinal.toUInt8]

/-- Seals a stream chunk by chunk. -/
structure StreamSealer where
  dek
    : DataKey
  index
    : UInt32

/-- Opens a stream chunk by chunk. -/
structure StreamOpener where
  dek
    : DataKey
  index
    : UInt32
  finished
    : Bool

section Streams

variable {Draw : Type} (cipher : Cipher)

def StreamSealer.new (provider : KeyProvider Draw) (draw : Draw) (dek : DataKey)
    : Except Failure (List UInt8 × StreamSealer) := do
  checkId provider
  let header ← wrapHeader streamTag provider draw dek
  return (header, ⟨dek, 0⟩)

/-- Seals one chunk: a flag, the nonce and what is sealed. -/
def StreamSealer.sealChunk (sealer : StreamSealer) (nonce : Nonce) (plaintext : List UInt8)
    (isFinal : Bool) : Except Failure (List UInt8 × StreamSealer) :=
  match cipher.encrypt sealer.dek nonce (chunkAad sealer.index isFinal) plaintext with
  | none => .error .encrypt
  | some sealed_ =>
      .ok (isFinal.toUInt8 :: nonce.val ++ sealed_, { sealer with index := sealer.index + 1 })

def StreamOpener.new (provider : KeyProvider Draw) (header : List UInt8)
    : Reading StreamOpener := do
  let (dek, _) ← readHeader streamTag .notStreamHeader provider header
  return ⟨dek, 0, false⟩

/-- Opens one frame: its chunk, and whether it is the last. -/
def StreamOpener.openChunk (opener : StreamOpener) (frame : List UInt8)
    : Reading (List UInt8 × Bool × StreamOpener) := do
  failIf opener.finished .afterFinal
  let (first, rest) ← take frame 1
  let flag ← byteAt first 0
  let isFinal := flag ≠ 0
  let (nonce, rest) ← take rest 12
  let nonce ← fromSlice 12 nonce
  let plaintext ←
    .orRaise (cipher.decrypt opener.dek nonce (chunkAad opener.index isFinal) rest) (.failed .chunk)
  return (plaintext, isFinal, { opener with index := opener.index + 1, finished := isFinal })

def rewrapStreamHeader (old new : KeyProvider Draw) (draw : Draw) (header : List UInt8)
    : Reading (List UInt8) := do
  failIf (255 < (utf8 new.id).length) (.idTooLong (utf8 new.id).length)
  let (dek, _) ← readHeader streamTag .notStreamHeader old header
  let rewrapped ← .orRaise (new.wrap draw dek) (.failed .wrap)
  return headerBytes streamTag (utf8 new.id) rewrapped

end Streams

end Dagron.Crypto
