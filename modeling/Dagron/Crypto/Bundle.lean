import Dagron.Library.Paths
import Dagron.Library.Results
import Dagron.Library.JsonString
import Dagron.Spec.Condition

/-! Signed workflow bundles: the verification of a manifest, its signature and the files it lists, and
the reading of these from a directory. The signature scheme, the digest, base64 and the manifest's JSON
are parameters.
-/

namespace Dagron.Crypto

open Dagron.Library Dagron.Spec

-- Manifests

def bundleFormat : String :=
  "dagron.bundle.v1"

def manifestFile : String :=
  "manifest.json"

def signatureFile : String :=
  "manifest.sig"

/-- Length of a signature; anything else is refused before decoding. -/
def signatureLen : Nat :=
  64

/-- One listed spec: its manifest-relative path and the hex SHA-256 of its bytes. -/
structure SpecEntry where
  path : String
  sha256 : String
  deriving DecidableEq

/-- The signed manifest. -/
structure Manifest where
  format : String
  name : String
  version : String
  createdAt : String
  keyId : Option String := none
  specs : List SpecEntry
  deriving DecidableEq

/-- A bundle that passed every check. -/
structure VerifiedBundle where
  manifest : Manifest
  manifestBytes : List UInt8
  specs : List (String × String)
  digest : String
  deriving DecidableEq

/-- Why a bundle is refused. -/
inductive BundleError where
  | noKeys
  | signatureLength (length : Nat)
  | malformedSignature
  | untrusted (keys : Nat)
  | malformedManifest
  | unknownFormat (format : String)
  | noProvenance
  | noSpecs
  | emptyPath
  | foreignPath
  | notRelative
  | notSpec
  | entry (path : String) (problem : BundleError)
  | malformedSha256 (path : String)
  | listedTwice (path : String)
  | suppliedTwice (path : String)
  | notListed (path : List Char)
  | missing (path : String)
  | mismatch (path : String)
  | notText (path : String)
  | symlinkDir
  | notDirectory
  | unreadable (path : String)
  | symlink (path : String)
  | notPlain (path : String)
  | notRegular (path : String)
  | notBase64
  deriving DecidableEq

/-- What a bundle is verified with. -/
structure BundleTools (Key Signature : Type) where
  signatureFromSlice : List UInt8 → Option Signature
  verifyStrict : Key → List UInt8 → Signature → Bool
  sha256 : List UInt8 → List UInt8
  manifestFromSlice : List UInt8 → Option Manifest
  decodeBase64 : List Char → Option (List UInt8)

-- Checks

def ensure (ok : Bool) (problem : BundleError) : Except BundleError Unit :=
  if ok then .ok () else .error problem

/-- A value that there is, or the error that there is none. -/
def orRefuse {Value : Type} (value : Option Value) (problem : BundleError) : Except BundleError Value :=
  match value with
  | some value => .ok value
  | none => .error problem

def hexEncode (bytes : List UInt8) : List Char :=
  bytes.flatMap (fun byte => [lowerHexDigit (byte.toNat / 16), lowerHexDigit (byte.toNat % 16)])

def isAsciiHexDigit (char : Char) : Bool :=
  ('0' ≤ char && char ≤ '9') || ('a' ≤ char && char ≤ 'f') || ('A' ≤ char && char ≤ 'F')

def isSpecExtension (extension : Option (List UInt8)) : Bool :=
  extension == some (utf8 "yaml") || extension == some (utf8 "yml")

def isNormal : Component → Bool
  | .normal _ => true
  | _ => false

/-- A manifest-relative spec path that cannot leave the bundle directory. -/
def checkRelPath (path : String) : Except BundleError Unit := do
  ensure (path ≠ "") .emptyPath
  ensure (path.toList.all (fun char => char ≠ '\x00' ∧ char ≠ '\\')) .foreignPath
  ensure ((components (utf8 path)).all isNormal) .notRelative
  ensure (isSpecExtension (pathExtension (utf8 path))) .notSpec

/-- (checkEntries listed entries) checks what a manifest lists after (listed). -/
def checkEntries : List String → List SpecEntry → Except BundleError Unit
  | _, [] => .ok ()
  | listed, entry :: rest => do
      (checkRelPath entry.path).mapError (.entry entry.path)
      ensure (entry.sha256.utf8ByteSize = 64 && entry.sha256.toList.all isAsciiHexDigit)
        (.malformedSha256 entry.path)
      ensure (entry.path ∉ listed) (.listedTwice entry.path)
      checkEntries (entry.path :: listed) rest

/-- (checkSupplied listed supplied files) checks what is supplied after (supplied). -/
def checkSupplied (listed : List String)
    : List String → List (String × List UInt8) → Except BundleError Unit
  | _, [] => .ok ()
  | supplied, (path, _) :: rest => do
      ensure (path ∉ supplied) (.suppliedTwice path)
      ensure (path ∈ listed) (.notListed path.toList)
      checkSupplied listed (path :: supplied) rest

section Tools

variable {Key Signature : Type} (tools : BundleTools Key Signature)

def sha256Hex (bytes : List UInt8) : List Char :=
  hexEncode (tools.sha256 bytes)

/-- Whether bytes have a listed digest, whatever the case of its letters. -/
def hasSha256 (sha256 : String) (bytes : List UInt8) : Bool :=
  (sha256Hex tools bytes).map Char.toLower == sha256.toList.map Char.toLower

/-- The text of a listed spec, where it is supplied as it was signed. -/
def verifySpec (files : List (String × List UInt8)) (entry : SpecEntry)
    : Except BundleError (String × String) := do
  let bytes ← orRefuse (files.lookup entry.path) (.missing entry.path)
  ensure (hasSha256 tools entry.sha256 bytes) (.mismatch entry.path)
  let text ← orRefuse (fromUtf8 bytes) (.notText entry.path)
  return (entry.path, text)

/-- Verifies a signature over the exact manifest bytes against at least one of the keys, then that the
files are exactly the manifest's specs with matching digests.
-/
def verifyBundle (manifestBytes signature : List UInt8) (files : List (String × List UInt8))
    (keys : List Key) : Except BundleError VerifiedBundle := do
  -- Authenticate the manifest bytes before interpreting a single one.
  ensure (!keys.isEmpty) .noKeys
  ensure (signature.length = signatureLen) (.signatureLength signature.length)
  let signature ← orRefuse (tools.signatureFromSlice signature) .malformedSignature
  ensure (keys.any (fun key => tools.verifyStrict key manifestBytes signature)) (.untrusted keys.length)
  let manifest ← orRefuse (tools.manifestFromSlice manifestBytes) .malformedManifest
  ensure (manifest.format = bundleFormat) (.unknownFormat manifest.format)
  ensure (trim manifest.name.toList ≠ [] ∧ trim manifest.version.toList ≠ []) .noProvenance
  ensure (!manifest.specs.isEmpty) .noSpecs
  checkEntries [] manifest.specs
  -- The file set must be exactly the listing.
  checkSupplied (manifest.specs.map SpecEntry.path) [] files
  let specs ← manifest.specs.mapM (verifySpec tools files)
  return { manifest, manifestBytes, specs, digest := String.ofList (sha256Hex tools manifestBytes) }

-- Directories

/-- Reads what components lead to, refusing a symlink at any one of them. -/
def readWithin (path : String) : Node → List Component → Except BundleError (List UInt8)
  | .file bytes, [] => .ok bytes
  | _, [] => .error (.notRegular path)
  | .dir entries, .normal name :: rest =>
      match entries.find? name with
      | none => .error (.unreadable path)
      | some .symlink => .error (.symlink path)
      | some node => readWithin path node rest
  | _, .normal _ :: _ => .error (.unreadable path)
  | _, _ :: _ => .error (.notPlain path)

/-- (readListed dir listed entries) reads the files a manifest lists after (listed). -/
def readListed (dir : Node) : List String → List SpecEntry → Except BundleError (List (String × List UInt8))
  | _, [] => .ok []
  | listed, entry :: rest => do
      (checkRelPath entry.path).mapError (.entry entry.path)
      ensure (entry.path ∉ listed) (.listedTwice entry.path)
      let bytes ← readWithin entry.path dir (components (utf8 entry.path))
      let files ← readListed dir (entry.path :: listed) rest
      return (entry.path, bytes) :: files

/-- Whether an entry is passed over, as its name begins with a dot. -/
def isHidden (name : FileName) : Bool :=
  (fromUtf8Lossy name.bytes).head? == some '.'

def joined (names : List FileName) : List Char :=
  ['/'].intercalate (names.map (fun name => fromUtf8Lossy name.bytes))

mutual

/-- Every spec an entry leads to, as a path relative to the root, passing over symlinks and hidden
entries.
-/
def collectEntry (above : List FileName) (name : FileName) : Node → List (List Char)
  | .symlink => []
  | .dir entries => if isHidden name then [] else collectSpecs (above ++ [name]) entries
  | .file _ | .other =>
      if isHidden name then []
      else if isSpecExtension (extension name.bytes) then [joined (above ++ [name])]
      else []

def collectSpecs (above : List FileName) : Entries → List (List Char)
  | .nil => []
  | .cons name node rest => collectEntry above name node ++ collectSpecs above rest

end

/-- Reads a bundle directory: the manifest bytes, the decoded signature, and the bytes of every file the
manifest lists, which is used for file names only.
-/
def readBundleDir (dir : Node)
    : Except BundleError (List UInt8 × List UInt8 × List (String × List UInt8)) :=
  match dir with
  | .symlink => .error .symlinkDir
  | .file _ | .other => .error .notDirectory
  | .dir entries => do
      let manifest ← readWithin manifestFile dir (components (utf8 manifestFile))
      let sigText ← readWithin signatureFile dir (components (utf8 signatureFile))
      let signature ← orRefuse (tools.decodeBase64 (trim (fromUtf8Lossy sigText))) .notBase64
      let listing ← orRefuse (tools.manifestFromSlice manifest) .malformedManifest
      let files ← readListed dir [] listing.specs
      match (collectSpecs [] entries).find? (fun path => String.ofList path ∉ listing.specs.map SpecEntry.path) with
      | some path => .error (.notListed path)
      | none => return (manifest, signature, files)

/-- Reads a bundle directory and verifies what was read. -/
def verifyBundleDir (dir : Node) (keys : List Key) : Except BundleError VerifiedBundle := do
  let (manifest, signature, files) ← readBundleDir tools dir
  verifyBundle tools manifest signature files keys

end Tools

end Dagron.Crypto
