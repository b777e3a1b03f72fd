import Dagron.Crypto.BundleChecks

/-! A verified bundle is exactly what was signed: where no file is listed under two spellings, and no file
whose name is no text is taken for a listed one, a directory is verified only with the files the manifest
lists, each as it was signed, and no others beside them.
-/

namespace Dagron.Crypto

open Dagron.Library Dagron.Spec

-- Digests

theorem toLower_hexEncode (bytes : List UInt8)
    : (hexEncode bytes).map Char.toLower = hexEncode bytes := by
  have digit : ∀ number < 16, (lowerHexDigit number).toLower = lowerHexDigit number := by decide
  rw [hexEncode, List.map_flatMap]
  refine List.flatMap_congr fun byte _ => ?_
  have small : byte.toNat < 256 := byte.toNat_lt
  rw [List.map_cons, List.map_cons, List.map_nil, digit _ (by omega), digit _ (by omega)]

theorem hexEncode_injective
    : Function.Injective hexEncode := by
  have digit : ∀ first < 16, ∀ second < 16, lowerHexDigit first = lowerHexDigit second → first = second := by
    decide
  intro first
  induction first with
  | nil =>
      intro second same
      cases second with
      | nil => rfl
      | cons byte rest => cases same
  | cons byte rest ih =>
      intro second same
      cases second with
      | nil => cases same
      | cons byte' rest' =>
          have small : byte.toNat < 256 := byte.toNat_lt
          have small' : byte'.toNat < 256 := byte'.toNat_lt
          obtain ⟨high, tail⟩ := List.cons.inj same
          obtain ⟨low, tail⟩ := List.cons.inj tail
          have high := digit _ (by omega) _ (by omega) high
          have low := digit _ (by omega) _ (by omega) low
          rw [ih tail, UInt8.toNat_inj.mp (show byte.toNat = byte'.toNat by omega)]

section Tools

variable {Key Signature : Type} {tools : BundleTools Key Signature} {dir : Node} {keys : List Key}

theorem eq_of_hasSha256 (injective : Function.Injective tools.sha256) {sha256 : String}
    {first second : List UInt8} (own : hasSha256 tools sha256 first) (own' : hasSha256 tools sha256 second)
    : first = second := by
  rw [hasSha256, beq_iff_eq, sha256Hex, toLower_hexEncode] at own own'
  exact injective (hexEncode_injective (own.trans own'.symm))

-- Directories

theorem Reads.unique {path : String} {first second : List UInt8} (reads : Reads dir path first)
    (reads' : Reads dir path second)
    : first = second := by
  obtain ⟨names, parts, found⟩ := reads
  obtain ⟨names', parts', found'⟩ := reads'
  obtain rfl := List.map_injective_iff.mpr (fun _ _ => Component.normal.inj) (parts.symm.trans parts')
  exact Node.file.inj (Option.some.inj (found.symm.trans found'))

/-- What every check of a directory but the distinctness of its paths comes to. -/
structure Passes (tools : BundleTools Key Signature) (dir : Node) (keys : List Key)
    (manifestBytes : List UInt8) (manifest : Manifest) : Prop where
  read : Reads dir manifestFile manifestBytes
  signed : ∃ sigText signature, Reads dir signatureFile sigText
    ∧ tools.decodeBase64 (trim (fromUtf8Lossy sigText)) = some signature
    ∧ Trusted tools keys manifestBytes signature
  parsed : tools.manifestFromSlice manifestBytes = some manifest
  formed : manifest.WellFormed
  contents : ∀ entry ∈ manifest.specs, ∃ text, Reads dir entry.path (utf8 text)
    ∧ hasSha256 tools entry.sha256 (utf8 text)
  listed : ∀ names, SpecUnder dir names → String.ofList (joined names) ∈ manifest.specs.map SpecEntry.path

theorem readBundleDir_eq_ok_iff {manifestBytes signature : List UInt8} {files : List (String × List UInt8)}
    : readBundleDir tools dir = .ok (manifestBytes, signature, files)
      ↔ Reads dir manifestFile manifestBytes
        ∧ (∃ sigText, Reads dir signatureFile sigText
          ∧ tools.decodeBase64 (trim (fromUtf8Lossy sigText)) = some signature)
        ∧ ∃ manifest, tools.manifestFromSlice manifestBytes = some manifest
          ∧ readListed dir [] manifest.specs = .ok files
          ∧ ∀ names, SpecUnder dir names →
            String.ofList (joined names) ∈ manifest.specs.map SpecEntry.path := by
  have inside {bytes : List UInt8} (reads : Reads dir manifestFile bytes) : ∃ entries, dir = .dir entries := by
    obtain ⟨names, parts, found⟩ := reads
    cases names with
    | nil => exact absurd parts (by decide)
    | cons name names =>
        cases dir with
        | dir entries => exact ⟨entries, rfl⟩
        | file | symlink | other => cases found
  cases dir with
  | file | symlink | other =>
      refine iff_of_false (by simp [readBundleDir]) ?_
      rintro ⟨reads, _⟩
      obtain ⟨_, same⟩ := inside reads
      cases same
  | dir entries =>
      have unlisted (manifest : Manifest)
          : ((collectSpecs [] entries).find? fun path =>
              String.ofList path ∉ manifest.specs.map SpecEntry.path) = none
            ↔ ∀ names, SpecUnder (.dir entries) names →
              String.ofList (joined names) ∈ manifest.specs.map SpecEntry.path := by
        simp only [List.find?_eq_none, mem_collectSpecs, List.nil_append, decide_eq_true_eq, not_not]
        exact ⟨fun each names spec => each _ ⟨names, rfl, spec⟩,
          fun each _ ⟨names, same, spec⟩ => same ▸ each names spec⟩
      simp only [readBundleDir, bind_eq_ok_iff, readWithin_eq_ok_iff, orRefuse_eq_ok_iff, ← unlisted]
      constructor
      · rintro ⟨bytes, reads, sigText, readsSig, decoded, text, manifest, parsed, files', listed, made⟩
        split at made
        · cases made
        · rename_i none_
          cases made
          exact ⟨reads, ⟨sigText, readsSig, text⟩, manifest, parsed, listed, none_⟩
      · rintro ⟨reads, ⟨sigText, readsSig, decoded⟩, manifest, parsed, listed, none_⟩
        refine ⟨manifestBytes, reads, sigText, readsSig, signature, decoded, manifest, parsed, files, listed, ?_⟩
        rw [none_]
        rfl

theorem forall₂_mem {α β : Type} {related : α → β → Prop} {items : List α} {values : List β}
    (both : List.Forall₂ related items values)
    : List.Forall₂ (fun item value => item ∈ items ∧ value ∈ values ∧ related item value) items values := by
  induction both with
  | nil => exact .nil
  | cons here later ih =>
      refine .cons ⟨List.mem_cons_self, List.mem_cons_self, here⟩ (ih.imp ?_)
      rintro item value ⟨listed, among, holds⟩
      exact ⟨List.mem_cons_of_mem _ listed, List.mem_cons_of_mem _ among, holds⟩

/-- What is verified of a listed spec in a directory: its file there has its digest and is its text. -/
def VerifiesIn (tools : BundleTools Key Signature) (dir : Node) (entry : SpecEntry) (spec : String × String)
    : Prop :=
  spec.1 = entry.path ∧ Reads dir entry.path (utf8 spec.2) ∧ hasSha256 tools entry.sha256 (utf8 spec.2)

theorem verifyBundleDir_eq_ok_iff {bundle : VerifiedBundle}
    : verifyBundleDir tools dir keys = .ok bundle
      ↔ Passes tools dir keys bundle.manifestBytes bundle.manifest
        ∧ List.Forall₂ (VerifiesIn tools dir) bundle.manifest.specs bundle.specs
        ∧ bundle.digest = String.ofList (sha256Hex tools bundle.manifestBytes) := by
  rw [verifyBundleDir, bind_eq_ok_iff]
  constructor
  · rintro ⟨⟨manifestBytes, signature, files⟩, read, verified⟩
    obtain ⟨reads, ⟨sigText, readsSig, decoded⟩, manifest, parsed, listed, inside⟩ :=
      readBundleDir_eq_ok_iff.mp read
    obtain ⟨trusted, parsed', formed, _, once, specs, rfl, digest⟩ := verifyBundle_eq_ok_iff.mp verified
    obtain rfl := Option.some.inj (parsed.symm.trans parsed')
    obtain ⟨each, _, _⟩ := readListed_eq_ok_iff.mp listed
    have own (entry : SpecEntry) (spec : String × String) (holds : Verifies tools files entry spec)
        : VerifiesIn tools dir entry spec := by
      obtain ⟨path, found, same⟩ := holds
      have among := (lookup_eq_some_iff_mem once).mp found
      obtain ⟨other, _, path', _, reads⟩ := exists_of_forall₂ each.flip among
      have path' : entry.path = other.path := path'
      exact ⟨path, by rw [path']; exact reads, same⟩
    refine ⟨⟨reads, ⟨sigText, signature, readsSig, decoded, trusted⟩, parsed, formed, ?_, inside⟩,
      specs.imp own, digest⟩
    intro entry listed
    obtain ⟨spec, _, holds⟩ := exists_of_forall₂ specs listed
    exact ⟨spec.2, (own entry spec holds).2⟩
  · rintro ⟨⟨reads, ⟨sigText, signature, readsSig, decoded, trusted⟩, parsed, formed, _, inside⟩, specs,
      digest⟩
    let files := bundle.specs.map fun spec => (spec.1, utf8 spec.2)
    have names : files.map Prod.fst = bundle.manifest.specs.map SpecEntry.path := by
      have each : List.Forall₂ (· = ·) (bundle.specs.map Prod.fst)
          (bundle.manifest.specs.map SpecEntry.path) :=
        List.forall₂_map_left_iff.mpr (List.forall₂_map_right_iff.mpr (specs.flip.imp fun _ _ holds => holds.1))
      rw [List.forall₂_eq_eq_eq] at each
      rw [← each, List.map_map]
      rfl
    have once : (files.map Prod.fst).Nodup := names ▸ formed.once
    refine ⟨(bundle.manifestBytes, signature, files), ?_, ?_⟩
    · refine readBundleDir_eq_ok_iff.mpr
        ⟨reads, ⟨sigText, readsSig, decoded⟩, bundle.manifest, parsed, ?_, inside⟩
      refine readListed_eq_ok_iff.mpr ⟨?_, formed.once, fun _ _ => List.not_mem_nil⟩
      refine List.forall₂_map_right_iff.mpr ((forall₂_mem specs).imp ?_)
      rintro entry spec ⟨listed, _, path, reads, _⟩
      exact ⟨path, (formed.entries entry listed).1, reads⟩
    · refine verifyBundle_eq_ok_iff.mpr ⟨trusted, parsed, formed, ?_, once, ?_, rfl, digest⟩
      · intro file among
        rw [← names]
        exact List.mem_map_of_mem among
      · refine (forall₂_mem specs).imp ?_
        rintro entry spec ⟨_, among, path, reads, same⟩
        refine ⟨path, (lookup_eq_some_iff_mem once).mpr ?_, same⟩
        exact List.mem_map.mpr ⟨spec, among, by rw [path]⟩

-- Spellings

/-- A file of a directory that a manifest lists, under one of its spellings. -/
def Lists (manifest : Manifest) (names : List FileName) : Prop :=
  ∃ entry ∈ manifest.specs, components (utf8 entry.path) = names.map (fun name => .normal name.bytes)

/-- A verified bundle that is exactly what was signed: signed with a trusted key; the directory's own
manifest; its paths names of distinct files, each regular; no spec of the directory unlisted; and, in
manifest order, the texts of the files, each the one content that has the listed digest.
-/
structure Exact (tools : BundleTools Key Signature) (signed : Key → List UInt8 → Prop) (dir : Node)
    (keys : List Key) (bundle : VerifiedBundle) : Prop where
  signer : ∃ key ∈ keys, signed key bundle.manifestBytes
  manifest : Reads dir manifestFile bundle.manifestBytes
    ∧ tools.manifestFromSlice bundle.manifestBytes = some bundle.manifest
  distinct : (bundle.manifest.specs.map fun entry => components (utf8 entry.path)).Nodup
  regular : ∀ entry ∈ bundle.manifest.specs, ∃ bytes, Reads dir entry.path bytes
  listed : ∀ names, SpecUnder dir names → Lists bundle.manifest names
  contents : List.Forall₂ (VerifiesIn tools dir) bundle.manifest.specs bundle.specs
  only : ∀ entry ∈ bundle.manifest.specs, ∀ first second, hasSha256 tools entry.sha256 first →
    hasSha256 tools entry.sha256 second → first = second

/-- A manifest that lists no file of a directory under two spellings, and that no file whose name is no
text is taken to be listed by.
-/
structure SpelledOnce (dir : Node) (manifest : Manifest) : Prop where
  distinct : (manifest.specs.map fun entry => components (utf8 entry.path)).Nodup
  texts : ∀ names, SpecUnder dir names →
    String.ofList (joined names) ∈ manifest.specs.map SpecEntry.path → ∀ name ∈ names, IsText name.bytes

theorem encodeChars_intercalate (parts : List (List Char))
    : encodeChars (['/'].intercalate parts) = [slash].intercalate (parts.map encodeChars) := by
  induction parts with
  | nil => rfl
  | cons part rest ih =>
      cases rest with
      | nil => simp [List.intercalate, encodeChars]
      | cons next rest =>
          have encoded : encodeChars ['/'] = [slash] := rfl
          rw [List.map_cons, List.map_cons, List.intercalate_cons_cons, List.intercalate_cons_cons,
            ← List.map_cons, ← ih]
          simp only [encodeChars, List.flatMap_append] at encoded ⊢
          rw [encoded]

theorem components_joined {names : List FileName} (some_ : names ≠ [])
    (texts : ∀ name ∈ names, IsText name.bytes)
    : components (utf8 (String.ofList (joined names))) = names.map (fun name => .normal name.bytes) := by
  have own : (names.map fun name => fromUtf8Lossy name.bytes).map encodeChars
      = names.map FileName.bytes := by
    rw [List.map_map]
    refine List.map_congr_left fun name listed => ?_
    obtain ⟨chars, encoded⟩ := texts name listed
    rw [Function.comp_apply, ← encoded, fromUtf8Lossy_encodeChars]
  rw [utf8_eq_encodeChars, String.toList_ofList, joined, encodeChars_intercalate, own]
  exact components_intercalate some_

theorem SpecUnder.ne_nil {names : List FileName} (spec : SpecUnder dir names)
    : names ≠ [] := by
  rintro rfl
  obtain ⟨_, _, _, none_, _⟩ := spec
  cases none_

/-- A directory is verified only as exactly what was signed where, if it passes every other check, its
manifest spells each file once; and a bundle is verified exactly where a trusted key signed a well-formed
manifest and the files are what it lists.
-/
theorem verified_exactly_iff (tools : BundleTools Key Signature) (signed : Key → List UInt8 → Prop)
    (unforgeable : ∀ key message signature, tools.verifyStrict key message signature → signed key message)
    (injective : Function.Injective tools.sha256) (dir : Node) (keys : List Key)
    : ((∀ bundle, verifyBundleDir tools dir keys = .ok bundle → Exact tools signed dir keys bundle)
        ↔ ∀ manifestBytes manifest, Passes tools dir keys manifestBytes manifest → SpelledOnce dir manifest)
      ∧ ∀ manifestBytes signature files,
        (∃ bundle, verifyBundle tools manifestBytes signature files keys = .ok bundle)
          ↔ Trusted tools keys manifestBytes signature
            ∧ ∃ manifest, tools.manifestFromSlice manifestBytes = some manifest ∧ manifest.WellFormed
              ∧ Supplied tools manifest files := by
  refine ⟨⟨fun exact_ manifestBytes manifest passes => ?_, fun once bundle verified => ?_⟩,
    fun manifestBytes signature files => exists_verifyBundle_iff⟩
  · obtain ⟨specs, verified⟩ : ∃ specs, List.Forall₂ (VerifiesIn tools dir) manifest.specs specs := by
      refine exists_forall₂ fun entry listed => ?_
      obtain ⟨text, reads, same⟩ := passes.contents entry listed
      exact ⟨(entry.path, text), rfl, reads, same⟩
    have whole := exact_ ⟨manifest, manifestBytes, specs, String.ofList (sha256Hex tools manifestBytes)⟩
      (verifyBundleDir_eq_ok_iff.mpr ⟨passes, verified, rfl⟩)
    refine ⟨whole.distinct, fun names spec _ name among => ?_⟩
    obtain ⟨entry, _, parts⟩ := whole.listed names spec
    have own : Component.normal name.bytes ∈ components (utf8 entry.path) := by
      rw [parts]
      exact List.mem_map_of_mem (f := fun name : FileName => Component.normal name.bytes) among
    exact isText_of_mem_components own
  · obtain ⟨passes, specs, _⟩ := verifyBundleDir_eq_ok_iff.mp verified
    obtain ⟨distinct, texts⟩ := once _ _ passes
    obtain ⟨_, _, _, _, key, listed, read, _, _, signs⟩ := passes.signed
    refine ⟨⟨key, listed, unforgeable key _ read signs⟩, ⟨passes.read, passes.parsed⟩, distinct, ?_, ?_, specs,
      fun entry _ first second => eq_of_hasSha256 injective⟩
    · intro entry listed
      obtain ⟨text, reads, _⟩ := passes.contents entry listed
      exact ⟨utf8 text, reads⟩
    · intro names spec
      have among := passes.listed names spec
      obtain ⟨entry, listed, path⟩ := List.mem_map.mp among
      exact ⟨entry, listed, by rw [path, components_joined spec.ne_nil (texts names spec among)]⟩

end Tools

-- A bundle of one spec

def sampleSpec : String :=
  "name: a\n"

def sampleSha256 : String :=
  "1e7e5f3c45fc71cc0d92ffd6a4136ce35256118f2cb9a940b09a9e336022a571"

/-- A manifest that lists the spec once, and one that lists it twice. -/
def sampleManifest (twice : Bool) : Manifest where
  format := bundleFormat
  name := "n"
  version := "1"
  createdAt := ""
  specs := ⟨"s/a.yaml", sampleSha256⟩ :: if twice then [⟨"s//a.yaml", sampleSha256⟩] else []

def sampleBytes (twice : Bool) : List UInt8 :=
  utf8 ("\x7b\"format\":\"dagron.bundle.v1\",\"name\":\"n\",\"version\":\"1\",\"created_at\":\"\",\"specs\":["
    ++ "\x7b\"path\":\"s/a.yaml\",\"sha256\":\"" ++ sampleSha256 ++ "\"\x7d"
    ++ (if twice then ",\x7b\"path\":\"s//a.yaml\",\"sha256\":\"" ++ sampleSha256 ++ "\"\x7d" else "")
    ++ "]\x7d")

/-- The key that signed both, and its signatures of them. -/
def sampleKey : List UInt8 :=
  [219, 216, 14, 169, 176, 110, 157, 31, 61, 130, 47, 168, 38, 180, 204, 195, 224, 49, 72, 17,
    81, 18, 75, 180, 146, 210, 73, 8, 79, 192, 53, 204]

def sampleSignature (twice : Bool) : List UInt8 :=
  if twice then
    [65, 150, 15, 58, 237, 26, 29, 178, 143, 142, 236, 95, 35, 251, 111, 36, 50, 98, 194, 243, 110,
      131, 193, 137, 38, 196, 235, 225, 120, 212, 139, 168, 96, 144, 87, 194, 13, 199, 10, 133,
      243, 234, 138, 128, 36, 104, 230, 108, 212, 170, 71, 106, 24, 204, 89, 97, 168, 145, 222, 31,
      193, 191, 162, 7]
  else
    [252, 144, 120, 193, 112, 218, 140, 106, 111, 229, 159, 238, 26, 165, 243, 191, 165, 159, 78,
      76, 42, 124, 186, 155, 187, 54, 79, 184, 236, 151, 23, 181, 165, 242, 140, 156, 56, 40, 44,
      172, 149, 174, 42, 222, 204, 17, 42, 75, 240, 42, 63, 91, 4, 235, 11, 69, 73, 205, 21, 216,
      216, 143, 63, 12]

def sampleSignatureText (twice : Bool) : String :=
  if twice then "QZYPOu0aHbKPjuxfI/tvJDJiwvNug8GJJsTr4XjUi6hgkFfCDccKhfPqioAkaOZs1KpHahjMWWGokd4fwb+iBw=="
  else "/JB4wXDajGpv5Z/uGqXzv6WfTkwqfLqbuzZPuOyXF7Wl8oycOCgsrJWuKt7MESpL8Co/WwTrC0VJzRXY2I8/DA=="

/-- Digests and signatures as they are of the sample's bytes. -/
def sampleTools : BundleTools (List UInt8) (List UInt8) where
  signatureFromSlice := some
  verifyStrict key message signature :=
    key = sampleKey ∧ (message = sampleBytes false ∧ signature = sampleSignature false
      ∨ message = sampleBytes true ∧ signature = sampleSignature true)
  sha256 bytes :=
    if bytes = utf8 sampleSpec then
      [30, 126, 95, 60, 69, 252, 113, 204, 13, 146, 255, 214, 164, 19, 108, 227, 82, 86, 17, 143, 44,
        185, 169, 64, 176, 154, 158, 51, 96, 34, 165, 113]
    else if bytes = sampleBytes false then
      [219, 72, 219, 224, 78, 254, 69, 216, 202, 221, 119, 47, 70, 172, 204, 60, 80, 119, 157, 242,
        56, 16, 118, 111, 15, 168, 74, 201, 236, 195, 153, 216]
    else if bytes = sampleBytes true then
      [126, 137, 44, 57, 184, 239, 183, 63, 121, 80, 22, 7, 129, 68, 220, 20, 197, 44, 225, 125, 216,
        166, 95, 197, 52, 73, 32, 33, 4, 84, 134, 89]
    else 0 :: bytes
  manifestFromSlice bytes :=
    if bytes = sampleBytes false then some (sampleManifest false)
    else if bytes = sampleBytes true then some (sampleManifest true)
    else none
  decodeBase64 text :=
    if text = (sampleSignatureText false).toList then some (sampleSignature false)
    else if text = (sampleSignatureText true).toList then some (sampleSignature true)
    else none

def sampleName (name : String) (valid : utf8 name ≠ [] ∧ slash ∉ utf8 name
    ∧ utf8 name ≠ [dot] ∧ utf8 name ≠ [dot, dot]) : FileName :=
  ⟨utf8 name, valid.1, valid.2.1, valid.2.2⟩

/-- A directory with the manifest, its signature and the one spec. -/
def sampleDir (twice : Bool) : Node :=
  .dir (.cons (sampleName "manifest.json" (by decide)) (.file (sampleBytes twice))
    (.cons (sampleName "manifest.sig" (by decide)) (.file (utf8 (sampleSignatureText twice)))
      (.cons (sampleName "s" (by decide))
        (.dir (.cons (sampleName "a.yaml" (by decide)) (.file (utf8 sampleSpec)) .nil)) .nil)))

def sampleSigned (key message : List UInt8) : Prop :=
  key = sampleKey ∧ (message = sampleBytes false ∨ message = sampleBytes true)

theorem sampleTools_unforgeable (key message signature : List UInt8)
    (verifies : sampleTools.verifyStrict key message signature)
    : sampleSigned key message := by
  obtain ⟨rfl, ⟨rfl, _⟩ | ⟨rfl, _⟩⟩ := of_decide_eq_true verifies
  · exact ⟨rfl, .inl rfl⟩
  · exact ⟨rfl, .inr rfl⟩

theorem sampleTools_injective
    : Function.Injective sampleTools.sha256 := by
  intro first second same
  simp only [sampleTools] at same
  split_ifs at same with one two three one' two' three' one' two' three' one' two' three' one' two' three'
  all_goals first
    | exact absurd same (by decide)
    | exact (List.cons.inj same).2
    | exact absurd (List.cons.inj same).1 (by decide)
    | simp only [*]

theorem isText_sampleDir {twice : Bool} {names : List FileName} {leaf : Node}
    (leads : (sampleDir twice).Leads names leaf)
    : ∀ name ∈ names, IsText name.bytes := by
  have text (name : String) : IsText (utf8 name) := ⟨name.toList, (utf8_eq_encodeChars name).symm⟩
  cases leads with
  | here => exact fun name among => by cases among
  | inside has leads =>
      rcases has_cons_iff.mp has with ⟨rfl, rfl⟩ | has
      · cases leads
        exact List.forall_mem_singleton.mpr (text _)
      rcases has_cons_iff.mp has with ⟨rfl, rfl⟩ | has
      · cases leads
        exact List.forall_mem_singleton.mpr (text _)
      rcases has_cons_iff.mp has with ⟨rfl, rfl⟩ | has
      · cases leads with
        | here => exact List.forall_mem_singleton.mpr (text _)
        | inside has leads =>
            rcases has_cons_iff.mp has with ⟨rfl, rfl⟩ | has
            · cases leads
              exact List.forall_mem_cons.mpr ⟨text _, List.forall_mem_singleton.mpr (text _)⟩
            · cases has
      · cases has

/-- The sample is verified, as exactly what was signed. -/
theorem verified_exactly_iff_sample
    : ∃ bundle, verifyBundleDir sampleTools (sampleDir false) [sampleKey] = .ok bundle
        ∧ Exact sampleTools sampleSigned (sampleDir false) [sampleKey] bundle := by
  obtain ⟨bundle, verified⟩ : ∃ bundle,
      verifyBundleDir sampleTools (sampleDir false) [sampleKey] = .ok bundle := by
    have ok : (verifyBundleDir sampleTools (sampleDir false) [sampleKey]).toOption.isSome := by
      decide +kernel
    cases made : verifyBundleDir sampleTools (sampleDir false) [sampleKey] with
    | ok bundle => exact ⟨bundle, rfl⟩
    | error problem => rw [made] at ok; cases ok
  refine ⟨bundle, verified, ?_⟩
  refine (verified_exactly_iff sampleTools sampleSigned sampleTools_unforgeable sampleTools_injective
    (sampleDir false) [sampleKey]).1.mpr (fun manifestBytes manifest passes => ?_) bundle verified
  have bytes : manifestBytes = sampleBytes false :=
    passes.read.unique ⟨[utf8 manifestFile], by decide, congrArg (Option.bind · _) (if_pos rfl)⟩
  have parsed := passes.parsed
  rw [bytes] at parsed
  have known : sampleTools.manifestFromSlice (sampleBytes false) = some (sampleManifest false) := by
    simp only [sampleTools, if_true]
  obtain rfl : sampleManifest false = manifest := Option.some.inj (known.symm.trans parsed)
  exact ⟨by decide, fun names spec _ => isText_sampleDir spec.1.choose_spec.1⟩

/-- One file that is listed under two spellings is verified twice. -/
theorem not_verified_exactly
    : ¬ ∀ bundle, verifyBundleDir sampleTools (sampleDir true) [sampleKey] = .ok bundle →
        Exact sampleTools sampleSigned (sampleDir true) [sampleKey] bundle := by
  intro exact_
  have ok : (verifyBundleDir sampleTools (sampleDir true) [sampleKey]).toOption.map VerifiedBundle.manifest
      = some (sampleManifest true) := by
    decide +kernel
  cases made : verifyBundleDir sampleTools (sampleDir true) [sampleKey] with
  | error problem =>
      rw [made] at ok
      cases ok
  | ok bundle =>
      rw [made] at ok
      have distinct := (exact_ bundle made).distinct
      rw [show bundle.manifest = sampleManifest true from Option.some.inj ok] at distinct
      exact absurd distinct (by decide)

end Dagron.Crypto
