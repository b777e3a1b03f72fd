import Dagron.Crypto.Bundle

/-! What it takes for a bundle to be verified: each check said of what it checks, and together of the
manifest and the files that are supplied, or that a directory has.
-/

namespace Dagron.Crypto

open Dagron.Library Dagron.Spec

-- Single checks

theorem ensure_eq_ok_iff {ok : Bool} {problem : BundleError} {done : Unit}
    : ensure ok problem = .ok done ↔ ok = true := by
  cases ok <;> simp [ensure]

theorem orRefuse_eq_ok_iff {Value : Type} {given : Option Value} {problem : BundleError} {value : Value}
    : orRefuse given problem = .ok value ↔ given = some value := by
  cases given <;> simp [orRefuse]

/-- A path that is relative, made of names alone, and named like a spec. -/
structure RelPath (path : String) : Prop where
  some_ : path ≠ ""
  plain : ∀ char ∈ path.toList, char ≠ '\x00' ∧ char ≠ '\\'
  normal : ∃ names : List (List UInt8), components (utf8 path) = names.map Component.normal
  spec : isSpecExtension (pathExtension (utf8 path))

theorem all_isNormal_iff {parts : List Component}
    : parts.all isNormal ↔ ∃ names : List (List UInt8), parts = names.map Component.normal := by
  rw [List.all_eq_true]
  constructor
  · intro normal
    induction parts with
    | nil => exact ⟨[], rfl⟩
    | cons part rest ih =>
        obtain ⟨names, rfl⟩ := ih fun other listed => normal other (List.mem_cons_of_mem _ listed)
        have here := normal part List.mem_cons_self
        cases part with
        | normal name => exact ⟨name :: names, rfl⟩
        | rootDir | curDir | parentDir => cases here
  · rintro ⟨names, rfl⟩ part listed
    obtain ⟨name, _, rfl⟩ := List.mem_map.mp listed
    rfl

theorem checkRelPath_eq_ok_iff {path : String} {done : Unit}
    : checkRelPath path = .ok done ↔ RelPath path := by
  simp only [checkRelPath, bind_eq_ok_iff, ensure_eq_ok_iff, exists_const, decide_eq_true_eq]
  rw [all_isNormal_iff, List.all_eq_true]
  simp only [decide_eq_true_eq]
  exact ⟨fun ⟨some_, plain, normal, spec⟩ => ⟨some_, plain, normal, spec⟩,
    fun ⟨some_, plain, normal, spec⟩ => ⟨some_, plain, normal, spec⟩⟩

/-- A digest as a manifest carries it: 64 hexadecimal characters. -/
def IsSha256 (sha256 : String) : Prop :=
  sha256.utf8ByteSize = 64 ∧ sha256.toList.all isAsciiHexDigit

theorem checkEntries_eq_ok_iff {entries : List SpecEntry} {listed : List String} {done : Unit}
    : checkEntries listed entries = .ok done
      ↔ (∀ entry ∈ entries, RelPath entry.path ∧ IsSha256 entry.sha256)
        ∧ (entries.map SpecEntry.path).Nodup ∧ ∀ entry ∈ entries, entry.path ∉ listed := by
  induction entries generalizing listed with
  | nil => simp [checkEntries]
  | cons entry rest ih =>
      simp only [checkEntries, bind_eq_ok_iff, mapError_eq_ok_iff, checkRelPath_eq_ok_iff,
        ensure_eq_ok_iff, ih, exists_const, Bool.and_eq_true, decide_eq_true_eq]
      rw [List.forall_mem_cons, List.forall_mem_cons, List.map_cons, List.nodup_cons]
      constructor
      · rintro ⟨path, sha256, fresh, each, once, others⟩
        refine ⟨⟨⟨path, sha256⟩, each⟩, ⟨?_, once⟩, fresh, fun other inside later => ?_⟩
        · intro inside
          obtain ⟨other, inside, same⟩ := List.mem_map.mp inside
          exact others other inside (same ▸ List.mem_cons_self)
        · exact others other inside (List.mem_cons_of_mem _ later)
      · rintro ⟨⟨⟨path, sha256⟩, each⟩, ⟨alone, once⟩, fresh, others⟩
        refine ⟨path, sha256, fresh, each, once, fun other inside later => ?_⟩
        rcases List.mem_cons.mp later with same | later
        · exact alone (same ▸ List.mem_map_of_mem inside)
        · exact others other inside later

theorem checkSupplied_eq_ok_iff {listed : List String} {files : List (String × List UInt8)}
    {supplied : List String} {done : Unit}
    : checkSupplied listed supplied files = .ok done
      ↔ (∀ file ∈ files, file.1 ∈ listed) ∧ (files.map Prod.fst).Nodup
        ∧ ∀ file ∈ files, file.1 ∉ supplied := by
  induction files generalizing supplied with
  | nil => simp [checkSupplied]
  | cons file rest ih =>
      simp only [checkSupplied, bind_eq_ok_iff, ensure_eq_ok_iff, ih, exists_const, decide_eq_true_eq]
      rw [List.forall_mem_cons, List.forall_mem_cons, List.map_cons, List.nodup_cons]
      constructor
      · rintro ⟨fresh, here, each, once, others⟩
        refine ⟨⟨here, each⟩, ⟨?_, once⟩, fresh, fun other inside later => ?_⟩
        · intro inside
          obtain ⟨other, inside, same⟩ := List.mem_map.mp inside
          exact others other inside (same ▸ List.mem_cons_self)
        · exact others other inside (List.mem_cons_of_mem _ later)
      · rintro ⟨⟨here, each⟩, ⟨alone, once⟩, fresh, others⟩
        refine ⟨fresh, here, each, once, fun other inside later => ?_⟩
        rcases List.mem_cons.mp later with same | later
        · exact alone (same ▸ List.mem_map_of_mem inside)
        · exact others other inside later

/-- A manifest that verification goes on with. -/
structure Manifest.WellFormed (manifest : Manifest) : Prop where
  format : manifest.format = bundleFormat
  named : trim manifest.name.toList ≠ [] ∧ trim manifest.version.toList ≠ []
  some_ : manifest.specs ≠ []
  entries : ∀ entry ∈ manifest.specs, RelPath entry.path ∧ IsSha256 entry.sha256
  once : (manifest.specs.map SpecEntry.path).Nodup

section Tools

variable {Key Signature : Type} {tools : BundleTools Key Signature}
  {manifestBytes signature : List UInt8} {files : List (String × List UInt8)} {keys : List Key}

/-- Manifest bytes with a signature that one of the keys verifies. -/
def Trusted (tools : BundleTools Key Signature) (keys : List Key) (manifestBytes signature : List UInt8)
    : Prop :=
  ∃ key ∈ keys, ∃ read, signature.length = signatureLen ∧ tools.signatureFromSlice signature = some read
    ∧ tools.verifyStrict key manifestBytes read

/-- Files that are exactly what a manifest lists: each listed path once, with the listed digest, a text. -/
structure Supplied (tools : BundleTools Key Signature) (manifest : Manifest)
    (files : List (String × List UInt8)) : Prop where
  once : (files.map Prod.fst).Nodup
  exact_ : ∀ path, path ∈ files.map Prod.fst ↔ path ∈ manifest.specs.map SpecEntry.path
  hashes : ∀ entry ∈ manifest.specs, ∀ bytes, (entry.path, bytes) ∈ files →
    hasSha256 tools entry.sha256 bytes
  texts : ∀ file ∈ files, ∃ text, utf8 text = file.2

/-- What is verified of a listed spec: that a file of its path has its digest and is its text. -/
def Verifies (tools : BundleTools Key Signature) (files : List (String × List UInt8)) (entry : SpecEntry)
    (spec : String × String) : Prop :=
  spec.1 = entry.path ∧ files.lookup entry.path = some (utf8 spec.2)
    ∧ hasSha256 tools entry.sha256 (utf8 spec.2)

theorem verifySpec_eq_ok_iff {entry : SpecEntry} {spec : String × String}
    : verifySpec tools files entry = .ok spec ↔ Verifies tools files entry spec := by
  simp only [verifySpec, bind_eq_ok_iff, orRefuse_eq_ok_iff, ensure_eq_ok_iff, exists_const,
    fromUtf8_eq_some_iff]
  constructor
  · rintro ⟨bytes, found, same, text, rfl, made⟩
    cases made
    exact ⟨rfl, found, same⟩
  · obtain ⟨path, text⟩ := spec
    rintro ⟨rfl, found, same⟩
    exact ⟨_, found, same, text, rfl, rfl⟩

theorem verifyBundle_eq_ok_iff {bundle : VerifiedBundle}
    : verifyBundle tools manifestBytes signature files keys = .ok bundle
      ↔ Trusted tools keys manifestBytes signature
        ∧ tools.manifestFromSlice manifestBytes = some bundle.manifest
        ∧ bundle.manifest.WellFormed
        ∧ (∀ file ∈ files, file.1 ∈ bundle.manifest.specs.map SpecEntry.path)
        ∧ (files.map Prod.fst).Nodup
        ∧ List.Forall₂ (Verifies tools files) bundle.manifest.specs bundle.specs
        ∧ bundle.manifestBytes = manifestBytes
        ∧ bundle.digest = String.ofList (sha256Hex tools manifestBytes) := by
  simp only [verifyBundle, bind_eq_ok_iff, orRefuse_eq_ok_iff, ensure_eq_ok_iff, exists_const,
    checkEntries_eq_ok_iff, checkSupplied_eq_ok_iff, mapM_eq_ok, verifySpec_eq_ok_iff,
    decide_eq_true_eq, List.any_eq_true]
  constructor
  · rintro ⟨_, long, read, own, ⟨key, listed, signed⟩, manifest, parsed, format, named, some_, entries,
      ⟨inside, once, _⟩, specs, verified, made⟩
    cases made
    refine ⟨⟨key, listed, read, long, own, signed⟩, parsed, ⟨format, named, ?_, entries.1, entries.2.1⟩,
      inside, once, verified, rfl, rfl⟩
    rintro empty
    rw [empty] at some_
    exact absurd some_ (by decide)
  · rintro ⟨⟨key, listed, read, long, own, signed⟩, parsed, ⟨format, named, some_, entries, alone⟩, inside,
      once, verified, rfl, made⟩
    obtain ⟨manifest, _, specs, _⟩ := bundle
    refine ⟨?_, long, read, own, ⟨key, listed, signed⟩, manifest, parsed, format, named, ?_,
      ⟨entries, alone, fun _ _ => List.not_mem_nil⟩, ⟨inside, once, fun _ _ => List.not_mem_nil⟩, specs,
      verified, ?_⟩
    · rw [List.isEmpty_eq_false_iff_exists_mem.mpr ⟨key, listed⟩]
      rfl
    · rw [List.isEmpty_eq_false_iff.mpr some_]
      rfl
    · rw [← made]
      rfl

theorem lookup_eq_some_iff_mem (once : (files.map Prod.fst).Nodup) {path : String} {bytes : List UInt8}
    : files.lookup path = some bytes ↔ (path, bytes) ∈ files := by
  rw [List.lookup_eq_some_iff]
  constructor
  · rintro ⟨before, after, rfl, _⟩
    exact List.mem_append_right _ List.mem_cons_self
  · intro among
    obtain ⟨before, after, rfl⟩ := List.append_of_mem among
    refine ⟨before, after, rfl, fun file inside => bne_iff_ne.mpr fun same => ?_⟩
    rw [List.map_append, List.map_cons] at once
    exact (List.nodup_append.mp once).2.2 _ (List.mem_map_of_mem inside) _ List.mem_cons_self same.symm

theorem exists_forall₂ {α β : Type} {related : α → β → Prop} {items : List α}
    (each : ∀ item ∈ items, ∃ value, related item value)
    : ∃ values, List.Forall₂ related items values := by
  induction items with
  | nil => exact ⟨[], .nil⟩
  | cons item rest ih =>
      obtain ⟨value, here⟩ := each item List.mem_cons_self
      obtain ⟨values, later⟩ := ih fun other listed => each other (List.mem_cons_of_mem _ listed)
      exact ⟨value :: values, .cons here later⟩

theorem exists_of_forall₂ {α β : Type} {related : α → β → Prop} {items : List α} {values : List β}
    (both : List.Forall₂ related items values) {item : α} (listed : item ∈ items)
    : ∃ value ∈ values, related item value := by
  induction both with
  | nil => cases listed
  | cons here later ih =>
      rcases List.mem_cons.mp listed with rfl | listed
      · exact ⟨_, List.mem_cons_self, here⟩
      · obtain ⟨value, inside, holds⟩ := ih listed
        exact ⟨value, List.mem_cons_of_mem _ inside, holds⟩

/-- Verification succeeds exactly where a trusted key signed a well-formed manifest and the files are
what it lists.
-/
theorem exists_verifyBundle_iff
    : (∃ bundle, verifyBundle tools manifestBytes signature files keys = .ok bundle)
      ↔ Trusted tools keys manifestBytes signature
        ∧ ∃ manifest, tools.manifestFromSlice manifestBytes = some manifest ∧ manifest.WellFormed
          ∧ Supplied tools manifest files := by
  simp only [verifyBundle_eq_ok_iff]
  constructor
  · rintro ⟨bundle, trusted, parsed, formed, inside, once, verified, _, _⟩
    refine ⟨trusted, bundle.manifest, parsed, formed, once, fun path => ⟨fun among => ?_, fun among => ?_⟩,
      fun entry listed bytes among => ?_, fun file among => ?_⟩
    · obtain ⟨file, here, rfl⟩ := List.mem_map.mp among
      exact inside file here
    · obtain ⟨entry, listed, rfl⟩ := List.mem_map.mp among
      obtain ⟨spec, _, _, found, _⟩ := exists_of_forall₂ verified listed
      exact List.mem_map_of_mem ((lookup_eq_some_iff_mem once).mp found)
    · obtain ⟨spec, _, _, found, same⟩ := exists_of_forall₂ verified listed
      rw [(lookup_eq_some_iff_mem once).mpr among] at found
      rwa [Option.some.inj found]
    · obtain ⟨entry, listed, own⟩ := List.mem_map.mp (inside file among)
      obtain ⟨spec, _, _, found, _⟩ := exists_of_forall₂ verified listed
      rw [own, (lookup_eq_some_iff_mem once).mpr among] at found
      exact ⟨spec.2, (Option.some.inj found).symm⟩
  · rintro ⟨trusted, manifest, parsed, formed, once, exact_, hashes, texts⟩
    obtain ⟨specs, verified⟩ : ∃ specs, List.Forall₂ (Verifies tools files) manifest.specs specs := by
      refine exists_forall₂ fun entry listed => ?_
      obtain ⟨⟨path, bytes⟩, among, own⟩ := List.mem_map.mp ((exact_ _).mpr (List.mem_map_of_mem listed))
      obtain rfl : path = entry.path := own
      obtain ⟨text, rfl⟩ := texts _ among
      exact ⟨(entry.path, text), rfl, (lookup_eq_some_iff_mem once).mpr among, hashes entry listed _ among⟩
    exact ⟨⟨manifest, manifestBytes, specs, String.ofList (sha256Hex tools manifestBytes)⟩, trusted, parsed,
      formed, fun file among => (exact_ _).mp (List.mem_map_of_mem among), once, verified, rfl, rfl⟩

-- Reading

def Reads (dir : Node) (path : String) (bytes : List UInt8) : Prop :=
  ∃ names : List (List UInt8), components (utf8 path) = names.map Component.normal
    ∧ dir.follow names = some (.file bytes)

theorem readWithin_eq_ok_iff {path : String} {node : Node} {parts : List Component} {bytes : List UInt8}
    : readWithin path node parts = .ok bytes
      ↔ ∃ names : List (List UInt8), parts = names.map Component.normal
        ∧ node.follow names = some (.file bytes) := by
  induction parts generalizing node with
  | nil =>
      have start (found : Option Node) : (∃ names : List (List UInt8), [] = names.map Component.normal
          ∧ node.follow names = found) ↔ some node = found := by
        constructor
        · rintro ⟨names, none_, same⟩
          obtain rfl := List.map_eq_nil_iff.mp none_.symm
          exact same
        · exact fun same => ⟨[], rfl, same⟩
      rw [start]
      cases node <;> simp [readWithin]
  | cons part rest ih =>
      have next {name : List UInt8} {child : Option Node}
          (step : ∀ names, node.follow (name :: names) = child.bind (fun node => node.follow names))
          : (∃ names : List (List UInt8), Component.normal name :: rest = names.map Component.normal
              ∧ node.follow names = some (.file bytes))
            ↔ ∃ inner, child = some inner ∧ ∃ names : List (List UInt8), rest = names.map Component.normal
              ∧ inner.follow names = some (.file bytes) := by
        constructor
        · rintro ⟨names, split, found⟩
          cases names with
          | nil => cases split
          | cons own names =>
              obtain ⟨same, rfl⟩ := List.cons.inj split
              obtain rfl := Component.normal.inj same
              rw [step] at found
              obtain ⟨inner, here, found⟩ := Option.bind_eq_some_iff.mp found
              exact ⟨inner, here, names, rfl, found⟩
        · rintro ⟨inner, rfl, names, rfl, found⟩
          exact ⟨name :: names, rfl, by rw [step]; exact found⟩
      cases part with
      | normal name =>
          cases node with
          | dir entries =>
              rw [next fun names => rfl]
              cases found : entries.find? name with
              | none => simp [readWithin, found]
              | some inner =>
                  simp only [Option.some_inj, exists_eq_left', ← ih]
                  cases inner with
                  | symlink =>
                      -- What a symlink would lead to is no more read than the link is.
                      refine iff_of_false ?_ ?_
                      · simp [readWithin, found]
                      · cases rest with
                        | nil => simp [readWithin]
                        | cons part rest => cases part <;> simp [readWithin]
                  | file | dir | other => simp [readWithin, found]
          | file | symlink | other =>
              rw [next fun names => (rfl : _ = Option.bind none _)]
              simp [readWithin]
      | rootDir | curDir | parentDir =>
          refine iff_of_false ?_ ?_
          · cases node <;> simp [readWithin]
          · rintro ⟨names, split, _⟩
            cases names <;> cases split

theorem readListed_eq_ok_iff {dir : Node} {entries : List SpecEntry} {listed : List String}
    {read : List (String × List UInt8)}
    : readListed dir listed entries = .ok read
      ↔ List.Forall₂ (fun entry file => file.1 = entry.path ∧ RelPath entry.path
            ∧ Reads dir entry.path file.2) entries read
        ∧ (entries.map SpecEntry.path).Nodup ∧ ∀ entry ∈ entries, entry.path ∉ listed := by
  induction entries generalizing listed read with
  | nil =>
      rw [readListed, List.forall₂_nil_left_iff]
      simp [eq_comm]
  | cons entry rest ih =>
      simp only [readListed, bind_eq_ok_iff, mapError_eq_ok_iff, checkRelPath_eq_ok_iff,
        ensure_eq_ok_iff, ih, exists_const, decide_eq_true_eq, readWithin_eq_ok_iff]
      rw [List.forall_mem_cons, List.map_cons, List.nodup_cons]
      constructor
      · rintro ⟨path, fresh, bytes, reads, files, ⟨each, once, others⟩, made⟩
        cases made
        refine ⟨.cons ⟨rfl, path, reads⟩ each, ⟨?_, once⟩, fresh, fun other inside later => ?_⟩
        · intro inside
          obtain ⟨other, inside, same⟩ := List.mem_map.mp inside
          exact others other inside (same ▸ List.mem_cons_self)
        · exact others other inside (List.mem_cons_of_mem _ later)
      · rintro ⟨each, ⟨alone, once⟩, fresh, others⟩
        cases each with
        | @cons _ file _ files here each =>
            obtain ⟨name, bytes⟩ := file
            obtain ⟨rfl, path, reads⟩ := here
            refine ⟨path, fresh, bytes, reads, files, ⟨each, once, fun other inside later => ?_⟩, rfl⟩
            rcases List.mem_cons.mp later with same | later
            · exact alone (same ▸ List.mem_map_of_mem inside)
            · exact others other inside later

-- The specs of a directory

def IsLeaf : Node → Prop
  | .file _ | .other => True
  | .dir _ | .symlink => False

def SpecUnder (node : Node) (names : List FileName) : Prop :=
  (∃ leaf, node.Leads names leaf ∧ IsLeaf leaf) ∧ (∀ name ∈ names, isHidden name = false)
    ∧ ∃ last, names.getLast? = some last ∧ isSpecExtension (extension last.bytes)

theorem leads_nil_iff {node leaf : Node}
    : node.Leads [] leaf ↔ node = leaf := by
  constructor
  · rintro ⟨⟩
    rfl
  · rintro rfl
    exact .here

theorem leads_cons_iff {node leaf : Node} {name : FileName} {names : List FileName}
    : node.Leads (name :: names) leaf
      ↔ ∃ entries inner, node = .dir entries ∧ entries.Has name inner ∧ inner.Leads names leaf := by
  constructor
  · intro leads
    cases leads with
    | inside has leads => exact ⟨_, _, rfl, has, leads⟩
  · rintro ⟨entries, inner, rfl, has, leads⟩
    exact .inside has leads

theorem has_cons_iff {name name' : FileName} {node node' : Node} {rest : Entries}
    : (Entries.cons name node rest).Has name' node'
      ↔ name' = name ∧ node' = node ∨ rest.Has name' node' := by
  constructor
  · intro has
    cases has with
    | here => exact .inl ⟨rfl, rfl⟩
    | later has => exact .inr has
  · rintro (⟨rfl, rfl⟩ | has)
    · exact .here
    · exact .later has

def SpecBelow (node : Node) (name : FileName) (names : List FileName) : Prop :=
  (∃ leaf, node.Leads names leaf ∧ IsLeaf leaf) ∧ (∀ other ∈ name :: names, isHidden other = false)
    ∧ ∃ last, (name :: names).getLast? = some last ∧ isSpecExtension (extension last.bytes)

theorem specUnder_dir_iff {entries : Entries} {names : List FileName}
    : SpecUnder (.dir entries) names
      ↔ ∃ name rest node, names = name :: rest ∧ entries.Has name node ∧ SpecBelow node name rest := by
  constructor
  · rintro ⟨⟨leaf, leads, isLeaf⟩, shown, spec⟩
    cases names with
    | nil =>
        rw [← leads_nil_iff.mp leads] at isLeaf
        cases isLeaf
    | cons name rest =>
        obtain ⟨_, node, same, has, leads⟩ := leads_cons_iff.mp leads
        cases same
        exact ⟨name, rest, node, rfl, has, ⟨leaf, leads, isLeaf⟩, shown, spec⟩
  · rintro ⟨name, rest, node, rfl, has, ⟨leaf, leads, isLeaf⟩, shown, spec⟩
    exact ⟨⟨leaf, .inside has leads, isLeaf⟩, shown, spec⟩

theorem specBelow_dir_iff {entries : Entries} {name : FileName} {names : List FileName}
    : SpecBelow (.dir entries) name names
      ↔ isHidden name = false ∧ SpecUnder (.dir entries) names := by
  rw [SpecBelow, SpecUnder, List.forall_mem_cons]
  cases names with
  | nil =>
      have none_ : ¬ ∃ leaf, (Node.dir entries).Leads [] leaf ∧ IsLeaf leaf := by
        rintro ⟨leaf, leads, isLeaf⟩
        rw [← leads_nil_iff.mp leads] at isLeaf
        cases isLeaf
      exact iff_of_false (fun both => none_ both.1) (fun both => none_ both.2.1)
  | cons first rest =>
      rw [List.getLast?_cons_cons]
      exact ⟨fun ⟨leads, ⟨here, shown⟩, spec⟩ => ⟨here, leads, shown, spec⟩,
        fun ⟨here, leads, shown, spec⟩ => ⟨leads, ⟨here, shown⟩, spec⟩⟩

theorem specBelow_leaf_iff {node : Node} (isLeaf : IsLeaf node) {name : FileName} {names : List FileName}
    : SpecBelow node name names
      ↔ names = [] ∧ isHidden name = false ∧ isSpecExtension (extension name.bytes) := by
  cases names with
  | nil =>
      simp only [SpecBelow, leads_nil_iff, exists_eq_left', isLeaf, List.forall_mem_singleton,
        List.getLast?_singleton, Option.some_inj, true_and]
  | cons first rest =>
      refine iff_of_false ?_ fun both => by cases both.1
      rintro ⟨⟨leaf, leads, _⟩, _⟩
      obtain ⟨_, _, rfl, _⟩ := leads_cons_iff.mp leads
      cases isLeaf

theorem mem_leaf_iff {node : Node} (isLeaf : IsLeaf node) {above : List FileName} {name : FileName}
    {path : List Char}
    : path ∈ collectEntry above name node
      ↔ ∃ names, path = joined (above ++ name :: names) ∧ SpecBelow node name names := by
  have made : collectEntry above name node
      = if isHidden name then []
        else if isSpecExtension (extension name.bytes) then [joined (above ++ [name])] else [] := by
    cases node with
    | file | other => rfl
    | dir | symlink => cases isLeaf
  rw [made]
  simp only [specBelow_leaf_iff isLeaf]
  split_ifs with hidden spec
  · simp [hidden]
  · rw [List.mem_singleton]
    constructor
    · rintro rfl
      exact ⟨[], rfl, rfl, Bool.eq_false_iff.mpr hidden, spec⟩
    · rintro ⟨_, same, rfl, _⟩
      exact same
  · simp [spec]

mutual

theorem mem_collectEntry {above : List FileName} {name : FileName} {path : List Char} (node : Node)
    : path ∈ collectEntry above name node
      ↔ ∃ names, path = joined (above ++ name :: names) ∧ SpecBelow node name names := by
  cases node with
  | file | other => exact mem_leaf_iff (by exact True.intro)
  | symlink =>
      refine iff_of_false (by simp [collectEntry]) ?_
      rintro ⟨names, _, ⟨leaf, leads, isLeaf⟩, _⟩
      cases leads
      cases isLeaf
  | dir entries =>
      rw [collectEntry]
      simp only [specBelow_dir_iff]
      split_ifs with hidden
      · simp [hidden]
      · rw [mem_collectSpecs entries]
        simp [hidden]

theorem mem_collectSpecs {above : List FileName} {path : List Char} (entries : Entries)
    : path ∈ collectSpecs above entries
      ↔ ∃ names, path = joined (above ++ names) ∧ SpecUnder (.dir entries) names := by
  cases entries with
  | nil =>
      refine iff_of_false (by simp [collectSpecs]) ?_
      rintro ⟨names, _, spec⟩
      obtain ⟨_, _, _, _, has, _⟩ := specUnder_dir_iff.mp spec
      cases has
  | cons name node rest =>
      rw [collectSpecs, List.mem_append, mem_collectEntry node, mem_collectSpecs rest]
      simp only [specUnder_dir_iff, has_cons_iff]
      constructor
      · rintro (⟨names, rfl, spec⟩ | ⟨_, rfl, name', names, node', rfl, has, spec⟩)
        · exact ⟨_, rfl, name, names, node, rfl, .inl ⟨rfl, rfl⟩, spec⟩
        · exact ⟨_, rfl, name', names, node', rfl, .inr has, spec⟩
      · rintro ⟨_, rfl, name', names, node', rfl, ⟨rfl, rfl⟩ | has, spec⟩
        · exact .inl ⟨names, rfl, spec⟩
        · exact .inr ⟨_, rfl, name', names, node', rfl, has, spec⟩

end

end Tools

end Dagron.Crypto
