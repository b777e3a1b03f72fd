import Dagron.Library.Utf8Reading

/-! Paths of a file tree as their bytes: the components a path has, which several spellings share, and
the trees of files that names lead into.
-/

namespace Dagron.Library

def slash : UInt8 :=
  47

def dot : UInt8 :=
  46

-- Components

/-- A component of a path. -/
inductive Component where
  | rootDir
  | curDir
  | parentDir
  | normal (name : List UInt8)
  deriving DecidableEq

/-- What stands between two slashes, if that is a component where it is not the first. -/
def Component.ofPart (part : List UInt8) : Option Component :=
  if part = [] ∨ part = [dot] then none
  else if part = [dot, dot] then some .parentDir
  else some (.normal part)

/-- The components of a path: doubled slashes, slashes at its end and inner dots are none. -/
def components (path : List UInt8) : List Component :=
  let parts := path.splitOn slash
  let first :=
    if path.head? = some slash then [.rootDir]
    else if parts.head? = some [dot] then [.curDir]
    else []
  first ++ parts.filterMap Component.ofPart

/-- What follows the last dot of a name, where one is past its beginning. -/
def extension (name : List UInt8) : Option (List UInt8) :=
  let after := (name.reverse.takeWhile (· ≠ dot)).reverse
  if name ≠ [dot, dot] ∧ after.length + 1 < name.length then some after else none

def pathExtension (path : List UInt8) : Option (List UInt8) :=
  match (components path).getLast? with
  | some (.normal name) => extension name
  | _ => none

/-- A name that an entry of a directory can have. -/
structure FileName where
  bytes : List UInt8
  some_ : bytes ≠ []
  whole : slash ∉ bytes
  own : bytes ≠ [dot] ∧ bytes ≠ [dot, dot]

theorem FileName.ofPart (name : FileName)
    : Component.ofPart name.bytes = some (.normal name.bytes) := by
  rw [Component.ofPart, if_neg (not_or.mpr ⟨name.some_, name.own.1⟩), if_neg name.own.2]

theorem components_intercalate {names : List FileName} (some_ : names ≠ [])
    : components ([slash].intercalate (names.map FileName.bytes))
      = names.map (fun name => .normal name.bytes) := by
  have parts : ([slash].intercalate (names.map FileName.bytes)).splitOn slash = names.map FileName.bytes :=
    List.splitOn_intercalate slash (List.forall_mem_map.mpr fun name _ => name.whole) (by simpa using some_)
  have named : (names.map FileName.bytes).filterMap Component.ofPart
      = names.map (fun name => .normal name.bytes) := by
    rw [List.filterMap_map, ← List.filterMap_eq_map]
    exact List.filterMap_congr fun name _ => name.ofPart
  obtain ⟨first, rest, rfl⟩ := List.exists_cons_of_ne_nil some_
  have start : ([slash].intercalate ((first :: rest).map FileName.bytes)).head? ≠ some slash := by
    obtain ⟨byte, more, long⟩ := List.exists_cons_of_ne_nil first.some_
    have other : byte ≠ slash := fun same => first.whole (by rw [long, same]; exact List.mem_cons_self)
    cases rest with
    | nil | cons next rest => simpa [List.intercalate, long] using other
  rw [components, if_neg start, parts, if_neg, named, List.nil_append]
  simpa using first.own.1

theorem isText_of_mem_components {path : String} {name : List UInt8}
    (among : .normal name ∈ components (utf8 path))
    : IsText name := by
  have inside : .normal name ∈ ((utf8 path).splitOn slash).filterMap Component.ofPart := by
    rw [components] at among
    rcases List.mem_append.mp among with first | rest
    · split_ifs at first <;> simp at first
    · exact rest
  obtain ⟨part, listed, here⟩ := List.mem_filterMap.mp inside
  have same : part = name := by
    rw [Component.ofPart] at here
    split_ifs at here with none_ up
    · cases here
    · exact Component.normal.inj (Option.some.inj here)
  have encoded : String.utf8EncodeChar '/' = [slash] := rfl
  rw [utf8_eq_encodeChars, splitOn_encodeChars (by decide) encoded] at listed
  obtain ⟨chars, _, own⟩ := List.mem_map.mp listed
  exact ⟨chars, own.trans same⟩

-- Trees

mutual

/-- What a name of a directory leads to. -/
inductive Node where
  | file (bytes : List UInt8)
  | dir (entries : Entries)
  | symlink
  | other

/-- The entries of a directory. -/
inductive Entries where
  | nil
  | cons (name : FileName) (node : Node) (rest : Entries)

end

def Entries.find? (name : List UInt8) : Entries → Option Node
  | .nil => none
  | .cons entry node rest => if entry.bytes = name then some node else rest.find? name

def Node.follow : Node → List (List UInt8) → Option Node
  | node, [] => some node
  | .dir entries, name :: rest => (entries.find? name).bind (fun node => node.follow rest)
  | _, _ :: _ => none

/-- An entry of a directory. -/
inductive Entries.Has : Entries → FileName → Node → Prop where
  | here {name node rest} : Has (.cons name node rest) name node
  | later {name node rest name' node'} : Has rest name' node' → Has (.cons name node rest) name' node'

/-- An entry of a directory, of one of its directories, and so on. -/
inductive Node.Leads : Node → List FileName → Node → Prop where
  | here {node} : Leads node [] node
  | inside {entries name node names found}
    : entries.Has name node → Leads node names found → Leads (.dir entries) (name :: names) found

end Dagron.Library
