import Dagron.Library.Utf8
import Dagron.Library.JsonString
import Dagron.Library.Results

/-! A pack's objects, read for what a paths filter asks: the paths where two commits' trees differ.
The trees are compared as they are read, an entry of each at a time in git's order.
-/

namespace Dagron.CiGit
open Dagron.Library

-- Objects and their ids

/-- How a repository names its objects. -/
inductive ObjectFormat where
  | sha1
  | sha256
  deriving DecidableEq

def ObjectFormat.len : ObjectFormat → Nat
  | .sha1 => 20
  | .sha256 => 32

/-- An object's id: 32 bytes, of which a SHA-1 one is the first 20, the rest zero. -/
abbrev Oid := List UInt8

inductive Kind where
  | commit
  | tree
  | blob
  | tag
  deriving DecidableEq

def Kind.name : Kind → String
  | .commit => "commit"
  | .tree => "tree"
  | .blob => "blob"
  | .tag => "tag"

/-- The id of a format that bytes are, if they are as many. -/
def ObjectFormat.oid (format : ObjectFormat) (bytes : List UInt8) : Option Oid :=
  if bytes.length = format.len then some (bytes ++ List.replicate (32 - bytes.length) 0) else none

def hexDigit (byte : UInt8) : Option UInt8 :=
  if 48 ≤ byte ∧ byte ≤ 57 then some (byte - 48)
  else if 97 ≤ byte ∧ byte ≤ 102 then some (byte - 87)
  else if 65 ≤ byte ∧ byte ≤ 70 then some (byte - 55)
  else none

def hexDecode : List UInt8 → Option (List UInt8)
  | [] => some []
  | [_] => none
  | high :: low :: rest => do
      let high ← hexDigit high
      let low ← hexDigit low
      let rest ← hexDecode rest
      some ((high * 16 + low) :: rest)

def ObjectFormat.parse (format : ObjectFormat) (hex : List UInt8) : Option Oid := do
  format.oid (← hexDecode hex)

def ObjectFormat.hex (format : ObjectFormat) (id : Oid) : String :=
  String.ofList ((id.take format.len).flatMap fun byte =>
    [lowerHexDigit (byte.toNat / 16), lowerHexDigit (byte.toNat % 16)])

/-- The commits and trees of a pack, by id, and the digest that names them. -/
structure Objects where
  format : ObjectFormat
  byId : Oid → Option (Kind × List UInt8)
  digest : ObjectFormat → List UInt8 → Oid

/-- The id git gives an object of a kind that holds (data). -/
def Objects.objectId (objects : Objects) (kind : Kind) (data : List UInt8) : Oid :=
  objects.digest objects.format (utf8 (kind.name ++ " " ++ toString data.length ++ "\x00") ++ data)

/-- How much of a pack is read. The clock is past the time to give up where (late) says so, of the
steps done.
-/
structure Limits where
  treeDepth : Nat
  walked : Nat
  paths : Nat
  pathLen : Nat
  listed : Nat
  late : Nat → Bool

def refuseIf (passed : Bool) (problem : String) : Except String Unit :=
  if passed then .error problem else .ok ()

/-- Whether there is time left, which is looked at every 256 steps. -/
def Limits.inTime (limits : Limits) (steps : Nat) : Except String Unit :=
  refuseIf (steps % 256 = 0 && limits.late steps) "out of time"

/-- A number of bytes, in MiB where it is a number of those. -/
def inUnits (bytes : Nat) : String :=
  if bytes ≥ 2 ^ 20 ∧ bytes % 2 ^ 20 = 0 then toString (bytes / 2 ^ 20) ++ " MiB"
  else toString bytes ++ " bytes"

-- Trees

def TREE : Nat :=
  0o040000

/-- A mode as git reads a tree's: a file is 644 or 755 by its owner's execute bit; a link, a tree; and
anything else a submodule.
-/
def canonical (mode : Nat) : Nat :=
  if mode &&& 0o170000 = 0o100000 then (if mode &&& 0o100 ≠ 0 then 0o100755 else 0o100644)
  else if mode &&& 0o170000 = 0o120000 then 0o120000
  else if mode &&& 0o170000 = TREE then TREE
  else 0o160000

/-- An entry of a tree: its name, its mode as git reads it, and its object. -/
structure TreeEntry where
  name : List UInt8
  mode : Nat
  id : Oid
  deriving DecidableEq

/-- Two entries in git's order: by name, a tree's as if it ended in a slash. -/
def gitOrder (x y : TreeEntry) : Ordering :=
  let len := min x.name.length y.name.length
  let end_ (e : TreeEntry) := (e.name[len]?).or (if e.mode = TREE then some 47 else none)
  (compare (x.name.take len) (y.name.take len)).then (compare (end_ x) (end_ y))

/-- A tree's entries, read one at a time: what is left of it, and the entry read last, which the next
must come after.
-/
structure Tree where
  id : Oid
  format : ObjectFormat
  rest : List UInt8
  last : Option TreeEntry

/-- What stands before the first of a byte, and what stands after it. -/
def upTo (byte : UInt8) (bytes : List UInt8) : Option (List UInt8 × List UInt8) :=
  match bytes.dropWhile (· ≠ byte) with
  | [] => none
  | _ :: rest => some (bytes.takeWhile (· ≠ byte), rest)

/-- The entry that a tree's bytes begin with and the bytes past it, unless it is none git would write
after the last.
-/
def Tree.readEntry (tree : Tree) : Option (TreeEntry × List UInt8) := do
  let (mode, rest) ← upTo 32 tree.rest
  guard (mode ≠ [] ∧ mode.length ≤ 7 ∧ mode.all (fun b => 48 ≤ b ∧ b ≤ 55))
  let mode := mode.foldl (fun m b => m * 8 + (b.toNat - 48)) 0
  let (name, rest) ← upTo 0 rest
  guard (tree.format.len ≤ rest.length)
  guard (name ∉ [[], [46], [46, 46]] ∧ 47 ∉ name)
  let id ← tree.format.oid (rest.take tree.format.len)
  let entry : TreeEntry := ⟨name, canonical mode, id⟩
  guard (∀ last ∈ tree.last, gitOrder last entry = .lt)
  some (entry, rest.drop tree.format.len)

/-- The next entry, or none at the tree's end, and the tree past it. -/
def Tree.next (tree : Tree) : Except String (Option TreeEntry × Tree) :=
  if tree.rest = [] then .ok (none, tree)
  else
    match tree.readEntry with
    | some (entry, rest) => .ok (some entry, { tree with rest, last := some entry })
    | none =>
        .error ("tree " ++ String.ofList ((tree.format.hex tree.id).toList.take 12)
          ++ " is not one git writes")

/-- The tree that a commit (its id in hexadecimal) names. The first 12 bytes of the id are shown. -/
def Objects.treeOf (objects : Objects) (commit : String) : Except String Oid :=
  let short := String.ofList (fromUtf8Lossy ((utf8 commit).take 12))
  match (objects.format.parse (utf8 commit)).bind objects.byId with
  | some (.commit, data) =>
      let named := do
        let rest ← if (utf8 "tree ").isPrefixOf data then some (data.drop 5) else none
        guard (objects.format.len * 2 ≤ rest.length)
        let hex := rest.take (objects.format.len * 2)
        guard (isUtf8 hex)
        objects.format.parse hex
      match named with
      | some id => .ok id
      | none => .error ("commit " ++ short ++ " names no tree")
  | _ => .error ("commit " ++ short ++ " is not in the pack")

def Objects.tree (objects : Objects) (tree : Option Oid) : Except String Tree :=
  let noTree := objects.objectId .tree []
  let empty (id : Oid) : Tree := ⟨id, objects.format, [], none⟩
  match tree with
  | none => .ok (empty noTree)
  | some id =>
      match objects.byId id with
      | some (.tree, data) => .ok { empty id with rest := data }
      | found =>
          if found = none ∧ id = noTree then .ok (empty id)
          else
            .error ("tree " ++ String.ofList ((objects.format.hex id).toList.take 12)
              ++ " is not in the pack")

-- The walk

/-- Two trees being compared: each one's entries, the entry each is at, and the length of their path. -/
structure Pair where
  a : Tree
  b : Tree
  x : Option TreeEntry
  y : Option TreeEntry
  dir : Nat

def Pair.new (a b : Tree) (dir : Nat) : Except String Pair := do
  let (x, a) ← a.next
  let (y, b) ← b.next
  .ok ⟨a, b, x, y, dir⟩

/-- Which of the two entries comes first in git's order, if there is one. -/
def Pair.order (pair : Pair) : Option Ordering :=
  match pair.x, pair.y with
  | none, none => none
  | some _, none => some .lt
  | none, some _ => some .gt
  | some x, some y => some (gitOrder x y)

/-- Takes the entry a tree is at, where it comes first: the entry, and the next with the tree past it. -/
def advance (first : Bool) (entry : Option TreeEntry) (tree : Tree)
    : Except String (Option TreeEntry × Option TreeEntry × Tree) :=
  if first then do
    let (next, tree) ← tree.next
    .ok (entry, next, tree)
  else .ok (none, entry, tree)

/-- Takes the entry that comes first, from either tree or both: a file and a directory of one name are
two.
-/
def Pair.take (pair : Pair) (order : Ordering)
    : Except String (Option TreeEntry × Option TreeEntry × Pair) := do
  let (left, x, a) ← advance order.isLE pair.x pair.a
  let (right, y, b) ← advance order.isGE pair.y pair.b
  .ok (left, right, { pair with a, b, x, y })

def TreeEntry.value (entry : TreeEntry) : Nat × Oid :=
  (entry.mode, entry.id)

/-- How far a comparison has come: the pairs of trees it is in, a pair for each directory down and the
innermost first, the path of the entry last looked at, and what it has counted.
-/
structure Walk where
  stack : List Pair
  path : List UInt8
  walked : Nat
  listed : List (List UInt8)
  listedBytes : Nat
  touched : Nat
  steps : Nat

section Walking

variable (objects : Objects) (limits : Limits)

/-- Opens a tree, after (walked) bytes of trees: the tree, and the bytes with its own. -/
def openTree (walked : Nat) (tree : Option Oid) : Except String (Tree × Nat) := do
  let tree ← objects.tree tree
  let walked := walked + tree.rest.length
  refuseIf (walked > limits.walked) ("the trees walked come to more than " ++ inUnits limits.walked)
  .ok (tree, walked)

def openPair (walked : Nat) (x y : Option Oid) (dir : Nat) : Except String (Pair × Nat) := do
  let (a, walked) ← openTree objects limits walked x
  let (b, walked) ← openTree objects limits walked y
  .ok (← Pair.new a b dir, walked)

/-- The path of an entry in the directory whose path is the first (dir) bytes of (path). -/
def pathIn (path : List UInt8) (dir : Nat) (name : List UInt8) : List UInt8 :=
  path.take dir ++ (if dir > 0 then [47] else []) ++ name

/-- Takes down an entry that differs, in the innermost directory: its path, and the pair of trees
below it where it is one.
-/
def Walk.touch (walk : Walk) (dir : Nat) (x y : Option TreeEntry) (entry : TreeEntry)
    : Except String Walk := do
  let touched := walk.touched + 1
  refuseIf (touched > limits.paths)
    ("the change touches more than " ++ toString limits.paths ++ " paths")
  refuseIf (!isUtf8 entry.name)
    (match walk.path.take dir with
      | [] => "a path at the top is not UTF-8"
      | dir => "a path in " ++ String.ofList (fromUtf8Lossy dir) ++ " is not UTF-8")
  let path := pathIn walk.path dir entry.name
  refuseIf (path.length > limits.pathLen)
    ("a path is longer than " ++ toString limits.pathLen ++ " bytes")
  if entry.mode = TREE then do
    refuseIf (walk.stack.length > limits.treeDepth)
      ("a tree is more than " ++ toString limits.treeDepth ++ " deep")
    let (pair, walked) ←
      openPair objects limits walk.walked (x.map (·.id)) (y.map (·.id)) path.length
    .ok { walk with stack := pair :: walk.stack, path, walked, touched }
  else do
    let listedBytes := walk.listedBytes + path.length
    refuseIf (listedBytes > limits.listed)
      ("the paths listed come to more than " ++ inUnits limits.listed)
    .ok { walk with path, listed := walk.listed ++ [path], listedBytes, touched }

/-- One step of a walk that is in (pair), and below it in (below). -/
def Walk.step (walk : Walk) (pair : Pair) (below : List Pair) : Except String Walk := do
  limits.inTime walk.steps
  let walk := { walk with steps := walk.steps + 1 }
  match pair.order with
  | none => .ok { walk with stack := below }
  | some order => do
      let (x, y, next) ← pair.take order
      let walk := { walk with stack := next :: below }
      match x.or y with
      | none => .error "one of the two has an entry"
      | some entry =>
          if x.map (·.value) = y.map (·.value) then .ok walk
          else walk.touch objects limits pair.dir x y entry

end Walking

-- The walk ends

theorem refuseIf_eq_ok_iff {passed : Bool} {problem : String} {done : Unit}
    : refuseIf passed problem = .ok done ↔ passed = false := by
  cases passed <;> simp [refuseIf]

theorem refuseIf_bind_eq_ok_iff {Value : Type} {passed : Bool} {problem : String}
    {rest : Unit → Except String Value} {value : Value}
    : refuseIf passed problem >>= rest = .ok value ↔ passed = false ∧ rest () = .ok value := by
  rw [bind_eq_ok_iff]
  simp only [refuseIf_eq_ok_iff]
  constructor
  · rintro ⟨done, known, later⟩
    exact ⟨known, later⟩
  · rintro ⟨known, later⟩
    exact ⟨(), known, later⟩

theorem length_of_upTo {byte : UInt8} {bytes before rest : List UInt8}
    (found : upTo byte bytes = some (before, rest))
    : rest.length < bytes.length := by
  rw [upTo] at found
  cases after : bytes.dropWhile (· ≠ byte) with
  | nil =>
      rw [after] at found
      cases found
  | cons first others =>
      rw [after] at found
      have shorter := (List.dropWhile_sublist (l := bytes) (· ≠ byte)).length_le
      cases found
      rw [after, List.length_cons] at shorter
      exact shorter

theorem Tree.readEntry_spec {tree : Tree} {entry : TreeEntry} {rest : List UInt8}
    (read : tree.readEntry = some (entry, rest))
    : entry.name ≠ [] ∧ 47 ∉ entry.name ∧ (∀ last ∈ tree.last, gitOrder last entry = .lt)
      ∧ rest.length < tree.rest.length := by
  simp only [Tree.readEntry, Option.bind_eq_bind, Option.bind_eq_some_iff, Option.guard_eq_some',
    exists_const, Prod.exists, Option.some.injEq, Prod.mk.injEq, List.mem_cons, not_or] at read
  obtain ⟨mode, past, toMode, -, name, past', toName, -, ⟨⟨unnamed, -⟩, whole⟩, id, -, after, rfl, rfl⟩ := read
  have shorter := length_of_upTo toMode
  have shorter' := length_of_upTo toName
  refine ⟨unnamed, whole, after, ?_⟩
  rw [List.length_drop]
  omega

theorem Tree.next_spec {tree tree' : Tree} {entry : Option TreeEntry} (next : tree.next = .ok (entry, tree'))
    : (entry = none ∧ tree.rest = [] ∧ tree' = tree)
      ∨ ∃ found rest, entry = some found ∧ tree.readEntry = some (found, rest)
        ∧ tree' = { tree with rest, last := some found } := by
  rw [Tree.next] at next
  split at next <;> rename_i empty
  · obtain ⟨rfl, rfl⟩ := Prod.mk.inj (Except.ok.inj next)
    exact Or.inl ⟨rfl, empty, rfl⟩
  · cases read : tree.readEntry with
    | none =>
        rw [read] at next
        cases next
    | some found =>
        rw [read] at next
        obtain ⟨rfl, rfl⟩ := Prod.mk.inj (Except.ok.inj next)
        exact Or.inr ⟨found.1, found.2, rfl, rfl, rfl⟩

/-- What a tree has left to read, with the entry it is at. -/
def leftOf (entry : Option TreeEntry) (tree : Tree) : Nat :=
  tree.rest.length + entry.toList.length

theorem Tree.leftOf_next {tree tree' : Tree} {entry : Option TreeEntry}
    (next : tree.next = .ok (entry, tree'))
    : leftOf entry tree' ≤ tree.rest.length := by
  rcases tree.next_spec next with ⟨rfl, -, rfl⟩ | ⟨found, rest, rfl, read, rfl⟩
  · exact le_refl _
  · exact (Tree.readEntry_spec read).2.2.2

theorem advance_left {first : Bool} {entry taken next : Option TreeEntry} {tree tree' : Tree}
    (took : advance first entry tree = .ok (taken, next, tree'))
    : leftOf next tree' ≤ leftOf entry tree
      ∧ (first = true → entry.isSome → leftOf next tree' < leftOf entry tree) := by
  rw [advance] at took
  cases first with
  | false =>
      obtain ⟨rfl, rfl, rfl⟩ : none = taken ∧ entry = next ∧ tree = tree' := by
        simpa using took
      exact ⟨le_refl _, nofun⟩
  | true =>
      obtain ⟨⟨next', tree''⟩, here, later⟩ := exists_of_bind_eq_ok took
      obtain ⟨rfl, rfl, rfl⟩ : entry = taken ∧ next' = next ∧ tree'' = tree' := by
        simpa using later
      have less := Tree.leftOf_next here
      cases entry with
      | none => exact ⟨less, nofun⟩
      | some entry =>
          rw [leftOf, leftOf, Option.toList_some, List.length_singleton] at *
          omega

def Pair.left (pair : Pair) : Nat :=
  1 + leftOf pair.x pair.a + leftOf pair.y pair.b

theorem Pair.order_spec {pair : Pair} {order : Ordering} (first : pair.order = some order)
    : (order.isLE = true ∧ pair.x.isSome) ∨ (order.isGE = true ∧ pair.y.isSome) := by
  rw [Pair.order] at first
  cases atX : pair.x with
  | none =>
      cases atY : pair.y with
      | none => rw [atX, atY] at first; cases first
      | some y => rw [atX, atY] at first; cases first; exact Or.inr ⟨rfl, rfl⟩
  | some x =>
      cases atY : pair.y with
      | none => rw [atX, atY] at first; cases first; exact Or.inl ⟨rfl, rfl⟩
      | some y => cases order <;> simp [Ordering.isLE, Ordering.isGE]

theorem Pair.left_take {pair next : Pair} {order : Ordering} {x y : Option TreeEntry}
    (first : pair.order = some order) (took : pair.take order = .ok (x, y, next))
    : next.left < pair.left := by
  obtain ⟨⟨left, x', a⟩, takes, took⟩ := exists_of_bind_eq_ok took
  obtain ⟨⟨right, y', b⟩, takes', took⟩ := exists_of_bind_eq_ok took
  obtain ⟨rfl, rfl, rfl⟩ : left = x ∧ right = y ∧ { pair with a, b, x := x', y := y' } = next := by
    simpa using took
  obtain ⟨notMore, less⟩ := advance_left takes
  obtain ⟨notMore', less'⟩ := advance_left takes'
  simp only [Pair.left]
  rcases Pair.order_spec first with ⟨leftFirst, there⟩ | ⟨rightFirst, there⟩
  · have shrinks := less leftFirst there
    omega
  · have shrinks := less' rightFirst there
    omega

section Steps

variable {objects : Objects} {limits : Limits} {walk next : Walk}

theorem Walk.touch_eq_ok_iff {dir : Nat} {x y : Option TreeEntry} {entry : TreeEntry}
    : walk.touch objects limits dir x y entry = .ok next
      ↔ walk.touched + 1 ≤ limits.paths ∧ isUtf8 entry.name = true
        ∧ (pathIn walk.path dir entry.name).length ≤ limits.pathLen
        ∧ (entry.mode = TREE ∧ walk.stack.length ≤ limits.treeDepth
            ∧ (∃ pair walked,
                openPair objects limits walk.walked (x.map (·.id)) (y.map (·.id))
                  (pathIn walk.path dir entry.name).length = .ok (pair, walked)
                ∧ { walk with
                    stack := pair :: walk.stack
                    path := pathIn walk.path dir entry.name
                    walked
                    touched := walk.touched + 1 } = next)
          ∨ entry.mode ≠ TREE
            ∧ walk.listedBytes + (pathIn walk.path dir entry.name).length ≤ limits.listed
            ∧ { walk with
                path := pathIn walk.path dir entry.name
                listed := walk.listed ++ [pathIn walk.path dir entry.name]
                listedBytes := walk.listedBytes + (pathIn walk.path dir entry.name).length
                touched := walk.touched + 1 } = next) := by
  simp only [Walk.touch, refuseIf_bind_eq_ok_iff, decide_eq_false_iff_not, Bool.not_eq_false',
    Nat.not_lt, gt_iff_lt]
  refine and_congr_right fun _ => and_congr_right fun _ => and_congr_right fun _ => ?_
  by_cases tree : entry.mode = TREE
  · rw [if_pos tree, refuseIf_bind_eq_ok_iff, bind_eq_ok_iff]
    simp [tree]
  · rw [if_neg tree, refuseIf_bind_eq_ok_iff]
    simp [tree]

theorem Walk.step_eq_ok_iff {pair : Pair} {below : List Pair}
    : walk.step objects limits pair below = .ok next
      ↔ (walk.steps % 256 = 0 && limits.late walk.steps) = false
        ∧ (pair.order = none ∧ { walk with stack := below, steps := walk.steps + 1 } = next
          ∨ ∃ order x y past entry,
              pair.order = some order ∧ pair.take order = .ok (x, y, past) ∧ x.or y = some entry
              ∧ (x.map (·.value) = y.map (·.value)
                  ∧ { walk with stack := past :: below, steps := walk.steps + 1 } = next
                ∨ x.map (·.value) ≠ y.map (·.value)
                  ∧ Walk.touch objects limits { walk with stack := past :: below, steps := walk.steps + 1 }
                      pair.dir x y entry = .ok next)) := by
  rw [Walk.step, Limits.inTime, refuseIf_bind_eq_ok_iff]
  refine and_congr_right fun _ => ?_
  cases first : pair.order with
  | none => simp
  | some order =>
      simp only [reduceCtorEq, false_and, false_or, Option.some.injEq, exists_and_left,
        exists_eq_left', bind_eq_ok_iff, Prod.exists]
      refine exists_congr fun x => exists_congr fun y => exists_congr fun past => and_congr_right fun _ => ?_
      cases is : x.or y with
      | none => simp
      | some entry =>
          by_cases same : x.map (·.value) = y.map (·.value) <;> simp [same]

def Walk.left (walk : Walk) : Nat :=
  (walk.stack.map Pair.left).sum

theorem Walk.step_less {pair : Pair} {below : List Pair} (stack : walk.stack = pair :: below)
    (stepped : walk.step objects limits pair below = .ok next)
    : Prod.Lex (· < ·) (· < ·) (limits.paths - next.touched, next.left)
        (limits.paths - walk.touched, walk.left) := by
  obtain ⟨-, ⟨-, rfl⟩ | ⟨order, x, y, past, entry, first, took, -, ⟨-, rfl⟩ | ⟨-, touched⟩⟩⟩ :=
    Walk.step_eq_ok_iff.mp stepped
  · refine Prod.Lex.right _ ?_
    simp only [Walk.left, stack, List.map_cons, List.sum_cons, Pair.left]
    omega
  · refine Prod.Lex.right _ ?_
    have less := Pair.left_take first took
    simp only [Walk.left, stack, List.map_cons, List.sum_cons]
    omega
  · refine Prod.Lex.left _ _ ?_
    obtain ⟨within, -, -, ⟨-, -, pair', walked, -, rfl⟩ | ⟨-, -, rfl⟩⟩ := Walk.touch_eq_ok_iff.mp touched
    · simp only at within ⊢
      omega
    · simp only at within ⊢
      omega

end Steps

/-- Walks until no pair of trees is left: the paths listed. -/
def Walk.run (objects : Objects) (limits : Limits) (walk : Walk) : Except String (List (List UInt8)) :=
  match _stack : walk.stack with
  | [] => .ok walk.listed
  | pair :: below =>
      match _stepped : walk.step objects limits pair below with
      | .error problem => .error problem
      | .ok next => next.run objects limits
  termination_by (limits.paths - walk.touched, walk.left)
  decreasing_by exact Walk.step_less _stack _stepped

def sortPaths (paths : List (List UInt8)) : List (List UInt8) :=
  paths.mergeSort (fun path other => (compare path other).isLE)

/-- The paths where the trees of two commits differ, sorted. -/
def Objects.changed (objects : Objects) (limits : Limits) (from_ to_ : String)
    : Except String (List (List UInt8)) := do
  let from_ ← objects.treeOf from_
  let to_ ← objects.treeOf to_
  let (pair, walked) ← openPair objects limits 0 (some from_) (some to_) 0
  let listed ← Walk.run objects limits ⟨[pair], [], walked, [], 0, 0, 0⟩
  .ok (sortPaths listed)

end Dagron.CiGit
