import Dagron.CiGit.Pack
import Dagron.Library.MergeJoin

/-! What trees hold: the entries of one in git's order, the files that one leads to, and where two
differ in these.
-/

namespace Dagron.CiGit
open Dagron.Library

-- Git's order

/-- What an entry is ordered by: its name, a tree's with a slash at its end. -/
def TreeEntry.key (entry : TreeEntry) : List UInt8 :=
  entry.name ++ (if entry.mode = TREE then [47] else [])

/-- Whether an entry's name is a component of a path. -/
structure TreeEntry.Whole (entry : TreeEntry) : Prop where
  named : entry.name ≠ []
  whole : 47 ∉ entry.name

theorem then_of_ne {x y : UInt8} (differ : x ≠ y) (after : Ordering)
    : (compare x y).then after = compare x y := by
  cases decided : compare x y with
  | eq => exact absurd (Std.LawfulEqOrd.eq_of_compare decided) differ
  | lt => rfl
  | gt => rfl

def Ends (byte : Option UInt8) : Prop :=
  byte = none ∨ byte = some 47

/-- A name that is the beginning of another one: what ends it decides against the other's next byte. -/
theorem compare_end_byte {ending : Option UInt8} (ends : Ends ending) {byte : UInt8} (other : 47 ≠ byte)
    (rest : List UInt8)
    : compare ending.toList (byte :: rest) = compare ending (some byte)
      ∧ compare (byte :: rest) ending.toList = compare (some byte) ending := by
  rcases ends with rfl | rfl
  · exact ⟨rfl, rfl⟩
  · rw [Option.toList_some, List.compare_cons_cons, List.compare_cons_cons, then_of_ne other,
      then_of_ne other.symm]
    exact ⟨rfl, rfl⟩

theorem compare_ends_only {x y : Option UInt8} (endsX : Ends x) (endsY : Ends y)
    : compare x y = compare x.toList y.toList := by
  rcases endsX with rfl | rfl
  · rcases endsY with rfl | rfl
    · rfl
    · rfl
  · rcases endsY with rfl | rfl
    · rfl
    · rfl

theorem compare_ends {xs ys : List UInt8} {x y : Option UInt8} (endsX : Ends x) (endsY : Ends y)
    (wholeX : 47 ∉ xs) (wholeY : 47 ∉ ys)
    : (compare (xs.take (min xs.length ys.length)) (ys.take (min xs.length ys.length))).then
        (compare ((xs[min xs.length ys.length]?).or x) ((ys[min xs.length ys.length]?).or y))
      = compare (xs ++ x.toList) (ys ++ y.toList) := by
  induction xs generalizing ys with
  | nil =>
      cases ys with
      | nil => exact compare_ends_only endsX endsY
      | cons byte ys =>
          have other : 47 ≠ byte := fun same => wholeY (same ▸ List.mem_cons_self)
          exact (compare_end_byte endsX other (ys ++ y.toList)).1.symm
  | cons first xs ih =>
      have other : 47 ≠ first := fun same => wholeX (same ▸ List.mem_cons_self)
      cases ys with
      | nil => exact (compare_end_byte endsY other (xs ++ x.toList)).2.symm
      | cons byte ys =>
          have same := @ih ys (fun within => wholeX (List.mem_cons_of_mem _ within))
            (fun within => wholeY (List.mem_cons_of_mem _ within))
          rw [List.length_cons, List.length_cons, Nat.succ_min_succ, List.take_succ_cons, List.take_succ_cons,
            List.getElem?_cons_succ, List.getElem?_cons_succ, List.compare_cons_cons, List.cons_append,
            List.cons_append, List.compare_cons_cons, Ordering.then_assoc, same]

theorem eq_of_append_slash {name name' path path' : List UInt8} (whole : 47 ∉ name) (whole' : 47 ∉ name')
    (same : name ++ 47 :: path = name' ++ 47 :: path')
    : name = name' ∧ path = path' := by
  induction name generalizing name' with
  | nil =>
      cases name' with
      | nil => exact ⟨rfl, (List.cons.inj same).2⟩
      | cons byte name' =>
          obtain ⟨rfl, -⟩ := List.cons.inj same
          exact absurd List.mem_cons_self whole'
  | cons first name ih =>
      cases name' with
      | nil =>
          obtain ⟨rfl, -⟩ := List.cons.inj same
          exact absurd List.mem_cons_self whole
      | cons byte name' =>
          obtain ⟨rfl, tails⟩ := List.cons.inj same
          obtain ⟨rfl, rfl⟩ := ih (fun within => whole (List.mem_cons_of_mem _ within))
            (fun within => whole' (List.mem_cons_of_mem _ within)) tails
          exact ⟨rfl, rfl⟩

theorem gitOrder_eq {x y : TreeEntry} (wholeX : x.Whole) (wholeY : y.Whole)
    : gitOrder x y = compare x.key y.key := by
  have ends (entry : TreeEntry)
      : (if entry.mode = TREE then [47] else []) = (if entry.mode = TREE then some (47 : UInt8) else none).toList := by
    split <;> rfl
  have slash (entry : TreeEntry) : Ends (if entry.mode = TREE then some 47 else none) := by
    split
    · exact Or.inr rfl
    · exact Or.inl rfl
  rw [gitOrder, TreeEntry.key, TreeEntry.key, ends, ends]
  exact compare_ends (slash x) (slash y) wholeX.whole wholeY.whole

theorem key_eq_iff_of_not_mem {entry : TreeEntry} {path : List UInt8} (whole : 47 ∉ path)
    : entry.key = path ↔ entry.mode ≠ TREE ∧ entry.name = path := by
  rw [TreeEntry.key]
  by_cases tree : entry.mode = TREE
  · rw [if_pos tree]
    constructor
    · rintro rfl
      simp at whole
    · intro other
      exact absurd tree other.1
  · simp [tree]

theorem TreeEntry.Whole.key_eq_iff {entry : TreeEntry} {name : List UInt8} (whole : entry.Whole)
    : entry.key = name ++ [47] ↔ entry.mode = TREE ∧ entry.name = name := by
  rw [TreeEntry.key]
  by_cases tree : entry.mode = TREE
  · simp [tree]
  · rw [if_neg tree, List.append_nil]
    constructor
    · intro same
      have slash : (47 : UInt8) ∈ entry.name := by
        rw [same]
        simp
      exact absurd slash whole.whole
    · intro other
      exact absurd other.1 tree

-- The entries of a tree

def Tree.entries (tree : Tree) : Except String (List TreeEntry) :=
  match _next : tree.next with
  | .error problem => .error problem
  | .ok (none, _) => .ok []
  | .ok (some entry, past) => do
      let others ← past.entries
      .ok (entry :: others)
  termination_by tree.rest.length
  decreasing_by exact Tree.leftOf_next _next

/-- An entry that was read, with those of the tree past it. -/
def withRest (read : Option TreeEntry × Tree) : Except String (List TreeEntry) :=
  match read with
  | (none, _) => .ok []
  | (some entry, past) => do
      let others ← past.entries
      .ok (entry :: others)

theorem Tree.entries_eq (tree : Tree)
    : tree.entries = tree.next >>= withRest := by
  rw [Tree.entries]
  split <;> rename_i next <;> rw [next] <;> rfl

theorem Tree.entries_eq_cons_iff {tree : Tree} {first : TreeEntry} {rest : List TreeEntry}
    : tree.entries = .ok (first :: rest)
      ↔ ∃ past, tree.next = .ok (some first, past) ∧ past.entries = .ok rest := by
  rw [Tree.entries_eq, bind_eq_ok_iff]
  constructor
  · rintro ⟨⟨_ | entry, past⟩, next, read⟩
    · cases Except.ok.inj read
    · obtain ⟨others, more, read⟩ := bind_eq_ok_iff.mp read
      obtain ⟨rfl, rfl⟩ := List.cons.inj (Except.ok.inj read)
      exact ⟨past, next, more⟩
  · rintro ⟨past, next, more⟩
    exact ⟨(some first, past), next, bind_eq_ok_iff.mpr ⟨rest, more, rfl⟩⟩

/-- A tree's entries are in git's order, after the last that was read. -/
structure Tree.Ordered (tree : Tree) (entries : List TreeEntry) : Prop where
  whole : ∀ entry ∈ entries, entry.Whole
  ascending : Ascending TreeEntry.key entries
  after : ∀ last ∈ tree.last, last.Whole → ∀ entry ∈ entries, compare last.key entry.key = .lt

theorem Tree.ordered_of_entries {tree : Tree} {entries : List TreeEntry} (read : tree.entries = .ok entries)
    : tree.Ordered entries := by
  induction entries generalizing tree with
  | nil => exact ⟨nofun, List.Pairwise.nil, nofun⟩
  | cons first rest ih =>
      obtain ⟨past, next, more⟩ := Tree.entries_eq_cons_iff.mp read
      rcases tree.next_spec next with ⟨is, -⟩ | ⟨found, bytes, is, entryRead, rfl⟩
      · cases is
      · obtain rfl := Option.some.inj is
        obtain ⟨named, whole, later, -⟩ := Tree.readEntry_spec entryRead
        have ordered := ih more
        have own : first.Whole := ⟨named, whole⟩
        have below : ∀ entry ∈ rest, compare first.key entry.key = .lt := ordered.after first rfl own
        refine ⟨List.forall_mem_cons.mpr ⟨own, ordered.whole⟩, List.Pairwise.cons below ordered.ascending, ?_⟩
        intro last is wholeLast
        have lower : compare last.key first.key = .lt := by
          rw [← gitOrder_eq wholeLast own]
          exact later last is
        refine List.forall_mem_cons.mpr ⟨lower, ?_⟩
        intro entry member
        exact Std.TransCmp.lt_trans lower (below entry member)

def Objects.entriesOf (objects : Objects) (tree : Option Oid) : Except String (List TreeEntry) := do
  let tree ← objects.tree tree
  tree.entries

theorem Objects.ordered_of_entriesOf {objects : Objects} {tree : Option Oid} {entries : List TreeEntry}
    (read : objects.entriesOf tree = .ok entries)
    : (∀ entry ∈ entries, entry.Whole) ∧ Ascending TreeEntry.key entries := by
  obtain ⟨opened, -, read⟩ := exists_of_bind_eq_ok read
  have ordered := Tree.ordered_of_entries read
  exact ⟨ordered.whole, ordered.ascending⟩

theorem Objects.entriesOf_none (objects : Objects)
    : objects.entriesOf none = .ok [] := by
  change Tree.entries ⟨objects.objectId .tree [], objects.format, [], none⟩ = .ok []
  rw [Tree.entries_eq]
  rfl

-- The files of a tree

/-- The path of each file that a tree leads to, with its mode and its object: the tree flattened. A link
and a submodule's commit are files here.
-/
inductive Objects.Leaf (objects : Objects) : Option Oid → List UInt8 → Nat × Oid → Prop
  | file {tree entries entry} (read : objects.entriesOf tree = .ok entries) (member : entry ∈ entries)
    (plain : entry.mode ≠ TREE)
    : Leaf objects tree entry.name entry.value
  | inside {tree entries entry path value} (read : objects.entriesOf tree = .ok entries)
    (member : entry ∈ entries) (dir : entry.mode = TREE) (leaf : Leaf objects (some entry.id) path value)
    : Leaf objects tree (entry.name ++ 47 :: path) value

/-- The paths where two trees flattened differ: in mode or object, or that only one of them has. -/
def Objects.Differs (objects : Objects) (x y : Option Oid) (path : List UInt8) : Prop :=
  ∃ value, ¬(objects.Leaf x path value ↔ objects.Leaf y path value)

variable {objects : Objects}

theorem not_leaf_none {path : List UInt8} {value : Nat × Oid}
    : ¬objects.Leaf none path value := by
  intro leaf
  cases leaf with
  | @file _ entries entry read member plain | @inside _ entries entry path _ read member dir leaf =>
      obtain rfl := Except.ok.inj (objects.entriesOf_none.symm.trans read)
      cases member

theorem leaf_iff_of_not_mem {tree : Option Oid} {entries : List TreeEntry} {path : List UInt8}
    {value : Nat × Oid}
    (read : objects.entriesOf tree = .ok entries) (whole : 47 ∉ path)
    : objects.Leaf tree path value
      ↔ (under TreeEntry.key path entries).map TreeEntry.value = some value := by
  obtain ⟨wholes, ascending⟩ := Objects.ordered_of_entriesOf read
  rw [Option.map_eq_some_iff]
  constructor
  · intro leaf
    cases leaf with
    | @file _ entries' entry read' member plain =>
        obtain rfl := Except.ok.inj (read.symm.trans read')
        have same : entry.key = entry.name := by
          rw [key_eq_iff_of_not_mem whole]
          exact ⟨plain, rfl⟩
        refine ⟨entry, ?_, rfl⟩
        have found := ascending.under_key member
        rwa [same] at found
    | inside _ _ _ _ => simp at whole
  · rintro ⟨entry, found, rfl⟩
    obtain ⟨member, same⟩ := mem_of_under found
    obtain ⟨plain, rfl⟩ := (key_eq_iff_of_not_mem whole).mp same
    exact .file read member plain

theorem leaf_iff_below {tree : Option Oid} {entries : List TreeEntry} {name path : List UInt8}
    {value : Nat × Oid}
    (read : objects.entriesOf tree = .ok entries) (whole : 47 ∉ name)
    : objects.Leaf tree (name ++ 47 :: path) value
      ↔ objects.Leaf ((under TreeEntry.key (name ++ [47]) entries).map TreeEntry.id) path value := by
  obtain ⟨wholes, ascending⟩ := Objects.ordered_of_entriesOf read
  constructor
  · intro leaf
    generalize is : name ++ 47 :: path = full at leaf
    cases leaf with
    | @file _ entries' entry read' member plain =>
        obtain rfl := Except.ok.inj (read.symm.trans read')
        have slash : (47 : UInt8) ∈ entry.name := by
          rw [← is]
          simp
        exact absurd slash (wholes entry member).whole
    | @inside _ entries' entry path' _ read' member dir leaf =>
        obtain rfl := Except.ok.inj (read.symm.trans read')
        obtain ⟨rfl, rfl⟩ := eq_of_append_slash (wholes entry member).whole whole is.symm
        have same : entry.key = entry.name ++ [47] := (wholes entry member).key_eq_iff.mpr ⟨dir, rfl⟩
        have found := ascending.under_key member
        rw [same] at found
        rw [found]
        exact leaf
  · intro leaf
    cases found : under TreeEntry.key (name ++ [47]) entries with
    | none =>
        rw [found] at leaf
        exact absurd leaf not_leaf_none
    | some entry =>
        rw [found] at leaf
        obtain ⟨member, same⟩ := mem_of_under found
        obtain ⟨dir, rfl⟩ := (wholes entry member).key_eq_iff.mp same
        exact .inside read member dir leaf

theorem differs_iff_of_not_mem {x y : Option Oid} {xs ys : List TreeEntry} {path : List UInt8}
    (readX : objects.entriesOf x = .ok xs) (readY : objects.entriesOf y = .ok ys) (whole : 47 ∉ path)
    : objects.Differs x y path
      ↔ (under TreeEntry.key path xs).map TreeEntry.value
        ≠ (under TreeEntry.key path ys).map TreeEntry.value := by
  simp only [Objects.Differs, leaf_iff_of_not_mem readX whole, leaf_iff_of_not_mem readY whole]
  rw [← not_forall, not_iff_not]
  constructor
  · intro same
    exact Option.ext same
  · intro same value
    rw [same]

theorem differs_iff_inside {x y : Option Oid} {xs ys : List TreeEntry} {name path : List UInt8}
    (readX : objects.entriesOf x = .ok xs) (readY : objects.entriesOf y = .ok ys) (whole : 47 ∉ name)
    : objects.Differs x y (name ++ 47 :: path)
      ↔ objects.Differs ((under TreeEntry.key (name ++ [47]) xs).map TreeEntry.id)
          ((under TreeEntry.key (name ++ [47]) ys).map TreeEntry.id) path := by
  simp only [Objects.Differs, leaf_iff_below readX whole, leaf_iff_below readY whole]

theorem not_differs_self {tree : Option Oid} {path : List UInt8}
    : ¬objects.Differs tree tree path := by
  rintro ⟨value, differ⟩
  exact differ Iff.rfl

/-- What two trees have under one key differs in mode or object. -/
def Changed (pair : Option TreeEntry × Option TreeEntry) : Prop :=
  pair.1.map TreeEntry.value ≠ pair.2.map TreeEntry.value

/-- The paths that a pair of entries leads to and that differ: its own, of files, and those below it, of
trees.
-/
def Objects.Leads (objects : Objects) (pair : Option TreeEntry × Option TreeEntry) (path : List UInt8)
    : Prop :=
  Changed pair ∧ ∃ entry, either pair = some entry
    ∧ (entry.mode ≠ TREE ∧ path = entry.name
      ∨ entry.mode = TREE ∧ ∃ below, path = entry.name ++ 47 :: below
        ∧ objects.Differs (pair.1.map TreeEntry.id) (pair.2.map TreeEntry.id) below)

theorem differs_iff_leads {x y : Option Oid} {xs ys : List TreeEntry} {path : List UInt8}
    (readX : objects.entriesOf x = .ok xs) (readY : objects.entriesOf y = .ok ys)
    : objects.Differs x y path ↔ ∃ pair ∈ mergeJoin TreeEntry.key xs ys, objects.Leads pair path := by
  obtain ⟨wholesX, ascendingX⟩ := Objects.ordered_of_entriesOf readX
  obtain ⟨wholesY, ascendingY⟩ := Objects.ordered_of_entriesOf readY
  have wholes {pair : Option TreeEntry × Option TreeEntry} {entry : TreeEntry}
      (paired : Paired TreeEntry.key xs ys pair) (is : either pair = some entry) : entry.Whole :=
    (paired.mem_either is).elim (wholesX entry) (wholesY entry)
  -- What differs under a key has an entry of that key.
  have taken {wanted : List UInt8}
      (changed : Changed (under TreeEntry.key wanted xs, under TreeEntry.key wanted ys))
      : ∃ entry, either (under TreeEntry.key wanted xs, under TreeEntry.key wanted ys) = some entry
        ∧ entry.key = wanted ∧ entry.Whole
        ∧ (under TreeEntry.key wanted xs, under TreeEntry.key wanted ys) ∈ mergeJoin TreeEntry.key xs ys := by
    have some_ : (under TreeEntry.key wanted xs, under TreeEntry.key wanted ys) ≠ (none, none) := by
      intro gone
      rw [gone] at changed
      exact changed rfl
    have paired : Paired TreeEntry.key xs ys (under TreeEntry.key wanted xs, under TreeEntry.key wanted ys) :=
      ⟨some_, wanted, rfl⟩
    obtain ⟨entry, is, same⟩ := exists_either some_
    exact ⟨entry, is, same, wholes paired is, (mem_mergeJoin_iff ascendingX ascendingY).mpr paired⟩
  constructor
  · intro differs
    by_cases slash : 47 ∈ path
    · obtain ⟨name, below, rfl, whole⟩ := List.eq_append_cons_of_mem slash
      have inside := (differs_iff_inside readX readY whole).mp differs
      have changed : Changed (under TreeEntry.key (name ++ [47]) xs, under TreeEntry.key (name ++ [47]) ys) := by
        intro same
        have ids := congrArg (Option.map Prod.snd) same
        rw [Option.map_map, Option.map_map] at ids
        change Option.map TreeEntry.id _ = Option.map TreeEntry.id _ at ids
        rw [ids] at inside
        exact not_differs_self inside
      obtain ⟨entry, is, same, wholeEntry, member⟩ := taken changed
      obtain ⟨dir, rfl⟩ := wholeEntry.key_eq_iff.mp same
      exact ⟨_, member, changed, entry, is, Or.inr ⟨dir, below, rfl, inside⟩⟩
    · have changed : Changed (under TreeEntry.key path xs, under TreeEntry.key path ys) :=
        (differs_iff_of_not_mem readX readY slash).mp differs
      obtain ⟨entry, is, same, -, member⟩ := taken changed
      obtain ⟨plain, rfl⟩ := (key_eq_iff_of_not_mem slash).mp same
      exact ⟨_, member, changed, entry, is, Or.inl ⟨plain, rfl⟩⟩
  · rintro ⟨pair, member, changed, entry, is, kinds⟩
    have paired := (mem_mergeJoin_iff ascendingX ascendingY).mp member
    have whole := wholes paired is
    have both := paired.either_under is
    rcases kinds with ⟨plain, rfl⟩ | ⟨dir, below, rfl, inside⟩
    · have same : entry.key = entry.name := (key_eq_iff_of_not_mem whole.whole).mpr ⟨plain, rfl⟩
      rw [same] at both
      rw [both] at changed
      exact (differs_iff_of_not_mem readX readY whole.whole).mpr changed
    · have same : entry.key = entry.name ++ [47] := whole.key_eq_iff.mpr ⟨dir, rfl⟩
      rw [same] at both
      rw [both] at inside
      exact (differs_iff_inside readX readY whole.whole).mpr inside

end Dagron.CiGit
