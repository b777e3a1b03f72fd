import Dagron.CiGit.TreeReading

/-! What a walk over two trees takes down: the pairs of their entries that differ, and below each pair
of trees those of theirs. The walk returns where all of that is readable and within its limits.
-/

namespace Dagron.CiGit
open Dagron.Library

-- What two trees come to

/-- An entry that is taken down, with its path: a file, or a pair of trees so deep and of so many bytes. -/
inductive Touch where
  | file (name path : List UInt8)
  | tree (name path : List UInt8) (depth bytes : Nat)

def Touch.name : Touch → List UInt8
  | .file name _ => name
  | .tree name _ _ _ => name

def Touch.path : Touch → List UInt8
  | .file _ path => path
  | .tree _ path _ _ => path

def Touch.depth : Touch → Nat
  | .file _ _ => 0
  | .tree _ _ depth _ => depth

/-- The bytes of trees that are opened for what is taken down. -/
def Touch.opened : Touch → Nat
  | .file _ _ => 0
  | .tree _ _ _ bytes => bytes

def Touch.listed : Touch → List (List UInt8)
  | .file _ path => [path]
  | .tree _ _ _ _ => []

def Objects.size (objects : Objects) (tree : Option Oid) : Nat :=
  match objects.tree tree with
  | .ok opened => opened.rest.length
  | .error _ => 0

/-- (Compared dir depth pairs touches) says what is taken down of the pairs of a directory's entries,
whose paths begin with (dir): each that differs and, below each of trees, what is taken down there.
-/
inductive Objects.Compared (objects : Objects)
    : List UInt8 → Nat → List (Option TreeEntry × Option TreeEntry) → List Touch → Prop
  | done {dir depth}
    : Compared objects dir depth [] []
  | same {dir depth pair rest touches} (same : ¬Changed pair)
    (later : Compared objects dir depth rest touches)
    : Compared objects dir depth (pair :: rest) touches
  | file {dir depth pair rest touches entry} (changed : Changed pair) (is : either pair = some entry)
    (plain : entry.mode ≠ TREE) (later : Compared objects dir depth rest touches)
    : Compared objects dir depth (pair :: rest) (.file entry.name (dir ++ entry.name) :: touches)
  | tree {dir depth pair rest touches entry xs ys inner} (changed : Changed pair)
    (is : either pair = some entry) (isTree : entry.mode = TREE)
    (readX : objects.entriesOf (pair.1.map TreeEntry.id) = .ok xs)
    (readY : objects.entriesOf (pair.2.map TreeEntry.id) = .ok ys)
    (inside
      : Compared objects (dir ++ entry.name ++ [47]) (depth + 1) (mergeJoin TreeEntry.key xs ys) inner)
    (later : Compared objects dir depth rest touches)
    : Compared objects dir depth (pair :: rest)
        (.tree entry.name (dir ++ entry.name) depth
            (objects.size (pair.1.map TreeEntry.id) + objects.size (pair.2.map TreeEntry.id))
          :: (inner ++ touches))

-- What a walk has before it

/-- The entries of two trees from where they are read to, side by side. -/
def Pair.Reads (pair : Pair) (pairs : List (Option TreeEntry × Option TreeEntry)) : Prop :=
  ∃ xs ys, withRest (pair.x, pair.a) = .ok xs ∧ withRest (pair.y, pair.b) = .ok ys
    ∧ pairs = mergeJoin TreeEntry.key xs ys

/-- What the paths in a directory begin with, whose own path is the first (dir) bytes of (path). -/
def prefixOf (path : List UInt8) (dir : Nat) : List UInt8 :=
  path.take dir ++ (if dir > 0 then [47] else [])

/-- What is taken down of the pairs of trees that a walk is in, the innermost first. -/
inductive Objects.Before (objects : Objects) (path : List UInt8) : List Pair → List Touch → Prop
  | done
    : Before objects path [] []
  | within {pair pairs below inner touches} (reads : pair.Reads pairs)
    (compared : objects.Compared (prefixOf path pair.dir) (below.length + 1) pairs inner)
    (outer : Before objects path below touches)
    : Before objects path (pair :: below) (inner ++ touches)

/-- Whether directories are within one another, the innermost path of no more than (bound) bytes. -/
def Nested : Nat → List Pair → Prop
  | _, [] => True
  | bound, pair :: below => pair.dir ≤ bound ∧ Nested pair.dir below

/-- Whether the entries that two trees are at are ones of paths. -/
def Pair.Whole (pair : Pair) : Prop :=
  (∀ entry ∈ pair.x, entry.Whole) ∧ ∀ entry ∈ pair.y, entry.Whole

/-- What holds of a walk all along. -/
structure Walk.Valid (limits : Limits) (walk : Walk) : Prop where
  whole : ∀ pair ∈ walk.stack, pair.Whole
  nested : Nested walk.path.length walk.stack
  touched : walk.touched ≤ limits.paths
  walked : walk.walked ≤ limits.walked
  listedBytes : walk.listedBytes ≤ limits.listed

/-- Whether a walk may take down so much more. -/
structure Walk.Fits (limits : Limits) (walk : Walk) (touches : List Touch) : Prop where
  touched : walk.touched + touches.length ≤ limits.paths
  walked : walk.walked + (touches.map Touch.opened).sum ≤ limits.walked
  listedBytes : walk.listedBytes + ((touches.flatMap Touch.listed).map List.length).sum ≤ limits.listed
  utf8 : ∀ touch ∈ touches, isUtf8 touch.name = true
  pathLen : ∀ touch ∈ touches, touch.path.length ≤ limits.pathLen
  treeDepth : ∀ touch ∈ touches, touch.depth ≤ limits.treeDepth

-- One pair of trees

theorem Tree.whole_of_next {tree past : Tree} {entry : Option TreeEntry}
    (next : tree.next = .ok (entry, past))
    : ∀ found ∈ entry, found.Whole := by
  intro found is
  rcases tree.next_spec next with ⟨rfl, -⟩ | ⟨found', rest, rfl, read, -⟩
  · cases is
  · obtain rfl := Option.some.inj is
    obtain ⟨named, whole, -⟩ := Tree.readEntry_spec read
    exact ⟨named, whole⟩

/-- What a tree comes to from an entry on is the entry and what it comes to from the next one on. -/
theorem withRest_some_eq_ok_iff {entry : TreeEntry} {tree : Tree} {entries : List TreeEntry}
    : withRest (some entry, tree) = .ok entries
      ↔ ∃ next past others,
          tree.next = .ok (next, past) ∧ withRest (next, past) = .ok others ∧ entries = entry :: others := by
  rw [withRest, bind_eq_ok_iff, Tree.entries_eq]
  simp only [bind_eq_ok_iff, Prod.exists, Except.ok.injEq]
  constructor
  · rintro ⟨others, ⟨next, past, here, more⟩, rfl⟩
    exact ⟨next, past, others, here, more, rfl⟩
  · rintro ⟨next, past, others, here, more, rfl⟩
    exact ⟨others, ⟨next, past, here, more⟩, rfl⟩

theorem head_of_withRest {entry : Option TreeEntry} {tree : Tree} {entries : List TreeEntry}
    (read : withRest (entry, tree) = .ok entries)
    : entries.head? = entry := by
  cases entry with
  | none =>
      obtain rfl := Except.ok.inj read
      rfl
  | some entry =>
      obtain ⟨next, past, others, -, -, rfl⟩ := withRest_some_eq_ok_iff.mp read
      rfl

theorem advance_true_eq_ok_iff {entry taken next : Option TreeEntry} {tree past : Tree}
    : advance true entry tree = .ok (taken, next, past)
      ↔ taken = entry ∧ tree.next = .ok (next, past) := by
  rw [advance, if_pos rfl, bind_eq_ok_iff]
  simp only [Prod.exists, Except.ok.injEq, Prod.mk.injEq]
  constructor
  · rintro ⟨next', past', here, rfl, rfl, rfl⟩
    exact ⟨rfl, here⟩
  · rintro ⟨rfl, here⟩
    exact ⟨next, past, here, rfl, rfl, rfl⟩

theorem advance_false_eq_ok_iff {entry taken next : Option TreeEntry} {tree past : Tree}
    : advance false entry tree = .ok (taken, next, past)
      ↔ taken = none ∧ next = entry ∧ past = tree := by
  rw [advance, if_neg (by decide), Except.ok.injEq, Prod.mk.injEq, Prod.mk.injEq]
  exact and_congr eq_comm (and_congr eq_comm eq_comm)

theorem Pair.take_eq_ok_iff {pair next : Pair} {order : Ordering} {left right : Option TreeEntry}
    : pair.take order = .ok (left, right, next)
      ↔ ∃ x a y b, advance order.isLE pair.x pair.a = .ok (left, x, a)
        ∧ advance order.isGE pair.y pair.b = .ok (right, y, b) ∧ next = ⟨a, b, x, y, pair.dir⟩ := by
  rw [Pair.take, bind_eq_ok_iff]
  simp only [bind_eq_ok_iff, Prod.exists, Except.ok.injEq, Prod.mk.injEq]
  constructor
  · rintro ⟨left', x, a, takes, right', y, b, takes', rfl, rfl, rfl⟩
    exact ⟨x, a, y, b, takes, takes', rfl⟩
  · rintro ⟨x, a, y, b, takes, takes', rfl⟩
    exact ⟨left, x, a, takes, right, y, b, takes', rfl, rfl, rfl⟩

theorem Pair.first_spec {pair : Pair} {order : Ordering} (whole : pair.Whole)
    (first : pair.order = some order)
    : match order with
      | .lt => ∃ x, pair.x = some x ∧ ∀ y ∈ pair.y, compare x.key y.key = .lt
      | .gt => ∃ y, pair.y = some y ∧ ∀ x ∈ pair.x, compare x.key y.key = .gt
      | .eq => ∃ x y, pair.x = some x ∧ pair.y = some y ∧ compare x.key y.key = .eq := by
  rw [Pair.order] at first
  cases atX : pair.x with
  | none =>
      cases atY : pair.y with
      | none =>
          rw [atX, atY] at first
          cases first
      | some y =>
          rw [atX, atY] at first
          obtain rfl := Option.some.inj first
          exact ⟨y, rfl, (by rintro _ ⟨⟩)⟩
  | some x =>
      cases atY : pair.y with
      | none =>
          rw [atX, atY] at first
          obtain rfl := Option.some.inj first
          exact ⟨x, rfl, (by rintro _ ⟨⟩)⟩
      | some y =>
          rw [atX, atY] at first
          have ordered : compare x.key y.key = order := by
            rw [← gitOrder_eq (whole.1 x atX) (whole.2 y atY)]
            exact Option.some.inj first
          cases order with
          | lt => exact ⟨x, rfl, fun y' is => Option.some.inj is ▸ ordered⟩
          | gt => exact ⟨y, rfl, fun x' is => Option.some.inj is ▸ ordered⟩
          | eq => exact ⟨x, y, rfl, rfl, ordered⟩

/-- The first of what two trees come to is the pair that is taken, and the rest what they come to then. -/
theorem Pair.reads_iff_take {pair : Pair} {order : Ordering}
    {pairs : List (Option TreeEntry × Option TreeEntry)} (whole : pair.Whole)
    (first : pair.order = some order)
    : pair.Reads pairs
      ↔ ∃ x y next rest,
          pair.take order = .ok (x, y, next) ∧ next.Reads rest ∧ pairs = (x, y) :: rest := by
  have spec := Pair.first_spec whole first
  simp only [Pair.take_eq_ok_iff]
  cases order with
  | lt =>
      obtain ⟨x, atX, lower⟩ := spec
      constructor
      · rintro ⟨xs, ys, readX, readY, rfl⟩
        rw [atX] at readX
        obtain ⟨next, past, others, here, more, rfl⟩ := withRest_some_eq_ok_iff.mp readX
        rw [← head_of_withRest readY] at lower
        refine ⟨some x, none, _, mergeJoin TreeEntry.key others ys, ⟨next, past, pair.y, pair.b, ?_, ?_, rfl⟩,
          ⟨others, ys, more, readY, rfl⟩, mergeJoin_lower lower⟩
        · exact advance_true_eq_ok_iff.mpr ⟨atX.symm, here⟩
        · exact advance_false_eq_ok_iff.mpr ⟨rfl, rfl, rfl⟩
      · rintro ⟨left, right, -, -, ⟨next, past, y, b, takes, takes', rfl⟩, ⟨others, ys, more, readY, rfl⟩, rfl⟩
        obtain ⟨rfl, here⟩ := advance_true_eq_ok_iff.mp takes
        obtain ⟨rfl, rfl, rfl⟩ := advance_false_eq_ok_iff.mp takes'
        rw [← head_of_withRest readY] at lower
        refine ⟨x :: others, ys, ?_, readY, ?_⟩
        · rw [atX]
          exact withRest_some_eq_ok_iff.mpr ⟨next, past, others, here, more, rfl⟩
        · rw [atX]
          exact (mergeJoin_lower lower).symm
  | gt =>
      obtain ⟨y, atY, higher⟩ := spec
      constructor
      · rintro ⟨xs, ys, readX, readY, rfl⟩
        rw [atY] at readY
        obtain ⟨next, past, others, here, more, rfl⟩ := withRest_some_eq_ok_iff.mp readY
        rw [← head_of_withRest readX] at higher
        refine ⟨none, some y, _, mergeJoin TreeEntry.key xs others, ⟨pair.x, pair.a, next, past, ?_, ?_, rfl⟩,
          ⟨xs, others, readX, more, rfl⟩, mergeJoin_higher higher⟩
        · exact advance_false_eq_ok_iff.mpr ⟨rfl, rfl, rfl⟩
        · exact advance_true_eq_ok_iff.mpr ⟨atY.symm, here⟩
      · rintro ⟨left, right, -, -, ⟨x, a, next, past, takes, takes', rfl⟩, ⟨xs, others, readX, more, rfl⟩, rfl⟩
        obtain ⟨rfl, rfl, rfl⟩ := advance_false_eq_ok_iff.mp takes
        obtain ⟨rfl, here⟩ := advance_true_eq_ok_iff.mp takes'
        rw [← head_of_withRest readX] at higher
        refine ⟨xs, y :: others, readX, ?_, ?_⟩
        · rw [atY]
          exact withRest_some_eq_ok_iff.mpr ⟨next, past, others, here, more, rfl⟩
        · rw [atY]
          exact (mergeJoin_higher higher).symm
  | eq =>
      obtain ⟨x, y, atX, atY, equal⟩ := spec
      constructor
      · rintro ⟨xs, ys, readX, readY, rfl⟩
        rw [atX] at readX
        rw [atY] at readY
        obtain ⟨next, past, others, here, more, rfl⟩ := withRest_some_eq_ok_iff.mp readX
        obtain ⟨next', past', others', here', more', rfl⟩ := withRest_some_eq_ok_iff.mp readY
        refine ⟨some x, some y, _, mergeJoin TreeEntry.key others others',
          ⟨next, past, next', past', ?_, ?_, rfl⟩, ⟨others, others', more, more', rfl⟩, mergeJoin_equal equal⟩
        · exact advance_true_eq_ok_iff.mpr ⟨atX.symm, here⟩
        · exact advance_true_eq_ok_iff.mpr ⟨atY.symm, here'⟩
      · rintro ⟨left, right, -, -, ⟨next, past, next', past', takes, takes', rfl⟩,
          ⟨others, others', more, more', rfl⟩, rfl⟩
        obtain ⟨rfl, here⟩ := advance_true_eq_ok_iff.mp takes
        obtain ⟨rfl, here'⟩ := advance_true_eq_ok_iff.mp takes'
        refine ⟨x :: others, y :: others', ?_, ?_, ?_⟩
        · rw [atX]
          exact withRest_some_eq_ok_iff.mpr ⟨next, past, others, here, more, rfl⟩
        · rw [atY]
          exact withRest_some_eq_ok_iff.mpr ⟨next', past', others', here', more', rfl⟩
        · rw [atX, atY]
          exact (mergeJoin_equal equal).symm

theorem Pair.reads_iff_of_none {pair : Pair} {pairs : List (Option TreeEntry × Option TreeEntry)}
    (over_ : pair.order = none)
    : pair.Reads pairs ↔ pairs = [] := by
  have ended : pair.x = none ∧ pair.y = none := by
    rw [Pair.order] at over_
    cases atX : pair.x <;> cases atY : pair.y <;> rw [atX, atY] at over_
    · exact ⟨rfl, rfl⟩
    all_goals cases over_
  rw [Pair.Reads, ended.1, ended.2]
  constructor
  · rintro ⟨xs, ys, readX, readY, rfl⟩
    obtain rfl := Except.ok.inj readX
    obtain rfl := Except.ok.inj readY
    rw [mergeJoin_nil, List.map_nil]
  · rintro rfl
    exact ⟨[], [], rfl, rfl, by rw [mergeJoin_nil, List.map_nil]⟩

theorem Pair.whole_of_take {pair next : Pair} {order : Ordering} {x y : Option TreeEntry}
    (whole : pair.Whole) (took : pair.take order = .ok (x, y, next))
    : next.Whole ∧ next.dir = pair.dir := by
  have kept {first : Bool} {entry taken past : Option TreeEntry} {tree tree' : Tree}
      (own : ∀ found ∈ entry, found.Whole) (takes : advance first entry tree = .ok (taken, past, tree'))
      : ∀ found ∈ past, found.Whole := by
    cases first with
    | true => exact Tree.whole_of_next (advance_true_eq_ok_iff.mp takes).2
    | false =>
        obtain ⟨-, rfl, -⟩ := advance_false_eq_ok_iff.mp takes
        exact own
  obtain ⟨x', a, y', b, takes, takes', rfl⟩ := Pair.take_eq_ok_iff.mp took
  exact ⟨⟨kept whole.1 takes, kept whole.2 takes'⟩, rfl⟩

-- Two trees opened

section Opening

variable {objects : Objects} {limits : Limits}

theorem openTree_eq_ok_iff {walked total : Nat} {tree : Option Oid} {opened : Tree}
    : openTree objects limits walked tree = .ok (opened, total)
      ↔ objects.tree tree = .ok opened ∧ total = walked + objects.size tree ∧ total ≤ limits.walked := by
  rw [openTree, bind_eq_ok_iff]
  simp only [refuseIf_bind_eq_ok_iff, Except.ok.injEq, Prod.mk.injEq, decide_eq_false_iff_not, gt_iff_lt,
    Nat.not_lt]
  constructor
  · rintro ⟨opened', read, within, rfl, rfl⟩
    have size : objects.size tree = opened'.rest.length := by rw [Objects.size, read]
    exact ⟨read, by rw [size], within⟩
  · rintro ⟨read, rfl, within⟩
    have size : objects.size tree = opened.rest.length := by rw [Objects.size, read]
    rw [size] at within ⊢
    exact ⟨opened, read, within, rfl, rfl⟩

theorem Pair.new_eq_ok_iff {a b : Tree} {dir : Nat} {pair : Pair}
    : Pair.new a b dir = .ok pair
      ↔ a.next = .ok (pair.x, pair.a) ∧ b.next = .ok (pair.y, pair.b) ∧ pair.dir = dir := by
  rw [Pair.new, bind_eq_ok_iff]
  simp only [bind_eq_ok_iff, Prod.exists, Except.ok.injEq]
  constructor
  · rintro ⟨x, a', nextA, y, b', nextB, rfl⟩
    exact ⟨nextA, nextB, rfl⟩
  · rintro ⟨nextA, nextB, rfl⟩
    exact ⟨pair.x, pair.a, nextA, pair.y, pair.b, nextB, rfl⟩

theorem openPair_eq_ok_iff {walked total dir : Nat} {x y : Option Oid} {pair : Pair}
    : openPair objects limits walked x y dir = .ok (pair, total)
      ↔ ∃ a b, objects.tree x = .ok a ∧ objects.tree y = .ok b ∧ Pair.new a b dir = .ok pair
        ∧ total = walked + (objects.size x + objects.size y) ∧ total ≤ limits.walked := by
  rw [openPair, bind_eq_ok_iff]
  simp only [bind_eq_ok_iff, Prod.exists, Except.ok.injEq, Prod.mk.injEq, openTree_eq_ok_iff]
  constructor
  · rintro ⟨a, middle, ⟨readX, rfl, -⟩, b, total', ⟨readY, rfl, within⟩, pair', new, rfl, rfl⟩
    exact ⟨a, b, readX, readY, new, Nat.add_assoc .., within⟩
  · rintro ⟨a, b, readX, readY, new, rfl, within⟩
    exact ⟨a, _, ⟨readX, rfl, by omega⟩, b, _, ⟨readY, rfl, by omega⟩, pair, new, rfl,
      Nat.add_assoc ..⟩

theorem Objects.entriesOf_eq_ok_iff {tree : Option Oid} {entries : List TreeEntry}
    : objects.entriesOf tree = .ok entries
      ↔ ∃ opened first past,
          objects.tree tree = .ok opened ∧ opened.next = .ok (first, past)
            ∧ withRest (first, past) = .ok entries := by
  rw [Objects.entriesOf, bind_eq_ok_iff]
  simp only [Tree.entries_eq, bind_eq_ok_iff, Prod.exists, exists_and_left]

theorem reads_of_openPair {walked total dir : Nat} {x y : Option Oid} {pair : Pair}
    {pairs : List (Option TreeEntry × Option TreeEntry)}
    (opened : openPair objects limits walked x y dir = .ok (pair, total)) (reads : pair.Reads pairs)
    : ∃ xs ys, objects.entriesOf x = .ok xs ∧ objects.entriesOf y = .ok ys
      ∧ pairs = mergeJoin TreeEntry.key xs ys := by
  obtain ⟨a, b, treeX, treeY, new, -, -⟩ := openPair_eq_ok_iff.mp opened
  obtain ⟨nextA, nextB, -⟩ := Pair.new_eq_ok_iff.mp new
  obtain ⟨xs, ys, readX, readY, rfl⟩ := reads
  refine ⟨xs, ys, ?_, ?_, rfl⟩
  · exact Objects.entriesOf_eq_ok_iff.mpr ⟨a, pair.x, pair.a, treeX, nextA, readX⟩
  · exact Objects.entriesOf_eq_ok_iff.mpr ⟨b, pair.y, pair.b, treeY, nextB, readY⟩

theorem exists_openPair {walked : Nat} (dir : Nat) {x y : Option Oid} {xs ys : List TreeEntry}
    (readX : objects.entriesOf x = .ok xs) (readY : objects.entriesOf y = .ok ys)
    (within : walked + (objects.size x + objects.size y) ≤ limits.walked)
    : ∃ pair,
        openPair objects limits walked x y dir = .ok (pair, walked + (objects.size x + objects.size y))
          ∧ pair.Reads (mergeJoin TreeEntry.key xs ys) := by
  obtain ⟨a, first, past, treeX, nextA, restX⟩ := Objects.entriesOf_eq_ok_iff.mp readX
  obtain ⟨b, first', past', treeY, nextB, restY⟩ := Objects.entriesOf_eq_ok_iff.mp readY
  refine ⟨⟨past, past', first, first', dir⟩, ?_, xs, ys, restX, restY, rfl⟩
  exact openPair_eq_ok_iff.mpr ⟨a, b, treeX, treeY, Pair.new_eq_ok_iff.mpr ⟨nextA, nextB, rfl⟩, rfl, within⟩

/-- What is opened is at entries of paths, in its directory, and within the bytes to be walked. -/
theorem openPair_whole {walked total dir : Nat} {x y : Option Oid} {pair : Pair}
    (opened : openPair objects limits walked x y dir = .ok (pair, total))
    : pair.Whole ∧ pair.dir = dir ∧ total = walked + (objects.size x + objects.size y)
      ∧ total ≤ limits.walked := by
  obtain ⟨a, b, -, -, new, total', within⟩ := openPair_eq_ok_iff.mp opened
  obtain ⟨nextA, nextB, same⟩ := Pair.new_eq_ok_iff.mp new
  exact ⟨⟨Tree.whole_of_next nextA, Tree.whole_of_next nextB⟩, same, total', within⟩

end Opening

-- One step

theorem prefixOf_congr {path path' : List UInt8} {bound dir : Nat}
    (same : path.take bound = path'.take bound) (within : dir ≤ bound)
    : prefixOf path dir = prefixOf path' dir := by
  have shorter : path.take dir = path'.take dir := by
    rw [← Nat.min_eq_left within, ← List.take_take, same, List.take_take]
  rw [prefixOf, prefixOf, shorter]

theorem Objects.Before.congr {objects : Objects} {path path' : List UInt8} {stack : List Pair}
    {touches : List Touch} {bound : Nat}
    (before : objects.Before path stack touches) (same : path.take bound = path'.take bound)
    (nested : Nested bound stack)
    : objects.Before path' stack touches := by
  induction before generalizing bound with
  | done => exact .done
  | @within pair pairs below inner touches reads compared outer ih =>
      obtain ⟨inside, nested⟩ := nested
      have inner : path.take pair.dir = path'.take pair.dir := by
        rw [← Nat.min_eq_left inside, ← List.take_take, same, List.take_take]
      rw [prefixOf_congr same inside] at compared
      exact .within reads compared (ih inner nested)

theorem pathIn_eq (path : List UInt8) (dir : Nat) (name : List UInt8)
    : pathIn path dir name = prefixOf path dir ++ name :=
  rfl

theorem take_pathIn {path : List UInt8} {dir : Nat} (within : dir ≤ path.length) (name : List UInt8)
    : path.take dir = (pathIn path dir name).take dir := by
  have length : (path.take dir).length = dir := List.length_take_of_le within
  rw [pathIn, List.append_assoc, List.take_append_of_le_length (le_of_eq length.symm), List.take_take,
    Nat.min_self]

theorem le_length_pathIn {path : List UInt8} {dir : Nat} (within : dir ≤ path.length) (name : List UInt8)
    : dir ≤ (pathIn path dir name).length := by
  rw [pathIn, List.length_append, List.length_append, List.length_take_of_le within]
  omega

theorem prefixOf_pathIn {path name : List UInt8} {dir : Nat} (named : name ≠ [])
    : prefixOf (pathIn path dir name) (pathIn path dir name).length = prefixOf path dir ++ name ++ [47] := by
  have long : (pathIn path dir name).length > 0 := by
    rw [pathIn, List.length_append]
    have own := List.length_pos_iff.mpr named
    omega
  rw [prefixOf, List.take_length, if_pos long, pathIn_eq]

theorem Nested.mono {bound bound' : Nat} {stack : List Pair} (nested : Nested bound stack)
    (more : bound ≤ bound')
    : Nested bound' stack := by
  cases stack with
  | nil => trivial
  | cons pair below => exact ⟨nested.1.trans more, nested.2⟩

theorem Nested.of_same {bound : Nat} {pair past : Pair} {below : List Pair}
    (nested : Nested bound (pair :: below)) (same : past.dir = pair.dir)
    : Nested bound (past :: below) := by
  obtain ⟨inside, nested⟩ := nested
  rw [← same] at inside nested
  exact ⟨inside, nested⟩

theorem Pair.either_of_take {pair next : Pair} {order : Ordering} {x y : Option TreeEntry}
    {entry : TreeEntry} (whole : pair.Whole) (took : pair.take order = .ok (x, y, next))
    (is : x.or y = some entry)
    : entry.Whole := by
  have own {first : Bool} {at_ taken past : Option TreeEntry} {tree tree' : Tree}
      (takes : advance first at_ tree = .ok (taken, past, tree'))
      : taken = at_ ∨ taken = none := by
    cases first with
    | true => exact Or.inl (advance_true_eq_ok_iff.mp takes).1
    | false => exact Or.inr (advance_false_eq_ok_iff.mp takes).1
  obtain ⟨x', a, y', b, takes, takes', -⟩ := Pair.take_eq_ok_iff.mp took
  rcases own takes with rfl | rfl
  · rcases Option.or_eq_some_iff.mp is with left | ⟨-, right⟩
    · exact whole.1 entry left
    · rcases own takes' with rfl | rfl
      · exact whole.2 entry right
      · cases right
  · rw [Option.none_or] at is
    rcases own takes' with rfl | rfl
    · exact whole.2 entry is
    · cases is

theorem Walk.valid_step {objects : Objects} {limits : Limits} {walk next : Walk} {pair : Pair}
    {below : List Pair}
    (valid : walk.Valid limits) (stack : walk.stack = pair :: below)
    (stepped : walk.step objects limits pair below = .ok next)
    : next.Valid limits := by
  have nested := valid.nested
  rw [stack] at nested
  have wholes := valid.whole
  rw [stack] at wholes
  obtain ⟨whole, wholes⟩ := List.forall_mem_cons.mp wholes
  obtain ⟨-, ⟨-, rfl⟩ | ⟨order, x, y, past, entry, first, took, -, ⟨-, rfl⟩ | ⟨-, touched⟩⟩⟩ :=
    Walk.step_eq_ok_iff.mp stepped
  · exact ⟨wholes, nested.2.mono nested.1, valid.touched, valid.walked, valid.listedBytes⟩
  · obtain ⟨whole', same⟩ := Pair.whole_of_take whole took
    exact ⟨List.forall_mem_cons.mpr ⟨whole', wholes⟩, nested.of_same same, valid.touched, valid.walked,
      valid.listedBytes⟩
  · obtain ⟨whole', same⟩ := Pair.whole_of_take whole took
    have long := le_length_pathIn nested.1 entry.name
    have below' : Nested (pathIn walk.path pair.dir entry.name).length (past :: below) :=
      Nested.of_same ⟨long, nested.2⟩ same
    obtain ⟨within, -, -, ⟨-, -, opened, total, isOpen, rfl⟩ | ⟨-, listed, rfl⟩⟩ :=
      Walk.touch_eq_ok_iff.mp touched
    · obtain ⟨wholeOpened, dir, -, bytes⟩ := openPair_whole isOpen
      refine ⟨List.forall_mem_cons.mpr ⟨wholeOpened, List.forall_mem_cons.mpr ⟨whole', wholes⟩⟩, ?_,
        within, bytes, valid.listedBytes⟩
      refine ⟨le_of_eq dir, ?_⟩
      rw [dir]
      exact below'
    · exact ⟨List.forall_mem_cons.mpr ⟨whole', wholes⟩, below', within, valid.walked, listed⟩

/-- What a walk comes to: what it has listed, and the paths of what it has before it, if that is
readable and within its limits.
-/
def Walk.Comes (objects : Objects) (limits : Limits) (walk : Walk) (listed : List (List UInt8)) : Prop :=
  ∃ touches, objects.Before walk.path walk.stack touches ∧ walk.Fits limits touches
    ∧ listed = walk.listed ++ touches.flatMap Touch.listed

theorem Walk.Valid.fits_nil {limits : Limits} {walk : Walk} (valid : walk.Valid limits)
    : walk.Fits limits [] :=
  ⟨valid.touched, valid.walked, valid.listedBytes, nofun, nofun, nofun⟩

theorem Walk.fits_cons_iff {limits : Limits} {walk next : Walk} {touch : Touch} {touches : List Touch}
    (touched : next.touched = walk.touched + 1) (walked : next.walked = walk.walked + touch.opened)
    (listedBytes : next.listedBytes = walk.listedBytes + (touch.listed.map List.length).sum)
    : walk.Fits limits (touch :: touches)
      ↔ next.Fits limits touches ∧ isUtf8 touch.name = true ∧ touch.path.length ≤ limits.pathLen
        ∧ touch.depth ≤ limits.treeDepth := by
  constructor
  · rintro ⟨count, bytes, listed, utf8, pathLen, treeDepth⟩
    rw [List.length_cons] at count
    rw [List.map_cons, List.sum_cons] at bytes
    rw [List.flatMap_cons, List.map_append, List.sum_append] at listed
    obtain ⟨own, utf8⟩ := List.forall_mem_cons.mp utf8
    obtain ⟨ownLen, pathLen⟩ := List.forall_mem_cons.mp pathLen
    obtain ⟨ownDepth, treeDepth⟩ := List.forall_mem_cons.mp treeDepth
    exact ⟨⟨by omega, by omega, by omega, utf8, pathLen, treeDepth⟩, own, ownLen, ownDepth⟩
  · rintro ⟨⟨count, bytes, listed, utf8, pathLen, treeDepth⟩, own, ownLen, ownDepth⟩
    refine ⟨?_, ?_, ?_, List.forall_mem_cons.mpr ⟨own, utf8⟩, List.forall_mem_cons.mpr ⟨ownLen, pathLen⟩,
      List.forall_mem_cons.mpr ⟨ownDepth, treeDepth⟩⟩
    · rw [List.length_cons]
      omega
    · rw [List.map_cons, List.sum_cons]
      omega
    · rw [List.flatMap_cons, List.map_append, List.sum_append]
      omega

theorem Walk.comes_of_step {objects : Objects} {limits : Limits} {walk next : Walk} {pair : Pair}
    {below : List Pair} {listed : List (List UInt8)}
    (valid : walk.Valid limits) (stack : walk.stack = pair :: below)
    (stepped : walk.step objects limits pair below = .ok next) (comes : next.Comes objects limits listed)
    : walk.Comes objects limits listed := by
  have nested := valid.nested
  have wholes := valid.whole
  rw [stack] at nested wholes
  have whole := wholes pair List.mem_cons_self
  obtain ⟨touches, before, fits, rfl⟩ := comes
  obtain ⟨-, ⟨over_, rfl⟩ | ⟨order, x, y, past, entry, first, took, is, ⟨same, rfl⟩ | ⟨changed, touched⟩⟩⟩ :=
    Walk.step_eq_ok_iff.mp stepped
  · refine ⟨[] ++ touches, ?_, ?_, rfl⟩
    · rw [stack]
      exact .within ((Pair.reads_iff_of_none over_).mpr rfl) .done before
    · exact ⟨fits.touched, fits.walked, fits.listedBytes, fits.utf8, fits.pathLen, fits.treeDepth⟩
  · cases before with
    | @within _ rest _ inner outerTouches reads compared outer =>
        have dir := (Pair.whole_of_take whole took).2
        refine ⟨inner ++ outerTouches, ?_, ?_, rfl⟩
        · rw [stack]
          refine .within ((Pair.reads_iff_take whole first).mpr ⟨x, y, past, rest, took, reads, rfl⟩) ?_ outer
          rw [dir] at compared
          exact .same (fun differs => differs same) compared
        · exact ⟨fits.touched, fits.walked, fits.listedBytes, fits.utf8, fits.pathLen, fits.treeDepth⟩
  · have dir := (Pair.whole_of_take whole took).2
    have wholeEntry := Pair.either_of_take whole took is
    have again := take_pathIn nested.1 entry.name
    have prefix_ : prefixOf (pathIn walk.path pair.dir entry.name) past.dir = prefixOf walk.path pair.dir := by
      rw [dir]
      exact prefixOf_congr again.symm (le_refl _)
    obtain ⟨within, text, short, ⟨isTree, deep, opened, total, isOpen, rfl⟩ | ⟨plain, bytes, rfl⟩⟩ :=
      Walk.touch_eq_ok_iff.mp touched
    · obtain ⟨-, openedDir, totalIs, -⟩ := openPair_whole isOpen
      cases before with
      | @within _ pairs _ inner _ reads compared outer =>
          cases outer with
          | @within _ rest _ inner' outerTouches reads' compared' outer =>
              obtain ⟨xs, ys, readX, readY, rfl⟩ := reads_of_openPair isOpen reads
              rw [openedDir, prefixOf_pathIn wholeEntry.named] at compared
              rw [prefix_] at compared'
              refine ⟨(.tree entry.name (prefixOf walk.path pair.dir ++ entry.name) (below.length + 1)
                  (objects.size (x.map TreeEntry.id) + objects.size (y.map TreeEntry.id))
                :: (inner ++ inner')) ++ outerTouches, ?_, ?_, ?_⟩
              · rw [stack]
                refine .within ((Pair.reads_iff_take whole first).mpr ⟨x, y, past, rest, took, reads', rfl⟩)
                  (.tree changed is isTree readX readY compared compared') ?_
                exact outer.congr again.symm nested.2
              · rw [List.cons_append, List.append_assoc]
                exact (Walk.fits_cons_iff rfl totalIs rfl).mpr ⟨fits, text, short, deep⟩
              · rw [List.cons_append, List.append_assoc, List.flatMap_cons]
                rfl
    · cases before with
      | @within _ rest _ inner outerTouches reads compared outer =>
          rw [prefix_] at compared
          refine ⟨(.file entry.name (prefixOf walk.path pair.dir ++ entry.name) :: inner) ++ outerTouches,
            ?_, ?_, ?_⟩
          · rw [stack]
            refine .within ((Pair.reads_iff_take whole first).mpr ⟨x, y, past, rest, took, reads, rfl⟩)
              (.file changed is plain compared) ?_
            exact outer.congr again.symm nested.2
          · exact (Walk.fits_cons_iff rfl rfl rfl).mpr ⟨fits, text, short, Nat.zero_le _⟩
          · rw [List.cons_append, List.flatMap_cons, ← List.append_assoc]
            rfl

theorem Pair.exists_of_take {pair next : Pair} {order : Ordering} {x y : Option TreeEntry}
    (whole : pair.Whole) (first : pair.order = some order) (took : pair.take order = .ok (x, y, next))
    : ∃ entry, x.or y = some entry := by
  have spec := Pair.first_spec whole first
  obtain ⟨x', a, y', b, takes, takes', -⟩ := Pair.take_eq_ok_iff.mp took
  cases order with
  | lt =>
      obtain ⟨entry, atX, -⟩ := spec
      obtain ⟨rfl, -⟩ := advance_true_eq_ok_iff.mp takes
      exact ⟨entry, by rw [atX, Option.some_or]⟩
  | gt =>
      obtain ⟨entry, atY, -⟩ := spec
      obtain ⟨rfl, -⟩ := advance_false_eq_ok_iff.mp takes
      obtain ⟨rfl, -⟩ := advance_true_eq_ok_iff.mp takes'
      exact ⟨entry, by rw [atY, Option.none_or]⟩
  | eq =>
      obtain ⟨entry, other, atX, -⟩ := spec
      obtain ⟨rfl, -⟩ := advance_true_eq_ok_iff.mp takes
      exact ⟨entry, by rw [atX, Option.some_or]⟩

theorem Walk.step_of_comes {objects : Objects} {limits : Limits} {walk : Walk} {pair : Pair}
    {below : List Pair} {listed : List (List UInt8)}
    (valid : walk.Valid limits) (stack : walk.stack = pair :: below)
    (inTime : ∀ steps, limits.late steps = false) (comes : walk.Comes objects limits listed)
    : ∃ next, walk.step objects limits pair below = .ok next ∧ next.Comes objects limits listed := by
  have nested := valid.nested
  have wholes := valid.whole
  rw [stack] at nested wholes
  have whole := wholes pair List.mem_cons_self
  have early : (walk.steps % 256 = 0 && limits.late walk.steps) = false := by
    rw [inTime, Bool.and_false]
  obtain ⟨touches, before, fits, rfl⟩ := comes
  rw [stack] at before
  cases before with
  | @within _ pairs _ inner outerTouches reads compared outer =>
      cases first : pair.order with
      | none =>
          obtain rfl := (Pair.reads_iff_of_none first).mp reads
          cases compared
          refine ⟨_, Walk.step_eq_ok_iff.mpr ⟨early, Or.inl ⟨first, rfl⟩⟩, outerTouches, outer, ?_, rfl⟩
          exact ⟨fits.touched, fits.walked, fits.listedBytes, fits.utf8, fits.pathLen, fits.treeDepth⟩
      | some order =>
          obtain ⟨x, y, past, rest, took, reads', rfl⟩ := (Pair.reads_iff_take whole first).mp reads
          obtain ⟨entry, is⟩ := Pair.exists_of_take whole first took
          have dir := (Pair.whole_of_take whole took).2
          have wholeEntry := Pair.either_of_take whole took is
          have again := take_pathIn nested.1 entry.name
          have prefix_ : prefixOf (pathIn walk.path pair.dir entry.name) past.dir
              = prefixOf walk.path pair.dir := by
            rw [dir]
            exact prefixOf_congr again.symm (le_refl _)
          have stepped (next : Walk)
              (does : x.map (·.value) = y.map (·.value)
                  ∧ { walk with stack := past :: below, steps := walk.steps + 1 } = next
                ∨ x.map (·.value) ≠ y.map (·.value)
                  ∧ Walk.touch objects limits { walk with stack := past :: below, steps := walk.steps + 1 }
                      pair.dir x y entry = .ok next)
              : walk.step objects limits pair below = .ok next :=
            Walk.step_eq_ok_iff.mpr ⟨early, Or.inr ⟨order, x, y, past, entry, first, took, is, does⟩⟩
          cases compared with
          | same same later =>
              refine ⟨_, stepped _ (Or.inl ⟨not_not.mp same, rfl⟩), inner ++ outerTouches, ?_, ?_, rfl⟩
              · refine .within reads' ?_ outer
                rw [dir]
                exact later
              · exact ⟨fits.touched, fits.walked, fits.listedBytes, fits.utf8, fits.pathLen, fits.treeDepth⟩
          | @file _ _ _ _ touches entry' changed is' plain later =>
              obtain rfl := Option.some.inj (is.symm.trans is')
              let next : Walk :=
                { walk with
                  stack := past :: below
                  path := pathIn walk.path pair.dir entry.name
                  listed := walk.listed ++ [pathIn walk.path pair.dir entry.name]
                  listedBytes := walk.listedBytes + (pathIn walk.path pair.dir entry.name).length
                  touched := walk.touched + 1
                  steps := walk.steps + 1 }
              obtain ⟨fits, text, short, -⟩ := (@Walk.fits_cons_iff _ _ next _ _ rfl rfl rfl).mp fits
              refine ⟨next, stepped next (Or.inr ⟨changed, ?_⟩), touches ++ outerTouches, ?_, fits, ?_⟩
              · refine Walk.touch_eq_ok_iff.mpr ⟨?_, text, short, Or.inr ⟨plain, ?_, rfl⟩⟩
                · exact (Nat.le_add_right _ _).trans fits.touched
                · exact (Nat.le_add_right _ _).trans fits.listedBytes
              · refine .within reads' ?_ (outer.congr again nested.2)
                change objects.Compared (prefixOf (pathIn walk.path pair.dir entry.name) past.dir) _ _ _
                rw [prefix_]
                exact later
              · rw [List.cons_append, List.flatMap_cons, ← List.append_assoc]
                rfl
          | @tree _ _ _ _ touches entry' xs ys inner changed is' isTree readX readY inside later =>
              obtain rfl := Option.some.inj (is.symm.trans is')
              have bytes := fits.walked
              rw [List.cons_append, List.map_cons, List.sum_cons] at bytes
              obtain ⟨opened, isOpen, reads⟩ :=
                @exists_openPair objects limits walk.walked (pathIn walk.path pair.dir entry.name).length _ _
                  _ _ readX readY ((Nat.add_le_add_left (Nat.le_add_right _ _) _).trans bytes)
              let next : Walk :=
                { walk with
                  stack := opened :: past :: below
                  path := pathIn walk.path pair.dir entry.name
                  walked := walk.walked
                    + (objects.size (x.map TreeEntry.id) + objects.size (y.map TreeEntry.id))
                  touched := walk.touched + 1
                  steps := walk.steps + 1 }
              obtain ⟨fits, text, short, deep⟩ := (@Walk.fits_cons_iff _ _ next _ _ rfl rfl rfl).mp fits
              obtain ⟨-, openedDir, -, -⟩ := openPair_whole isOpen
              refine ⟨next, stepped next (Or.inr ⟨changed, ?_⟩), inner ++ (touches ++ outerTouches), ?_, ?_, ?_⟩
              · refine Walk.touch_eq_ok_iff.mpr
                  ⟨?_, text, short, Or.inl ⟨isTree, deep, opened, _, isOpen, rfl⟩⟩
                exact (Nat.le_add_right _ _).trans fits.touched
              · refine .within reads ?_ (.within reads' ?_ (outer.congr again nested.2))
                · change objects.Compared (prefixOf (pathIn walk.path pair.dir entry.name) opened.dir) _ _ _
                  rw [openedDir, prefixOf_pathIn wholeEntry.named]
                  exact inside
                · change objects.Compared (prefixOf (pathIn walk.path pair.dir entry.name) past.dir) _ _ _
                  rw [prefix_]
                  exact later
              · rw [← List.append_assoc]
                exact fits
              · rw [List.cons_append, List.flatMap_cons, List.append_assoc]
                rfl

-- The whole walk

section Runs

variable {objects : Objects} {limits : Limits} {walk : Walk} {listed : List (List UInt8)}

theorem Walk.run_eq_of_cons {pair : Pair} {below : List Pair} (stack : walk.stack = pair :: below)
    : walk.run objects limits = walk.step objects limits pair below >>= Walk.run objects limits := by
  rw [Walk.run]
  split <;> rename_i is
  · rw [stack] at is
    cases is
  · obtain ⟨rfl, rfl⟩ := List.cons.inj (stack.symm.trans is)
    split <;> rename_i stepped <;> rw [stepped] <;> rfl

theorem Walk.run_eq_of_nil (stack : walk.stack = [])
    : walk.run objects limits = .ok walk.listed := by
  rw [Walk.run]
  split <;> rename_i is
  · rfl
  · rw [stack] at is
    cases is

theorem Walk.comes_of_nil (valid : walk.Valid limits) (stack : walk.stack = [])
    : walk.Comes objects limits listed ↔ listed = walk.listed := by
  constructor
  · rintro ⟨touches, before, -, rfl⟩
    rw [stack] at before
    cases before
    exact List.append_nil _
  · rintro rfl
    refine ⟨[], ?_, valid.fits_nil, (List.append_nil _).symm⟩
    rw [stack]
    exact .done

theorem Walk.comes_of_run (valid : walk.Valid limits) (ran : walk.run objects limits = .ok listed)
    : walk.Comes objects limits listed := by
  induction walk using Walk.run.induct objects limits with
  | case1 walk stack =>
      rw [Walk.run_eq_of_nil stack] at ran
      exact (Walk.comes_of_nil valid stack).mpr (Except.ok.inj ran).symm
  | case2 walk pair below stack problem stepped =>
      rw [Walk.run_eq_of_cons stack, stepped] at ran
      cases ran
  | case3 walk pair below stack next stepped ih =>
      rw [Walk.run_eq_of_cons stack, stepped] at ran
      exact Walk.comes_of_step valid stack stepped (ih (Walk.valid_step valid stack stepped) ran)

theorem Walk.run_of_comes (valid : walk.Valid limits) (inTime : ∀ steps, limits.late steps = false)
    (comes : walk.Comes objects limits listed)
    : walk.run objects limits = .ok listed := by
  induction walk using Walk.run.induct objects limits with
  | case1 walk stack =>
      rw [Walk.run_eq_of_nil stack, (Walk.comes_of_nil valid stack).mp comes]
  | case2 walk pair below stack problem stepped =>
      obtain ⟨next, ok, -⟩ := Walk.step_of_comes valid stack inTime comes
      rw [stepped] at ok
      cases ok
  | case3 walk pair below stack next stepped ih =>
      obtain ⟨next', ok, comes⟩ := Walk.step_of_comes valid stack inTime comes
      obtain rfl := Except.ok.inj (stepped.symm.trans ok)
      rw [Walk.run_eq_of_cons stack, stepped]
      exact ih (Walk.valid_step valid stack stepped) comes

end Runs

end Dagron.CiGit
