import Dagron.CiGit.TreeWalk

/-! The paths that a walk over two commits lists are exactly those where their trees, flattened, differ;
and where a tree that the comparison needs is missing or malformed, none are.
-/

namespace Dagron.CiGit
open Dagron.Library

variable {objects : Objects}

-- What is listed

/-- Pairs of entries in the order of their keys, whose names are ones of paths. -/
structure Apart (pairs : List (Option TreeEntry × Option TreeEntry)) : Prop where
  whole : ∀ pair ∈ pairs, ∀ entry, either pair = some entry → entry.Whole
  keys
    : pairs.Pairwise (fun pair other =>
        ∀ x y, either pair = some x → either other = some y → x.key ≠ y.key)

theorem apart_mergeJoin {x y : Option Oid} {xs ys : List TreeEntry}
    (readX : objects.entriesOf x = .ok xs) (readY : objects.entriesOf y = .ok ys)
    : Apart (mergeJoin TreeEntry.key xs ys) := by
  obtain ⟨wholesX, ascendingX⟩ := Objects.ordered_of_entriesOf readX
  obtain ⟨wholesY, ascendingY⟩ := Objects.ordered_of_entriesOf readY
  refine ⟨?_, mergeJoin_keys ascendingX ascendingY⟩
  intro pair member entry is
  have paired := (mem_mergeJoin_iff ascendingX ascendingY).mp member
  exact (paired.mem_either is).elim (wholesX entry) (wholesY entry)

theorem key_of_leads {pair other : Option TreeEntry × Option TreeEntry} {x y : TreeEntry}
    {path : List UInt8}
    (isX : either pair = some x) (isY : either other = some y) (wholeX : x.Whole) (wholeY : y.Whole)
    (leads : objects.Leads pair path) (leads' : objects.Leads other path)
    : x.key = y.key := by
  obtain ⟨-, x', isX', kindX⟩ := leads
  obtain ⟨-, y', isY', kindY⟩ := leads'
  obtain rfl := Option.some.inj (isX.symm.trans isX')
  obtain rfl := Option.some.inj (isY.symm.trans isY')
  rcases kindX with ⟨plainX, rfl⟩ | ⟨dirX, below, rfl, -⟩
  · have sameX := (key_eq_iff_of_not_mem wholeX.whole).mpr ⟨plainX, rfl⟩
    rcases kindY with ⟨plainY, same⟩ | ⟨dirY, below, same, -⟩
    · have sameY := (key_eq_iff_of_not_mem wholeX.whole).mpr ⟨plainY, same.symm⟩
      exact sameX.trans sameY.symm
    · have slash : (47 : UInt8) ∈ x.name := by
        rw [same]
        simp
      exact absurd slash wholeX.whole
  · have sameX : x.key = x.name ++ [47] := wholeX.key_eq_iff.mpr ⟨dirX, rfl⟩
    rcases kindY with ⟨plainY, same⟩ | ⟨dirY, below', same, -⟩
    · have slash : (47 : UInt8) ∈ y.name := by
        rw [← same]
        simp
      exact absurd slash wholeY.whole
    · obtain ⟨names, -⟩ := eq_of_append_slash wholeX.whole wholeY.whole same
      exact sameX.trans (wholeY.key_eq_iff.mpr ⟨dirY, names.symm⟩).symm

theorem Objects.Compared.mem_listed_iff {dir path : List UInt8} {depth : Nat}
    {pairs : List (Option TreeEntry × Option TreeEntry)} {touches : List Touch}
    (compared : objects.Compared dir depth pairs touches)
    : path ∈ touches.flatMap Touch.listed
      ↔ ∃ rest, path = dir ++ rest ∧ ∃ pair ∈ pairs, objects.Leads pair rest := by
  induction compared generalizing path with
  | done => simp
  | @same dir depth pair rest touches same later ih =>
      rw [ih]
      refine exists_congr fun path' => and_congr_right fun _ => ?_
      rw [List.exists_mem_cons_iff]
      exact (or_iff_right fun leads => same leads.1).symm
  | @file dir depth pair rest touches entry changed is plain later ih =>
      have own (path' : List UInt8) : objects.Leads pair path' ↔ path' = entry.name := by
        constructor
        · rintro ⟨-, entry', is', ⟨-, rfl⟩ | ⟨isTree, -⟩⟩
          · rw [Option.some.inj (is.symm.trans is')]
          · rw [Option.some.inj (is.symm.trans is')] at plain
            exact absurd isTree plain
        · rintro rfl
          exact ⟨changed, entry, is, Or.inl ⟨plain, rfl⟩⟩
      rw [List.flatMap_cons, List.mem_append, ih]
      simp only [List.exists_mem_cons_iff, own, Touch.listed, List.mem_singleton, and_or_left, exists_or,
        exists_eq_right]
  | @tree dir depth pair rest touches entry xs ys inner changed is isTree readX readY inside later ih ih' =>
      have own (path' : List UInt8) : objects.Leads pair path'
          ↔ ∃ below, path' = entry.name ++ 47 :: below
            ∧ ∃ pair' ∈ mergeJoin TreeEntry.key xs ys, objects.Leads pair' below := by
        constructor
        · rintro ⟨-, entry', is', ⟨plain, -⟩ | ⟨-, below, rfl, differs⟩⟩
          · rw [← Option.some.inj (is.symm.trans is')] at plain
            exact absurd isTree plain
          · rw [← Option.some.inj (is.symm.trans is')]
            exact ⟨below, rfl, (differs_iff_leads readX readY).mp differs⟩
        · rintro ⟨below, rfl, leads⟩
          exact ⟨changed, entry, is, Or.inr ⟨isTree, below, rfl, (differs_iff_leads readX readY).mpr leads⟩⟩
      rw [List.flatMap_cons, Touch.listed, List.nil_append, List.flatMap_append, List.mem_append, ih, ih']
      simp only [List.exists_mem_cons_iff, own, and_or_left, exists_or]
      refine or_congr_left ?_
      constructor
      · rintro ⟨below, rfl, leads⟩
        exact ⟨entry.name ++ 47 :: below, by simp, below, rfl, leads⟩
      · rintro ⟨path', rfl, below, rfl, leads⟩
        exact ⟨below, by simp, leads⟩

theorem Objects.Compared.listed_nodup {dir : List UInt8} {depth : Nat}
    {pairs : List (Option TreeEntry × Option TreeEntry)} {touches : List Touch}
    (compared : objects.Compared dir depth pairs touches) (apart : Apart pairs)
    : (touches.flatMap Touch.listed).Nodup := by
  -- What a pair leads to is listed of none after it.
  have fresh {dir path : List UInt8} {depth : Nat} {pair : Option TreeEntry × Option TreeEntry}
      {rest : List (Option TreeEntry × Option TreeEntry)} {touches : List Touch} {entry : TreeEntry}
      (apart : Apart (pair :: rest)) (later : objects.Compared dir depth rest touches)
      (is : either pair = some entry) (leads : objects.Leads pair path)
      : dir ++ path ∉ touches.flatMap Touch.listed := by
    intro listed
    obtain ⟨path', same, other, member, leads'⟩ := later.mem_listed_iff.mp listed
    obtain rfl := List.append_cancel_left same
    obtain ⟨entry', is', -⟩ := leads'.2
    have differ := (List.pairwise_cons.mp apart.keys).1 other member entry entry' is is'
    exact differ (key_of_leads is is' (apart.whole pair List.mem_cons_self entry is)
      (apart.whole other (List.mem_cons_of_mem _ member) entry' is') leads leads')
  have past {pair : Option TreeEntry × Option TreeEntry}
      {rest : List (Option TreeEntry × Option TreeEntry)} (apart : Apart (pair :: rest)) : Apart rest :=
    ⟨fun other member => apart.whole other (List.mem_cons_of_mem _ member), apart.keys.of_cons⟩
  induction compared with
  | done => exact List.nodup_nil
  | same same later ih => exact ih (past apart)
  | @file dir depth pair rest touches entry changed is plain later ih =>
      rw [List.flatMap_cons, Touch.listed, List.singleton_append, List.nodup_cons]
      exact ⟨fresh apart later is ⟨changed, entry, is, Or.inl ⟨plain, rfl⟩⟩, ih (past apart)⟩
  | @tree dir depth pair rest touches entry xs ys inner changed is isTree readX readY inside later ih ih' =>
      rw [List.flatMap_cons, Touch.listed, List.nil_append, List.flatMap_append]
      refine List.nodup_append.mpr ⟨ih (apart_mergeJoin readX readY), ih' (past apart), ?_⟩
      rintro path listed _ listed' rfl
      obtain ⟨below, rfl, leads⟩ := inside.mem_listed_iff.mp listed
      have leads' : objects.Leads pair (entry.name ++ 47 :: below) :=
        ⟨changed, entry, is, Or.inr ⟨isTree, below, rfl, (differs_iff_leads readX readY).mpr leads⟩⟩
      have unlisted := fresh apart later is leads'
      rw [show dir ++ (entry.name ++ 47 :: below) = dir ++ entry.name ++ [47] ++ below by simp] at unlisted
      exact unlisted listed'

-- What a comparison needs

/-- (Needed from_ to_ x y depth) says that comparing two trees needs (x) and (y), so deep in them: each
pair of trees of one name that differ.
-/
inductive Objects.Needed (objects : Objects) (from_ to_ : Oid) : Option Oid → Option Oid → Nat → Prop
  | roots
    : Needed objects from_ to_ (some from_) (some to_) 0
  | inside {x y depth xs ys pair entry} (outer : Needed objects from_ to_ x y depth)
    (readX : objects.entriesOf x = .ok xs) (readY : objects.entriesOf y = .ok ys)
    (member : pair ∈ mergeJoin TreeEntry.key xs ys) (changed : Changed pair)
    (is : either pair = some entry) (isTree : entry.mode = TREE)
    : Needed objects from_ to_ (pair.1.map TreeEntry.id) (pair.2.map TreeEntry.id) (depth + 1)

/-- Whether a tree is there, and is one that git writes. -/
def Objects.Readable (objects : Objects) (tree : Option Oid) : Prop :=
  ∃ entries, objects.entriesOf tree = .ok entries

def Objects.Takes (objects : Objects) (from_ to_ : Oid) (touches : List Touch) : Prop :=
  ∃ xs ys, objects.entriesOf (some from_) = .ok xs ∧ objects.entriesOf (some to_) = .ok ys
    ∧ objects.Compared [] 1 (mergeJoin TreeEntry.key xs ys) touches

theorem Objects.Compared.unique {dir : List UInt8} {depth : Nat} {touches touches' : List Touch}
    {pairs : List (Option TreeEntry × Option TreeEntry)}
    (compared : objects.Compared dir depth pairs touches) (compared' : objects.Compared dir depth pairs touches')
    : touches = touches' := by
  induction compared generalizing touches' with
  | done =>
      cases compared'
      rfl
  | same same later ih =>
      cases compared' with
      | same _ later' => exact ih later'
      | file changed | tree changed => exact absurd changed same
  | file changed is plain later ih =>
      cases compared' with
      | same same => exact absurd changed same
      | file _ is' _ later' =>
          obtain rfl := Option.some.inj (is.symm.trans is')
          rw [ih later']
      | tree _ is' isTree =>
          rw [Option.some.inj (is.symm.trans is')] at plain
          exact absurd isTree plain
  | tree changed is isTree readX readY inside later ih ih' =>
      cases compared' with
      | same same => exact absurd changed same
      | file _ is' plain =>
          rw [← Option.some.inj (is.symm.trans is')] at plain
          exact absurd isTree plain
      | tree _ is' _ readX' readY' inside' later' =>
          obtain rfl := Option.some.inj (is.symm.trans is')
          obtain rfl := Except.ok.inj (readX.symm.trans readX')
          obtain rfl := Except.ok.inj (readY.symm.trans readY')
          rw [ih inside', ih' later']

theorem Objects.Takes.unique {from_ to_ : Oid} {touches touches' : List Touch}
    (takes : objects.Takes from_ to_ touches) (takes' : objects.Takes from_ to_ touches')
    : touches = touches' := by
  obtain ⟨xs, ys, readX, readY, compared⟩ := takes
  obtain ⟨xs', ys', readX', readY', compared'⟩ := takes'
  obtain rfl := Except.ok.inj (readX.symm.trans readX')
  obtain rfl := Except.ok.inj (readY.symm.trans readY')
  exact compared.unique compared'

/-- What is taken down below a pair of trees is part of what is taken down of their directory, as is the
pair.
-/
theorem Objects.Compared.inside_of_mem {dir : List UInt8} {depth : Nat} {touches : List Touch}
    {pairs : List (Option TreeEntry × Option TreeEntry)} {pair : Option TreeEntry × Option TreeEntry}
    {entry : TreeEntry} (compared : objects.Compared dir depth pairs touches) (member : pair ∈ pairs)
    (changed : Changed pair) (is : either pair = some entry) (isTree : entry.mode = TREE)
    : (∃ touch ∈ touches, touch.depth = depth)
      ∧ ∃ xs ys dir' inner,
        objects.entriesOf (pair.1.map TreeEntry.id) = .ok xs
          ∧ objects.entriesOf (pair.2.map TreeEntry.id) = .ok ys
          ∧ objects.Compared dir' (depth + 1) (mergeJoin TreeEntry.key xs ys) inner
          ∧ inner ⊆ touches := by
  induction compared with
  | done => cases member
  | same same later ih =>
      rcases List.mem_cons.mp member with rfl | member
      · exact absurd changed same
      · exact ih member
  | @file dir depth first rest touches entry' changed' is' plain later ih =>
      rcases List.mem_cons.mp member with rfl | member
      · rw [Option.some.inj (is'.symm.trans is)] at plain
        exact absurd isTree plain
      · obtain ⟨⟨touch, within, deep⟩, xs, ys, dir', inner, readX, readY, compared, part⟩ := ih member
        exact ⟨⟨touch, List.mem_cons_of_mem _ within, deep⟩, xs, ys, dir', inner, readX, readY, compared,
          List.subset_cons_of_subset _ part⟩
  | @tree dir depth first rest touches entry' xs ys inner changed' is' isTree' readX readY inside later ih ih' =>
      refine ⟨⟨_, List.mem_cons_self, rfl⟩, ?_⟩
      rcases List.mem_cons.mp member with rfl | member
      · exact ⟨xs, ys, _, inner, readX, readY, inside,
          List.subset_cons_of_subset _ (List.subset_append_left _ _)⟩
      · obtain ⟨-, xs, ys, dir', inner', readX, readY, compared, part⟩ := ih' member
        exact ⟨xs, ys, dir', inner', readX, readY, compared,
          List.subset_cons_of_subset _ (List.subset_append_of_subset_right _ part)⟩

/-- What a comparison needs is compared, where something is taken down, and is as deep as something that
is.
-/
theorem Objects.Takes.compared_of_needed {from_ to_ : Oid} {touches : List Touch} {x y : Option Oid}
    {depth : Nat} (takes : objects.Takes from_ to_ touches) (needed : objects.Needed from_ to_ x y depth)
    : (depth = 0 ∨ ∃ touch ∈ touches, touch.depth = depth)
      ∧ ∃ xs ys dir inner,
        objects.entriesOf x = .ok xs ∧ objects.entriesOf y = .ok ys
          ∧ objects.Compared dir (depth + 1) (mergeJoin TreeEntry.key xs ys) inner ∧ inner ⊆ touches := by
  induction needed with
  | roots =>
      obtain ⟨xs, ys, readX, readY, compared⟩ := takes
      exact ⟨Or.inl rfl, xs, ys, _, touches, readX, readY, compared, List.Subset.refl _⟩
  | inside outer readX readY member changed is isTree ih =>
      obtain ⟨-, xs, ys, dir, inner, readX', readY', compared, part⟩ := ih
      obtain rfl := Except.ok.inj (readX.symm.trans readX')
      obtain rfl := Except.ok.inj (readY.symm.trans readY')
      obtain ⟨⟨touch, within, deep⟩, xs', ys', dir', inner', readX, readY, compared, part'⟩ :=
        compared.inside_of_mem member changed is isTree
      exact ⟨Or.inr ⟨touch, part within, deep⟩, xs', ys', dir', inner', readX, readY, compared,
        List.Subset.trans part' part⟩

theorem Objects.Takes.readable {from_ to_ : Oid} {touches : List Touch} {x y : Option Oid} {depth : Nat}
    (takes : objects.Takes from_ to_ touches) (needed : objects.Needed from_ to_ x y depth)
    : objects.Readable x ∧ objects.Readable y := by
  obtain ⟨-, xs, ys, -, -, readX, readY, -⟩ := takes.compared_of_needed needed
  exact ⟨⟨xs, readX⟩, ⟨ys, readY⟩⟩

theorem Objects.Takes.shallow {from_ to_ : Oid} {touches : List Touch} {x y : Option Oid}
    {depth limit : Nat} (takes : objects.Takes from_ to_ touches)
    (within : ∀ touch ∈ touches, touch.depth ≤ limit) (needed : objects.Needed from_ to_ x y depth)
    : depth ≤ limit := by
  rcases (takes.compared_of_needed needed).1 with rfl | ⟨touch, member, rfl⟩
  · exact Nat.zero_le _
  · exact within touch member

theorem exists_compared_of_inside {dir : List UInt8} {depth : Nat}
    {pairs : List (Option TreeEntry × Option TreeEntry)} (some_ : (none, none) ∉ pairs)
    (inside
      : ∀ pair ∈ pairs, Changed pair → ∀ entry, either pair = some entry → entry.mode = TREE →
          ∀ dir, ∃ xs ys inner,
            objects.entriesOf (pair.1.map TreeEntry.id) = .ok xs
              ∧ objects.entriesOf (pair.2.map TreeEntry.id) = .ok ys
              ∧ objects.Compared dir (depth + 1) (mergeJoin TreeEntry.key xs ys) inner)
    : ∃ touches, objects.Compared dir depth pairs touches := by
  induction pairs with
  | nil => exact ⟨[], .done⟩
  | cons pair rest ih =>
      obtain ⟨here, inside⟩ := List.forall_mem_cons.mp inside
      obtain ⟨touches, later⟩ := ih (fun member => some_ (List.mem_cons_of_mem _ member)) inside
      by_cases changed : Changed pair
      · have there : ∃ entry, either pair = some entry := by
          cases is : either pair with
          | some entry => exact ⟨entry, rfl⟩
          | none =>
              obtain ⟨left, right⟩ := Option.or_eq_none_iff.mp is
              have both : pair = (none, none) := Prod.ext left right
              exact absurd (both ▸ List.mem_cons_self) some_
        obtain ⟨entry, is⟩ := there
        by_cases isTree : entry.mode = TREE
        · obtain ⟨xs, ys, inner, readX, readY, compared⟩ := here changed entry is isTree (dir ++ entry.name ++ [47])
          exact ⟨_, .tree changed is isTree readX readY compared later⟩
        · exact ⟨_, .file changed is isTree later⟩
      · exact ⟨touches, .same changed later⟩

theorem exists_compared_of_needed {from_ to_ : Oid} {limit : Nat}
    (readable
      : ∀ x y depth, objects.Needed from_ to_ x y depth → objects.Readable x ∧ objects.Readable y)
    (shallow : ∀ x y depth, objects.Needed from_ to_ x y depth → depth ≤ limit)
    (left : Nat) {x y : Option Oid} {depth : Nat} (needed : objects.Needed from_ to_ x y depth)
    (enough : limit < depth + left) (dir : List UInt8)
    : ∃ xs ys touches,
        objects.entriesOf x = .ok xs ∧ objects.entriesOf y = .ok ys
          ∧ objects.Compared dir (depth + 1) (mergeJoin TreeEntry.key xs ys) touches := by
  induction left generalizing x y depth dir with
  | zero =>
      have within := shallow x y depth needed
      omega
  | succ left ih =>
      obtain ⟨⟨xs, readX⟩, ys, readY⟩ := readable x y depth needed
      obtain ⟨-, ascendingX⟩ := Objects.ordered_of_entriesOf readX
      obtain ⟨-, ascendingY⟩ := Objects.ordered_of_entriesOf readY
      have some_ : (none, none) ∉ mergeJoin TreeEntry.key xs ys := by
        intro member
        exact ((mem_mergeJoin_iff ascendingX ascendingY).mp member).1 rfl
      have inside : ∀ pair ∈ mergeJoin TreeEntry.key xs ys, Changed pair → ∀ entry, either pair = some entry →
          entry.mode = TREE → ∀ dir, ∃ xs ys inner,
            objects.entriesOf (pair.1.map TreeEntry.id) = .ok xs
              ∧ objects.entriesOf (pair.2.map TreeEntry.id) = .ok ys
              ∧ objects.Compared dir (depth + 1 + 1) (mergeJoin TreeEntry.key xs ys) inner := by
        intro pair member changed entry is isTree dir
        exact ih (.inside needed readX readY member changed is isTree) (by omega) dir
      obtain ⟨touches, compared⟩ := @exists_compared_of_inside objects dir (depth + 1) _ some_ inside
      exact ⟨xs, ys, touches, readX, readY, compared⟩

-- Two commits

/-- Whether what comparing two trees takes down is within the limits. -/
structure Objects.Within (objects : Objects) (limits : Limits) (from_ to_ : Oid) (touches : List Touch)
    : Prop where
  paths : touches.length ≤ limits.paths
  walked
    : objects.size (some from_) + objects.size (some to_) + (touches.map Touch.opened).sum ≤ limits.walked
  listed : ((touches.flatMap Touch.listed).map List.length).sum ≤ limits.listed
  pathLen : ∀ touch ∈ touches, touch.path.length ≤ limits.pathLen
  treeDepth : ∀ touch ∈ touches, touch.depth ≤ limits.treeDepth

def Texts (touches : List Touch) : Prop :=
  ∀ touch ∈ touches, isUtf8 touch.name = true

theorem comes_of_start {limits : Limits} {from_ to_ : Oid} {pair : Pair} {walked : Nat}
    {listed : List (List UInt8)}
    (opened : openPair objects limits 0 (some from_) (some to_) 0 = .ok (pair, walked))
    : Walk.Comes objects limits ⟨[pair], [], walked, [], 0, 0, 0⟩ listed
      ↔ ∃ touches, objects.Takes from_ to_ touches ∧ objects.Within limits from_ to_ touches ∧ Texts touches
        ∧ listed = touches.flatMap Touch.listed := by
  obtain ⟨-, dir, total, within⟩ := openPair_whole opened
  rw [Nat.zero_add] at total
  have start : prefixOf [] pair.dir = [] := by
    rw [dir]
    rfl
  constructor
  · rintro ⟨touches, before, fits, rfl⟩
    cases before with
    | @within _ pairs _ inner outerTouches reads compared outer =>
        cases outer
        obtain ⟨xs, ys, readX, readY, rfl⟩ := reads_of_openPair opened reads
        rw [start] at compared
        rw [List.append_nil] at fits ⊢
        have count := fits.touched
        have bytes := fits.walked
        have paths := fits.listedBytes
        rw [Nat.zero_add] at count paths
        rw [total] at bytes
        exact ⟨inner, ⟨xs, ys, readX, readY, compared⟩,
          ⟨count, bytes, paths, fits.pathLen, fits.treeDepth⟩, fits.utf8, rfl⟩
  · rintro ⟨touches, ⟨xs, ys, readX, readY, compared⟩, ⟨count, bytes, paths, pathLen, treeDepth⟩, texts, rfl⟩
    rw [total] at within
    have fewer : 0 + (objects.size (some from_) + objects.size (some to_)) ≤ limits.walked := by
      rwa [Nat.zero_add]
    obtain ⟨pair', opened', reads⟩ := exists_openPair 0 readX readY fewer
    obtain ⟨rfl, -⟩ := Prod.mk.inj (Except.ok.inj (opened.symm.trans opened'))
    refine ⟨touches ++ [], .within reads ?_ .done, ?_, ?_⟩
    · rw [start]
      exact compared
    · rw [List.append_nil]
      refine ⟨?_, ?_, ?_, texts, pathLen, treeDepth⟩
      · rwa [Nat.zero_add]
      · rwa [total]
      · rwa [Nat.zero_add]
    · rw [List.append_nil, List.nil_append]

theorem valid_of_start {limits : Limits} {from_ to_ : Oid} {pair : Pair} {walked : Nat}
    (opened : openPair objects limits 0 (some from_) (some to_) 0 = .ok (pair, walked))
    : Walk.Valid limits ⟨[pair], [], walked, [], 0, 0, 0⟩ := by
  obtain ⟨whole, dir, -, within⟩ := openPair_whole opened
  refine ⟨?_, ⟨le_of_eq dir, trivial⟩, Nat.zero_le _, within, Nat.zero_le _⟩
  intro other member
  rw [List.mem_singleton.mp member]
  exact whole

/-- The trees of two commits. -/
structure Objects.Between (objects : Objects) (from_ to_ : String) (x y : Oid) : Prop where
  from_ : objects.treeOf from_ = .ok x
  to_ : objects.treeOf to_ = .ok y

theorem changed_spec {limits : Limits} {from_ to_ : String} {paths : List (List UInt8)}
    (ok : objects.changed limits from_ to_ = .ok paths)
    : ∃ x y touches, objects.Between from_ to_ x y ∧ objects.Takes x y touches ∧ Texts touches
      ∧ paths = sortPaths (touches.flatMap Touch.listed) := by
  obtain ⟨x, fromIs, ok⟩ := exists_of_bind_eq_ok ok
  obtain ⟨y, toIs, ok⟩ := exists_of_bind_eq_ok ok
  obtain ⟨⟨pair, walked⟩, opened, ok⟩ := exists_of_bind_eq_ok ok
  obtain ⟨listed, ran, ok⟩ := exists_of_bind_eq_ok ok
  have comes := Walk.comes_of_run (valid_of_start opened) ran
  obtain ⟨touches, takes, -, texts, rfl⟩ := (comes_of_start opened).mp comes
  exact ⟨x, y, touches, ⟨fromIs, toIs⟩, takes, texts, (Except.ok.inj ok).symm⟩

theorem changed_of_takes {limits : Limits} {from_ to_ : String} {x y : Oid} {touches : List Touch}
    (between : objects.Between from_ to_ x y) (takes : objects.Takes x y touches)
    (within : objects.Within limits x y touches) (texts : Texts touches)
    (inTime : ∀ steps, limits.late steps = false)
    : objects.changed limits from_ to_ = .ok (sortPaths (touches.flatMap Touch.listed)) := by
  obtain ⟨xs, ys, readX, readY, compared⟩ := takes
  have fewer : 0 + (objects.size (some x) + objects.size (some y)) ≤ limits.walked := by
    rw [Nat.zero_add]
    exact (Nat.le_add_right _ _).trans within.walked
  obtain ⟨pair, opened, -⟩ := exists_openPair 0 readX readY fewer
  have comes := (comes_of_start opened).mpr ⟨touches, ⟨xs, ys, readX, readY, compared⟩, within, texts, rfl⟩
  have ran := Walk.run_of_comes (valid_of_start opened) inTime comes
  rw [Objects.changed, between.from_]
  change (objects.treeOf to_ >>= _) = _
  rw [between.to_]
  change (openPair objects limits 0 (some x) (some y) 0 >>= _) = _
  rw [opened]
  change (Walk.run objects limits _ >>= _) = _
  rw [ran]
  rfl

theorem sortPaths_spec {paths : List (List UInt8)} (nodup : paths.Nodup)
    : (sortPaths paths).Pairwise (fun path other => compare path other = .lt)
      ∧ ∀ path, path ∈ sortPaths paths ↔ path ∈ paths := by
  have perm := List.mergeSort_perm paths (fun path other => (compare path other).isLE)
  have sorted : (sortPaths paths).Pairwise (fun path other => (compare path other).isLE = true) := by
    refine List.pairwise_mergeSort ?_ ?_ paths
    · intro a b c first second
      exact Std.TransCmp.isLE_trans first second
    · intro a b
      rw [Bool.or_eq_true]
      cases compared : compare a b with
      | lt | eq => exact Or.inl rfl
      | gt =>
          rw [Std.OrientedCmp.lt_of_gt compared]
          exact Or.inr rfl
  refine ⟨?_, fun path => perm.mem_iff⟩
  refine (sorted.and (perm.nodup_iff.mpr nodup)).imp ?_
  rintro path other ⟨lower, differ⟩
  cases compared : compare path other with
  | lt => rfl
  | eq => exact absurd (Std.LawfulEqOrd.eq_of_compare compared) differ
  | gt =>
      rw [compared] at lower
      cases lower

/-- Whether two commits have trees, and comparing these needs no tree that is missing or malformed. -/
def Objects.Present (objects : Objects) (from_ to_ : String) : Prop :=
  ∃ x y, objects.Between from_ to_ x y
    ∧ ∀ a b depth, objects.Needed x y a b depth → objects.Readable a ∧ objects.Readable b

/-- Whether comparing two commits is within the limits: no tree that it needs is too deep, and what it
takes down is not too much.
-/
def Objects.WithinLimits (objects : Objects) (limits : Limits) (from_ to_ : String) : Prop :=
  ∀ x y, objects.Between from_ to_ x y →
    (∀ a b depth, objects.Needed x y a b depth → depth ≤ limits.treeDepth)
      ∧ ∀ touches, objects.Takes x y touches → objects.Within limits x y touches

/-- Whether what differs between two commits has texts as names. -/
def Objects.DiffersInTexts (objects : Objects) (from_ to_ : String) : Prop :=
  ∀ x y, objects.Between from_ to_ x y → ∀ touches, objects.Takes x y touches → Texts touches

-- A pack of two commits

def idOf (number : UInt8) : Oid :=
  number :: List.replicate 31 0

def entryOf (mode : String) (name : List UInt8) (number : UInt8) : List UInt8 :=
  utf8 mode ++ [32] ++ name ++ [0] ++ (idOf number).take 20

def commitOf (number : String) : String :=
  number ++ String.ofList (List.replicate 38 '0')

/-- A pack of two commits, the trees of these, and a tree below them. -/
def packOf (old new below : List UInt8) : Objects where
  format := .sha1
  byId id :=
    [(idOf 1, (Kind.commit, utf8 ("tree " ++ commitOf "03"))),
      (idOf 2, (Kind.commit, utf8 ("tree " ++ commitOf "04"))),
      (idOf 3, (Kind.tree, old)), (idOf 4, (Kind.tree, new)), (idOf 5, (Kind.tree, below))].lookup id
  digest _ data := data.take 32

/-- Limits with room for a few paths, and no time to be done by. -/
def roomy : Limits :=
  ⟨10, 1000, 10, 100, 1000, fun _ => false⟩

/-- Trees with a file of a name that is no text, and without it. -/
def unspelled : Objects :=
  packOf [] (entryOf "100644" [0xFF] 9) []

/-- Trees with a file, and with a directory of its name in its place. -/
def replaced : Objects :=
  packOf (entryOf "100644" [97] 9) (entryOf "40000" [97] 5) (entryOf "100644" [98] 9)

def cutShort : Objects :=
  packOf [] [49] []

theorem Objects.Between.unique {from_ to_ : String} {x y x' y' : Oid}
    (between : objects.Between from_ to_ x y) (between' : objects.Between from_ to_ x' y')
    : x' = x ∧ y' = y :=
  ⟨Except.ok.inj (between'.from_.symm.trans between.from_), Except.ok.inj (between'.to_.symm.trans between.to_)⟩

theorem withinLimits_of_takes {limits : Limits} {from_ to_ : String} {x y : Oid} {touches : List Touch}
    (between : objects.Between from_ to_ x y) (takes : objects.Takes x y touches)
    (within : objects.Within limits x y touches)
    : objects.Present from_ to_ ∧ objects.WithinLimits limits from_ to_ := by
  refine ⟨⟨x, y, between, fun a b depth needed => takes.readable needed⟩, ?_⟩
  intro x' y' between'
  obtain ⟨rfl, rfl⟩ := between.unique between'
  refine ⟨fun a b depth needed => takes.shallow within.treeDepth needed, ?_⟩
  intro touches' takes'
  obtain rfl := takes.unique takes'
  exact within

theorem unspelled_takes
    : unspelled.Between (commitOf "01") (commitOf "02") (idOf 3) (idOf 4)
      ∧ unspelled.Takes (idOf 3) (idOf 4) [.file [0xFF] [0xFF]]
      ∧ unspelled.Within roomy (idOf 3) (idOf 4) [.file [0xFF] [0xFF]] := by
  have read : unspelled.entriesOf (some (idOf 3)) = .ok [] := by decide +kernel
  have read' : unspelled.entriesOf (some (idOf 4)) = .ok [⟨[0xFF], 0o100644, idOf 9⟩] := by decide +kernel
  refine ⟨⟨by decide +kernel, by decide +kernel⟩, ⟨_, _, read, read', ?_⟩, ?_⟩
  · rw [mergeJoin]
    exact @Objects.Compared.file _ [] 1 _ _ _ ⟨[0xFF], 0o100644, idOf 9⟩ (by simp [Changed]) rfl (by decide) .done
  · exact ⟨by decide, by decide +kernel, by decide, by decide, by decide⟩

theorem replaced_takes
    : replaced.Between (commitOf "01") (commitOf "02") (idOf 3) (idOf 4)
      ∧ replaced.Takes (idOf 3) (idOf 4) [.file [97] [97], .tree [97] [97] 1 29, .file [98] [97, 47, 98]]
      ∧ replaced.Within roomy (idOf 3) (idOf 4)
        [.file [97] [97], .tree [97] [97] 1 29, .file [98] [97, 47, 98]] := by
  have read : replaced.entriesOf (some (idOf 3)) = .ok [⟨[97], 0o100644, idOf 9⟩] := by decide +kernel
  have read' : replaced.entriesOf (some (idOf 4)) = .ok [⟨[97], TREE, idOf 5⟩] := by decide +kernel
  have below : replaced.entriesOf (some (idOf 5)) = .ok [⟨[98], 0o100644, idOf 9⟩] := by decide +kernel
  refine ⟨⟨by decide +kernel, by decide +kernel⟩, ⟨_, _, read, read', ?_⟩, ?_⟩
  · rw [mergeJoin_lower (by decide), mergeJoin]
    have inside : replaced.Compared [97, 47] 2 (mergeJoin TreeEntry.key [] [⟨[98], 0o100644, idOf 9⟩])
        [.file [98] [97, 47, 98]] := by
      rw [mergeJoin]
      exact @Objects.Compared.file _ [97, 47] 2 _ _ _ ⟨[98], 0o100644, idOf 9⟩ (by simp [Changed]) rfl
        (by decide) .done
    have dir := @Objects.Compared.tree replaced [] 1 (none, some ⟨[97], TREE, idOf 5⟩) _ _ ⟨[97], TREE, idOf 5⟩ _ _
      _ (by simp [Changed]) rfl rfl (Objects.entriesOf_none _) below inside .done
    have bytes : replaced.size (Option.map TreeEntry.id none)
        + replaced.size (Option.map TreeEntry.id (some ⟨[97], TREE, idOf 5⟩)) = 29 := by decide +kernel
    rw [bytes] at dir
    exact @Objects.Compared.file _ [] 1 _ _ _ ⟨[97], 0o100644, idOf 9⟩ (by simp [Changed]) rfl (by decide) dir
  · exact ⟨by decide, by decide +kernel, by decide, by decide, by decide⟩

-- The difference of two commits

/-- Comparing two commits returns nothing but the paths where their trees, flattened, differ, in order and
each once; it is refused where a tree that it needs is missing or malformed, and not where none is, what
differs has texts as names, and limits and time are kept.
-/
theorem changed_is_the_difference (objects : Objects) (limits : Limits) (from_ to_ : String)
    : (∀ paths, objects.changed limits from_ to_ = .ok paths →
        ∃ x y, objects.Between from_ to_ x y
          ∧ paths.Pairwise (fun path other => compare path other = .lt)
          ∧ ∀ path, path ∈ paths ↔ objects.Differs (some x) (some y) path)
      ∧ (¬objects.Present from_ to_ → ∃ problem, objects.changed limits from_ to_ = .error problem)
      ∧ (objects.Present from_ to_ → objects.WithinLimits limits from_ to_ →
          objects.DiffersInTexts from_ to_ → (∀ steps, limits.late steps = false) →
          ∃ paths, objects.changed limits from_ to_ = .ok paths) := by
  refine ⟨?_, ?_, ?_⟩
  · intro paths ok
    obtain ⟨x, y, touches, between, ⟨xs, ys, readX, readY, compared⟩, -, rfl⟩ := changed_spec ok
    have sorted := sortPaths_spec (compared.listed_nodup (apart_mergeJoin readX readY))
    refine ⟨x, y, between, sorted.1, ?_⟩
    intro path
    rw [sorted.2, compared.mem_listed_iff, differs_iff_leads readX readY]
    simp
  · intro absent
    cases ran : objects.changed limits from_ to_ with
    | error problem => exact ⟨problem, rfl⟩
    | ok paths =>
        obtain ⟨x, y, touches, between, takes, -, -⟩ := changed_spec ran
        exact absurd ⟨x, y, between, fun a b depth needed => takes.readable needed⟩ absent
  · rintro ⟨x, y, between, readable⟩ within texts inTime
    obtain ⟨shallow, fits⟩ := within x y between
    obtain ⟨xs, ys, touches, readX, readY, compared⟩ :=
      exists_compared_of_needed readable shallow (limits.treeDepth + 1) .roots (by omega) []
    have takes : objects.Takes x y touches := ⟨xs, ys, readX, readY, compared⟩
    exact ⟨_, changed_of_takes between takes (fits touches takes) (texts x y between touches takes) inTime⟩

/-- A file replaced by a directory of its name is listed, with what is in the directory. -/
theorem changed_is_the_difference_replaced
    : (∃ paths, replaced.changed roomy (commitOf "01") (commitOf "02") = .ok paths
        ∧ ∃ x y, replaced.Between (commitOf "01") (commitOf "02") x y
          ∧ ∀ path, path ∈ paths ↔ replaced.Differs (some x) (some y) path)
      ∧ ∃ problem, cutShort.changed roomy (commitOf "01") (commitOf "02") = .error problem := by
  obtain ⟨between, takes, within⟩ := replaced_takes
  obtain ⟨present, limits⟩ := withinLimits_of_takes between takes within
  have texts : replaced.DiffersInTexts (commitOf "01") (commitOf "02") := by
    intro x y between' touches' takes'
    obtain ⟨rfl, rfl⟩ := between.unique between'
    obtain rfl := takes.unique takes'
    unfold Texts
    decide +kernel
  obtain ⟨exact_, -, complete⟩ := changed_is_the_difference replaced roomy (commitOf "01") (commitOf "02")
  obtain ⟨paths, ok⟩ := complete present limits texts (fun _ => rfl)
  obtain ⟨x, y, between, -, same⟩ := exact_ paths ok
  have absent : ¬cutShort.Present (commitOf "01") (commitOf "02") := by
    rintro ⟨x, y, between, readable⟩
    have own : cutShort.Between (commitOf "01") (commitOf "02") (idOf 3) (idOf 4) :=
      ⟨by decide +kernel, by decide +kernel⟩
    obtain ⟨rfl, rfl⟩ := own.unique between
    obtain ⟨-, entries, read⟩ := readable _ _ 0 .roots
    have refused : (cutShort.entriesOf (some (idOf 4))).toOption = none := by decide +kernel
    rw [read] at refused
    cases refused
  have refused := (changed_is_the_difference cutShort roomy (commitOf "01") (commitOf "02")).2.1 absent
  exact ⟨⟨paths, ok, x, y, between, same⟩, refused⟩

/-- Two commits whose trees are all there and within the limits are refused where a file has a name that
is no text.
-/
theorem changed_refuses_names
    : unspelled.Present (commitOf "01") (commitOf "02")
      ∧ unspelled.WithinLimits roomy (commitOf "01") (commitOf "02")
      ∧ (∀ steps, roomy.late steps = false)
      ∧ unspelled.Differs (some (idOf 3)) (some (idOf 4)) [0xFF]
      ∧ ∃ problem, unspelled.changed roomy (commitOf "01") (commitOf "02") = .error problem := by
  obtain ⟨between, takes, within⟩ := unspelled_takes
  obtain ⟨present, limits⟩ := withinLimits_of_takes between takes within
  refine ⟨present, limits, fun _ => rfl, ?_, ?_⟩
  · obtain ⟨xs, ys, readX, readY, compared⟩ := takes
    rw [differs_iff_leads readX readY]
    obtain ⟨rest, same, leads⟩ := compared.mem_listed_iff.mp List.mem_cons_self
    rw [List.nil_append] at same
    rw [same]
    exact leads
  · cases ran : unspelled.changed roomy (commitOf "01") (commitOf "02") with
    | error problem => exact ⟨problem, rfl⟩
    | ok paths =>
        obtain ⟨x, y, touches, between', takes', texts, -⟩ := changed_spec ran
        obtain ⟨rfl, rfl⟩ := between.unique between'
        obtain rfl := takes.unique takes'
        have text := texts _ List.mem_cons_self
        have own : isUtf8 [0xFF] = false := by decide +kernel
        exact absurd (own.symm.trans text) (by decide)

end Dagron.CiGit
