import Mathlib.Data.List.Basic
import Mathlib.Order.Basic

/-! Two lists in the order of their keys read side by side: for each key of either, what the one and
the other have under it.
-/

namespace Dagron.Library

variable {Entry Key : Type}

/-- (mergeJoin key xs ys) reads two lists side by side, the lower key first. -/
def mergeJoin [Ord Key] (key : Entry → Key) : List Entry → List Entry → List (Option Entry × Option Entry)
  | [], ys => ys.map (fun y => (none, some y))
  | x :: xs, [] => (x :: xs).map (fun x => (some x, none))
  | x :: xs, y :: ys =>
      match compare (key x) (key y) with
      | .lt => (some x, none) :: mergeJoin key xs (y :: ys)
      | .gt => (none, some y) :: mergeJoin key (x :: xs) ys
      | .eq => (some x, some y) :: mergeJoin key xs ys
  termination_by xs ys => xs.length + ys.length

/-- Whether entries stand in the order of their keys, no key twice. -/
def Ascending [Ord Key] (key : Entry → Key) (entries : List Entry) : Prop :=
  entries.Pairwise (fun x y => compare (key x) (key y) = .lt)

def under [DecidableEq Key] (key : Entry → Key) (wanted : Key) (entries : List Entry) : Option Entry :=
  entries.find? (fun entry => key entry = wanted)

/-- The entry of a pair, of the one list where it has one. -/
def either (pair : Option Entry × Option Entry) : Option Entry :=
  pair.1.or pair.2

theorem mergeJoin_nil [Ord Key] (key : Entry → Key) (xs : List Entry)
    : mergeJoin key xs [] = xs.map (fun x => (some x, none)) := by
  cases xs with
  | nil => simp only [mergeJoin, List.map_nil]
  | cons x xs => simp only [mergeJoin]

theorem mergeJoin_lower [Ord Key] {key : Entry → Key} {x : Entry} {xs ys : List Entry}
    (lower : ∀ y ∈ ys.head?, compare (key x) (key y) = .lt)
    : mergeJoin key (x :: xs) ys = (some x, none) :: mergeJoin key xs ys := by
  cases ys with
  | nil => rw [mergeJoin_nil, mergeJoin_nil, List.map_cons]
  | cons y ys => rw [mergeJoin, lower y rfl]

theorem mergeJoin_higher [Ord Key] {key : Entry → Key} {y : Entry} {xs ys : List Entry}
    (higher : ∀ x ∈ xs.head?, compare (key x) (key y) = .gt)
    : mergeJoin key xs (y :: ys) = (none, some y) :: mergeJoin key xs ys := by
  cases xs with
  | nil => rw [mergeJoin, mergeJoin, List.map_cons]
  | cons x xs => rw [mergeJoin, higher x rfl]

theorem mergeJoin_equal [Ord Key] {key : Entry → Key} {x y : Entry} {xs ys : List Entry}
    (equal : compare (key x) (key y) = .eq)
    : mergeJoin key (x :: xs) (y :: ys) = (some x, some y) :: mergeJoin key xs ys := by
  rw [mergeJoin, equal]

variable [DecidableEq Key] {key : Entry → Key}

theorem under_cons (wanted : Key) (entry : Entry) (entries : List Entry)
    : under key wanted (entry :: entries)
      = if key entry = wanted then some entry else under key wanted entries := by
  simp only [under, List.find?_cons]
  split <;> rename_i same
  · rw [if_pos (of_decide_eq_true same)]
  · rw [if_neg (of_decide_eq_false same)]

theorem under_eq_none_iff {wanted : Key} {entries : List Entry}
    : under key wanted entries = none ↔ ∀ entry ∈ entries, key entry ≠ wanted := by
  simp [under]

theorem mem_of_under {wanted : Key} {entries : List Entry} {entry : Entry}
    (found : under key wanted entries = some entry)
    : entry ∈ entries ∧ key entry = wanted := by
  have same := List.find?_some found
  exact ⟨List.mem_of_find?_eq_some found, of_decide_eq_true same⟩

/-- What two lists have under keys, where they have something. -/
def Paired (key : Entry → Key) (xs ys : List Entry) (pair : Option Entry × Option Entry) : Prop :=
  pair ≠ (none, none) ∧ ∃ wanted, pair = (under key wanted xs, under key wanted ys)

theorem paired_cons_iff {wanted : Key} {xs ys xs' ys' : List Entry} {first : Option Entry × Option Entry}
    {pair : Option Entry × Option Entry}
    (some_ : first ≠ (none, none))
    (here : (under key wanted xs, under key wanted ys) = first)
    (past : under key wanted xs' = none ∧ under key wanted ys' = none)
    (rest : ∀ other, other ≠ wanted →
      under key other xs = under key other xs' ∧ under key other ys = under key other ys')
    : Paired key xs ys pair ↔ pair = first ∨ Paired key xs' ys' pair := by
  constructor
  · rintro ⟨found, other, rfl⟩
    by_cases same : other = wanted
    · subst same
      exact Or.inl here
    · obtain ⟨left, right⟩ := rest other same
      rw [left, right] at found ⊢
      exact Or.inr ⟨found, other, rfl⟩
  · rintro (rfl | ⟨found, other, rfl⟩)
    · exact ⟨some_, wanted, here.symm⟩
    · have same : other ≠ wanted := by
        rintro rfl
        rw [past.1, past.2] at found
        exact found rfl
      obtain ⟨left, right⟩ := rest other same
      exact ⟨found, other, by rw [left, right]⟩

theorem Paired.either_under {xs ys : List Entry} {pair : Option Entry × Option Entry} {entry : Entry}
    (paired : Paired key xs ys pair) (is : either pair = some entry)
    : pair = (under key (key entry) xs, under key (key entry) ys) := by
  obtain ⟨-, wanted, rfl⟩ := paired
  have same : key entry = wanted := by
    cases left : under key wanted xs with
    | some x =>
        rw [either, left] at is
        exact (Option.some.inj is) ▸ (mem_of_under left).2
    | none =>
        rw [either, left] at is
        exact (mem_of_under is).2
  rw [same]

theorem exists_either {xs ys : List Entry} {wanted : Key}
    (some_ : (under key wanted xs, under key wanted ys) ≠ (none, none))
    : ∃ entry, either (under key wanted xs, under key wanted ys) = some entry ∧ key entry = wanted := by
  cases left : under key wanted xs with
  | some x => exact ⟨x, rfl, (mem_of_under left).2⟩
  | none =>
      cases right : under key wanted ys with
      | some y => exact ⟨y, rfl, (mem_of_under right).2⟩
      | none => exact absurd (by rw [left, right]) some_

theorem Paired.mem_either {xs ys : List Entry} {pair : Option Entry × Option Entry} {entry : Entry}
    (paired : Paired key xs ys pair) (is : either pair = some entry)
    : entry ∈ xs ∨ entry ∈ ys := by
  rw [paired.either_under is] at is
  cases left : under key (key entry) xs with
  | some x =>
      rw [either, left] at is
      obtain rfl := Option.some.inj is
      exact Or.inl (mem_of_under left).1
  | none =>
      rw [either, left] at is
      exact Or.inr (mem_of_under is).1

theorem not_lower_self {Key : Type} [Ord Key] [Std.ReflOrd Key] (wanted : Key)
    : compare wanted wanted ≠ .lt := by
  rw [Std.ReflOrd.compare_self]
  decide

variable [Ord Key]

theorem Ascending.under_key [Std.ReflOrd Key] {entries : List Entry} {entry : Entry} (ascending : Ascending key entries)
    (member : entry ∈ entries)
    : under key (key entry) entries = some entry := by
  induction entries with
  | nil => cases member
  | cons first rest ih =>
      obtain ⟨below, ascending⟩ := List.pairwise_cons.mp ascending
      rw [under_cons]
      rcases List.mem_cons.mp member with rfl | member
      · rw [if_pos rfl]
      · have other : key first ≠ key entry := by
          intro same
          have lower := below entry member
          rw [same] at lower
          exact not_lower_self _ lower
        rw [if_neg other]
        exact ih ascending member

theorem Ascending.under_tail [Std.ReflOrd Key] {entries : List Entry} {entry : Entry}
    (ascending : Ascending key (entry :: entries))
    : under key (key entry) entries = none := by
  rw [under_eq_none_iff]
  obtain ⟨below, -⟩ := List.pairwise_cons.mp ascending
  intro other member same
  have refuted := below other member
  rw [same] at refuted
  exact not_lower_self _ refuted

theorem Ascending.under_lower [Std.TransOrd Key] {entries : List Entry} {entry : Entry} {wanted : Key}
    (ascending : Ascending key (entry :: entries)) (lower : compare wanted (key entry) = .lt)
    : under key wanted (entry :: entries) = none := by
  rw [under_eq_none_iff]
  obtain ⟨below, -⟩ := List.pairwise_cons.mp ascending
  have above : ∀ other ∈ entry :: entries, compare wanted (key other) = .lt := by
    intro other member
    rcases List.mem_cons.mp member with rfl | member
    · exact lower
    · exact Std.TransCmp.lt_trans lower (below other member)
  intro other member same
  have refuted := above other member
  rw [same] at refuted
  exact not_lower_self _ refuted

variable [Std.TransOrd Key] [Std.LawfulEqOrd Key]

theorem mem_mergeJoin_iff {xs ys : List Entry} {pair : Option Entry × Option Entry}
    (left : Ascending key xs) (right : Ascending key ys)
    : pair ∈ mergeJoin key xs ys ↔ Paired key xs ys pair := by
  fun_induction mergeJoin key xs ys with
  | case1 ys =>
      rw [List.mem_map]
      constructor
      · rintro ⟨y, member, rfl⟩
        exact ⟨by simp, key y, by rw [right.under_key member]; rfl⟩
      · rintro ⟨found, wanted, rfl⟩
        cases is : under key wanted ys with
        | none => exact absurd (by rw [is]; rfl) found
        | some y => exact ⟨y, (mem_of_under is).1, rfl⟩
  | case2 x xs =>
      rw [List.mem_map]
      constructor
      · rintro ⟨x', member, rfl⟩
        exact ⟨by simp, key x', by rw [left.under_key member]; rfl⟩
      · rintro ⟨found, wanted, rfl⟩
        cases is : under key wanted (x :: xs) with
        | none => exact absurd (by rw [is]; rfl) found
        | some x' => exact ⟨x', (mem_of_under is).1, rfl⟩
  | case3 x xs y ys lower ih =>
      rw [List.mem_cons, ih left.of_cons right]
      refine (paired_cons_iff (by simp) ?_ ⟨left.under_tail, right.under_lower lower⟩ ?_).symm
      · rw [under_cons, if_pos rfl, right.under_lower lower]
      · intro other same
        exact ⟨by rw [under_cons, if_neg (Ne.symm same)], rfl⟩
  | case4 x xs y ys higher ih =>
      have lower : compare (key y) (key x) = .lt := Std.OrientedCmp.lt_of_gt higher
      rw [List.mem_cons, ih left right.of_cons]
      refine (paired_cons_iff (by simp) ?_ ⟨left.under_lower lower, right.under_tail⟩ ?_).symm
      · rw [@under_cons _ _ _ key _ y, if_pos rfl, left.under_lower lower]
      · intro other same
        exact ⟨rfl, by rw [under_cons, if_neg (Ne.symm same)]⟩
  | case5 x xs y ys equal ih =>
      have same : key x = key y := Std.LawfulEqCmp.eq_of_compare equal
      rw [List.mem_cons, ih left.of_cons right.of_cons]
      refine (paired_cons_iff (by simp) ?_ ⟨left.under_tail, by rw [same]; exact right.under_tail⟩ ?_).symm
      · rw [under_cons, if_pos rfl, under_cons, if_pos same.symm]
      · intro other differs
        exact ⟨by rw [under_cons, if_neg (Ne.symm differs)],
          by rw [under_cons, if_neg (fun eq => differs (eq.symm.trans same.symm))]⟩

theorem mergeJoin_keys {xs ys : List Entry} (left : Ascending key xs) (right : Ascending key ys)
    : (mergeJoin key xs ys).Pairwise (fun pair other =>
        ∀ x y, either pair = some x → either other = some y → key x ≠ key y) := by
  have apart {wanted : Key} {xs ys : List Entry} (left : Ascending key xs) (right : Ascending key ys)
      (goneLeft : under key wanted xs = none) (goneRight : under key wanted ys = none)
      {other : Option Entry × Option Entry} (member : other ∈ mergeJoin key xs ys) (y : Entry)
      (is : either other = some y)
      : wanted ≠ key y := by
    rintro rfl
    have paired := (mem_mergeJoin_iff left right).mp member
    have both := paired.either_under is
    rw [goneLeft, goneRight] at both
    exact paired.1 both
  have alone {pairs : List Entry} {side : Entry → Option Entry × Option Entry}
      (own : ∀ x, either (side x) = some x) (ascending : Ascending key pairs)
      : (pairs.map side).Pairwise (fun pair other =>
          ∀ x y, either pair = some x → either other = some y → key x ≠ key y) := by
    rw [List.pairwise_map]
    refine ascending.imp ?_
    intro x' y' lower x y first second same
    obtain rfl := Option.some.inj ((own x').symm.trans first)
    obtain rfl := Option.some.inj ((own y').symm.trans second)
    rw [same] at lower
    exact not_lower_self _ lower
  fun_induction mergeJoin key xs ys with
  | case1 ys => exact alone (fun x => rfl) right
  | case2 x xs => exact alone (fun x => rfl) left
  | case3 x xs y ys lower ih =>
      refine List.pairwise_cons.mpr ⟨?_, ih left.of_cons right⟩
      intro other member x' y' first second
      obtain rfl := Option.some.inj first
      exact apart left.of_cons right left.under_tail (right.under_lower lower) member y' second
  | case4 x xs y ys higher ih =>
      have lower : compare (key y) (key x) = .lt := Std.OrientedCmp.lt_of_gt higher
      refine List.pairwise_cons.mpr ⟨?_, ih left right.of_cons⟩
      intro other member x' y' first second
      obtain rfl := Option.some.inj first
      exact apart left right.of_cons (left.under_lower lower) right.under_tail member y' second
  | case5 x xs y ys equal ih =>
      have same : key x = key y := Std.LawfulEqCmp.eq_of_compare equal
      refine List.pairwise_cons.mpr ⟨?_, ih left.of_cons right.of_cons⟩
      intro other member x' y' first second
      obtain rfl := Option.some.inj first
      have gone : under key (key x) ys = none := by
        rw [same]
        exact right.under_tail
      exact apart left.of_cons right.of_cons left.under_tail gone member y' second

end Dagron.Library
