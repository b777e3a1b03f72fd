import Dagron.CiExpr.Matrix
import Mathlib.Data.List.Flatten

/-! A matrix's rows are the combinations of its axes that nothing excludes, each with what fits it of what is
included, and then what fits none. A row's label is its own.
-/

namespace Dagron.CiExpr

open Dagron.Library

-- What a matrix comes to

section Expansion

variable {Num : Type}

/-- Every combination of the axes, in the order in which they are written. -/
def combinations : List (Text × List (Json Num)) → List (Row Num)
  | [] => [[]]
  | (axis, values) :: axes =>
      values.flatMap fun value => (combinations axes).map ((axis, value) :: ·)

variable [BEq (Json Num)]

def Has (row : Row Num) (entry : Text × Json Num) : Prop :=
  ∃ own ∈ row, own.1 = entry.1 ∧ (own.2 == entry.2) = true

instance (row : Row Num) (entry : Text × Json Num) : Decidable (Has row entry) :=
  inferInstanceAs (Decidable (∃ own ∈ row, _))

/-- An entry of `exclude` matches a row that has all of it. -/
def Matched (row wanted : Row Num) : Prop :=
  ∀ entry ∈ wanted, Has row entry

instance (row wanted : Row Num) : Decidable (Matched row wanted) :=
  inferInstanceAs (Decidable (∀ entry ∈ wanted, _))

/-- An entry of `include` agrees with a row that has all of the axes that the entry names. -/
def Agrees (axes : List Text) (row extra : Row Num) : Prop :=
  ∀ entry ∈ extra, entry.1 ∈ axes → Has row entry

instance (axes : List Text) (row extra : Row Num) : Decidable (Agrees axes row extra) :=
  inferInstanceAs (Decidable (∀ entry ∈ extra, _))

namespace Matrix

variable (matrix : Matrix Num)

def names : List Text :=
  matrix.axes.map Prod.fst

/-- The combinations that nothing excludes; without an axis there is none. -/
def originals : List (Row Num) :=
  if matrix.axes = [] then []
  else (combinations matrix.axes).filter fun row => ∀ wanted ∈ matrix.exclude, ¬ Matched row wanted

/-- A combination with every entry of `include` that agrees with it, in order. -/
def extended (row : Row Num) : Row Num :=
  (matrix.include_.filter (Agrees matrix.names row ·)).foldl (addKeys matrix.names) row

def expansion : List (Row Num) :=
  matrix.originals.map matrix.extended
    ++ matrix.include_.filter fun extra => ∀ row ∈ matrix.originals, ¬ Agrees matrix.names row extra

/-- The bound is kept while the axes are combined one by one, and at the end. -/
structure Within (most : Nat) : Prop where
  axes : ∀ count, 0 < count → count ≤ matrix.axes.length →
    (combinations (matrix.axes.take count)).length ≤ most
  all : matrix.expansion.length ≤ most

end Matrix

-- The rows

theorem rowMatches_iff {row wanted : Row Num}
    : rowMatches row wanted = true ↔ Matched row wanted := by
  simp [rowMatches, Matched, Has]

theorem rowAgrees_iff {axes : List Text} {extra was : Row Num}
    : rowAgrees axes extra was = true ↔ Agrees axes was extra := by
  simp [rowAgrees, Agrees, Has, imp_iff_not_or]

omit [BEq (Json Num)] in
theorem flatMap_withAxis (rows : List (Row Num)) (axis : Text) (values : List (Json Num))
    (axes : List (Text × List (Json Num)))
    : ((withAxis rows axis values).flatMap fun row => (combinations axes).map (row ++ ·))
      = rows.flatMap fun row => (combinations ((axis, values) :: axes)).map (row ++ ·) := by
  unfold withAxis
  simp only [combinations, List.flatMap_assoc, List.flatMap_map, List.map_flatMap, List.map_map]
  simp [Function.comp_def]

omit [BEq (Json Num)] in
theorem withAxes_eq_ok_iff {most : Nat} {axes : List (Text × List (Json Num))}
    {rows result : List (Row Num)}
    : withAxes most axes rows = .ok result
      ↔ (∀ count, 0 < count → count ≤ axes.length →
          (rows.flatMap fun row => (combinations (axes.take count)).map (row ++ ·)).length ≤ most)
        ∧ result = rows.flatMap fun row => (combinations axes).map (row ++ ·) := by
  induction axes generalizing rows with
  | nil =>
      simp only [withAxes, Except.ok.injEq, combinations, List.map_cons, List.map_nil,
        List.append_nil, List.flatMap_singleton', List.length_nil]
      constructor
      · rintro rfl
        exact ⟨fun count positive le => by omega, rfl⟩
      · exact fun ⟨_, same⟩ => same.symm
  | cons head axes ih =>
      obtain ⟨axis, values⟩ := head
      have first : (rows.flatMap fun row =>
          (combinations (((axis, values) :: axes).take 1)).map (row ++ ·))
          = withAxis rows axis values := by
        rw [List.take_succ_cons, List.take_zero, ← flatMap_withAxis]
        simp [combinations]
      rw [withAxes]
      by_cases exceeds : (withAxis rows axis values).length > most
      · rw [if_pos exceeds]
        constructor
        · intro absurd_
          cases absurd_
        · rintro ⟨bound, _⟩
          have le := bound 1 Nat.one_pos (by simp)
          rw [first] at le
          omega
      · rw [if_neg exceeds, ih, flatMap_withAxis]
        refine and_congr_left fun _ => ⟨fun bound count positive le => ?_, fun bound count positive le => ?_⟩
        · obtain ⟨less, rfl⟩ : ∃ less, count = less + 1 := ⟨count - 1, by omega⟩
          rcases Nat.eq_zero_or_pos less with rfl | more
          · rw [Nat.zero_add, first]
            omega
          · rw [List.take_succ_cons, ← flatMap_withAxis]
            exact bound less more (Nat.le_of_succ_le_succ le)
        · rw [flatMap_withAxis, ← List.take_succ_cons]
          exact bound (count + 1) (Nat.succ_pos count) (Nat.succ_le_succ le)

theorem fit_eq (axes : List Text) (extra : Row Num) {original : List (Row Num)}
    (filled : ∀ was ∈ original, was ≠ []) (grown : Row Num → Row Num) (added : List (Row Num))
    : fit axes extra (original.map grown ++ added) original
      = ((original.map fun was =>
            if Agrees axes was extra then addKeys axes (grown was) extra else grown was) ++ added,
          decide (∃ was ∈ original, Agrees axes was extra)) := by
  induction original with
  | nil => simp [fit]
  | cons was original ih =>
      have others := ih fun row member => filled row (List.mem_cons_of_mem _ member)
      have nonempty : was.isEmpty = false := by simpa using filled was List.mem_cons_self
      simp only [List.map_cons, List.cons_append, fit, others, nonempty, Bool.not_false,
        Bool.and_true, rowAgrees_iff]
      by_cases agrees : Agrees axes was extra
      · simp [agrees]
      · simp [agrees]

/-- What is included, entry by entry: each goes to the rows that it agrees with, and else behind them. -/
theorem foldl_addExtra (axes : List Text) {original : List (Row Num)}
    (filled : ∀ was ∈ original, was ≠ []) (entries : List (Row Num)) (grown : Row Num → Row Num)
    (added : List (Row Num))
    : entries.foldl (addExtra axes original) (original.map grown ++ added)
      = (original.map fun was =>
            (entries.filter (Agrees axes was ·)).foldl (addKeys axes) (grown was))
          ++ (added ++ entries.filter fun extra => ∀ was ∈ original, ¬ Agrees axes was extra) := by
  induction entries generalizing grown added with
  | nil => simp
  | cons extra entries ih =>
      have grows : (fun was => ((extra :: entries).filter (Agrees axes was ·)).foldl
            (addKeys axes) (grown was))
          = fun was => (entries.filter (Agrees axes was ·)).foldl (addKeys axes)
              (if Agrees axes was extra then addKeys axes (grown was) extra else grown was) := by
        funext was
        by_cases agrees : Agrees axes was extra <;> simp [agrees]
      rw [grows, List.foldl_cons, addExtra, fit_eq axes extra filled]
      by_cases fitted : ∃ was ∈ original, Agrees axes was extra
      · have unfit : ¬ ∀ was ∈ original, ¬ Agrees axes was extra := by
          simpa using fitted
        simp only [fitted, decide_true, if_true]
        rw [ih, List.filter_cons_of_neg (by simpa using fitted)]
      · have unfit : ∀ was ∈ original, ¬ Agrees axes was extra := by
          simpa using fitted
        simp only [fitted, decide_false, Bool.false_eq_true, if_false]
        rw [List.append_assoc, ih, List.filter_cons_of_pos (by simpa using unfit)]
        simp

theorem Matrix.originals_ne_nil (matrix : Matrix Num)
    : ∀ was ∈ matrix.originals, was ≠ [] := by
  intro was member
  unfold originals at member
  split at member
  · cases member
  · rename_i axes
    have combined := List.mem_of_mem_filter member
    cases haxes : matrix.axes with
    | nil => exact absurd haxes axes
    | cons head rest =>
        rw [haxes, combinations] at combined
        obtain ⟨value, _, more⟩ := List.mem_flatMap.mp combined
        obtain ⟨row, _, rfl⟩ := List.mem_map.mp more
        exact List.cons_ne_nil _ _

theorem Matrix.filter_eq_originals (matrix : Matrix Num)
    : ((if matrix.axes.isEmpty then [] else combinations matrix.axes).filter fun row =>
        !matrix.exclude.any fun wanted => rowMatches row wanted) = matrix.originals := by
  have kept : (fun row : Row Num => !matrix.exclude.any fun wanted => rowMatches row wanted)
      = fun row => decide (∀ wanted ∈ matrix.exclude, ¬ Matched row wanted) := by
    funext row
    rw [Bool.eq_iff_iff]
    simp [← rowMatches_iff]
  unfold originals
  rw [kept]
  by_cases axes : matrix.axes = []
  · rw [if_pos axes, axes]
    rfl
  · rw [if_neg axes, if_neg (by simpa using axes)]

theorem Matrix.foldl_eq_expansion (matrix : Matrix Num)
    : matrix.include_.foldl (addExtra matrix.names matrix.originals) matrix.originals
      = matrix.expansion := by
  have all := foldl_addExtra matrix.names matrix.originals_ne_nil matrix.include_ id []
  rw [List.map_id, List.append_nil, List.nil_append] at all
  exact all

/-- A matrix's rows are what it comes to, where the bound is kept, and there are none where it is not. -/
theorem Matrix.rows_eq_ok_iff (matrix : Matrix Num) (most : Nat) (result : List (Row Num))
    : matrix.rows most = .ok result ↔ matrix.Within most ∧ result = matrix.expansion := by
  have counted : ∀ combined, withAxes most matrix.axes [[]] = .ok combined
      ↔ (∀ count, 0 < count → count ≤ matrix.axes.length →
          (combinations (matrix.axes.take count)).length ≤ most)
        ∧ combined = combinations matrix.axes := by
    intro combined
    rw [withAxes_eq_ok_iff]
    simp
  unfold Matrix.rows
  cases combined : withAxes most matrix.axes [[]] with
  | error many =>
      constructor
      · intro absurd_
        cases absurd_
      · rintro ⟨within, _⟩
        rw [(counted _).mpr ⟨within.axes, rfl⟩] at combined
        cases combined
  | ok rows =>
      obtain ⟨bound, rfl⟩ := (counted rows).mp combined
      have rest : (do
            let rows ← (.ok (combinations matrix.axes) : Except Nat (List (Row Num)))
            let rows := if matrix.axes.isEmpty then [] else rows
            let original := rows.filter fun row =>
              !matrix.exclude.any fun wanted => rowMatches row wanted
            let axes := matrix.axes.map Prod.fst
            let rows := matrix.include_.foldl (addExtra axes original) original
            if rows.length > most then .error rows.length else .ok rows)
          = if matrix.expansion.length > most then .error matrix.expansion.length
            else .ok matrix.expansion := by
        rw [← matrix.foldl_eq_expansion, ← matrix.filter_eq_originals]
        rfl
      rw [rest]
      by_cases exceeds : matrix.expansion.length > most
      · rw [if_pos exceeds]
        constructor
        · intro absurd_
          cases absurd_
        · exact fun ⟨within, _⟩ => absurd within.all (Nat.not_le.mpr exceeds)
      · rw [if_neg exceeds, Except.ok.injEq]
        exact ⟨fun same => ⟨⟨bound, Nat.not_lt.mp exceeds⟩, same.symm⟩, fun ⟨_, same⟩ => same.symm⟩

-- What becomes of a key

def entriesOf (row : Row Num) (key : Text) : Row Num :=
  row.filter fun entry => entry.1 = key

omit [BEq (Json Num)] in
theorem entriesOf_append (row more : Row Num) (key : Text)
    : entriesOf (row ++ more) key = entriesOf row key ++ entriesOf more key :=
  List.filter_append ..

omit [BEq (Json Num)] in
theorem entriesOf_addKey (axes : List Text) (row : Row Num) (entry : Text × Json Num) (key : Text)
    : entriesOf (addKey axes row entry) key
      = if entry.1 = key ∧ key ∉ axes then [entry] else entriesOf row key := by
  unfold addKey
  by_cases axis : entry.1 ∈ axes
  · rw [if_pos axis, if_neg]
    rintro ⟨rfl, other⟩
    exact other axis
  · rw [if_neg axis, entriesOf_append]
    unfold entriesOf
    by_cases same : entry.1 = key
    · subst same
      rw [if_pos ⟨rfl, axis⟩, List.filter_filter, List.filter_eq_nil_iff.mpr (by simp),
        List.nil_append, List.filter_cons_of_pos (by simp), List.filter_nil]
    · rw [if_neg fun ⟨same', _⟩ => same same', List.filter_filter,
        List.filter_cons_of_neg (by simpa using same), List.filter_nil, List.append_nil]
      refine List.filter_congr fun own _ => ?_
      by_cases own' : own.1 = key
      · simp [own', Ne.symm same]
      · simp [own']

omit [BEq (Json Num)] in
/-- What is included changes no axis of a row, and of another key there is what was included last. -/
theorem entriesOf_foldl (axes : List Text) (row entries : Row Num) (key : Text)
    : entriesOf (entries.foldl (addKey axes) row) key
      = if key ∈ axes then entriesOf row key
        else ((entriesOf entries key).getLast?.map fun last => [last]).getD (entriesOf row key) := by
  induction entries using List.reverseRecOn with
  | nil => simp [entriesOf]
  | append_singleton entries entry ih =>
      rw [List.foldl_append, List.foldl_cons, List.foldl_nil, entriesOf_addKey, ih, entriesOf_append]
      by_cases axis : key ∈ axes
      · simp [axis]
      · by_cases same : entry.1 = key
        · simp [axis, same, entriesOf]
        · simp [axis, same, entriesOf]

omit [BEq (Json Num)] in
theorem names_of_mem_combinations {axes : List (Text × List (Json Num))} {row : Row Num}
    (member : row ∈ combinations axes)
    : row.map Prod.fst = axes.map Prod.fst := by
  induction axes generalizing row with
  | nil =>
      rw [combinations, List.mem_singleton] at member
      rw [member]
      rfl
  | cons head axes ih =>
      rw [combinations] at member
      obtain ⟨value, _, more⟩ := List.mem_flatMap.mp member
      obtain ⟨rest, hrest, rfl⟩ := List.mem_map.mp more
      rw [List.map_cons, List.map_cons, ih hrest]

theorem Matrix.names_of_mem_originals {matrix : Matrix Num} {row : Row Num}
    (original : row ∈ matrix.originals)
    : row.map Prod.fst = matrix.names := by
  unfold originals at original
  split at original
  · cases original
  · exact names_of_mem_combinations (List.mem_of_mem_filter original)

/-- Of an axis an extended row has what the combination had, and of another key the last entry that what
agrees with the combination has of it.
-/
theorem Matrix.entriesOf_extended {matrix : Matrix Num} {row : Row Num}
    (original : row ∈ matrix.originals) (key : Text)
    : entriesOf (matrix.extended row) key
      = if key ∈ matrix.names then entriesOf row key
        else
          (entriesOf (matrix.include_.filter (Agrees matrix.names row ·)).flatten
            key).getLast?.toList := by
  have flat : matrix.extended row
      = (matrix.include_.filter (Agrees matrix.names row ·)).flatten.foldl
          (addKey matrix.names) row :=
    List.foldl_flatten.symm
  rw [flat, entriesOf_foldl]
  by_cases axis : key ∈ matrix.names
  · rw [if_pos axis, if_pos axis]
  · have none_ : entriesOf row key = [] := by
      refine List.filter_eq_nil_iff.mpr fun entry member same => axis ?_
      rw [← names_of_mem_originals original, ← of_decide_eq_true same]
      exact List.mem_map_of_mem member
    rw [if_neg axis, if_neg axis, none_]
    cases (entriesOf _ key).getLast? <;> rfl

end Expansion

-- The labels

section Labels

variable {Num : Type} (toText : Json Num → Text)

def InLabel (char : Char) : Prop :=
  isLabelChar char = true ∨ char = '-'

theorem placeLabel_injective (index : Nat)
    : Function.Injective (placeLabel index) := by
  intro first second same
  cases first with
  | zero =>
      cases second with
      | zero => rfl
      | succ second =>
          have sizes := congrArg List.length same
          simp [placeLabel] at sizes
  | succ first =>
      cases second with
      | zero =>
          have sizes := congrArg List.length same
          simp [placeLabel] at sizes
      | succ second =>
          have tails := List.append_cancel_left same
          exact decimal_inj.mp (List.cons.inj tails).2

theorem inLabel_of_mem_decimal {number : Nat} {char : Char} (member : char ∈ decimal number)
    : InLabel char := by
  have digit := isDigit_of_mem_decimal member
  simp [InLabel, isLabelChar, Char.isAlphanum, digit]

theorem inLabel_of_mem_placeLabel {index again : Nat} {char : Char} (member : char ∈ placeLabel index again)
    : InLabel char := by
  cases again with
  | zero => exact inLabel_of_mem_decimal member
  | succ again =>
      rcases List.mem_append.mp member with place | rest
      · exact inLabel_of_mem_decimal place
      · rcases List.mem_cons.mp rest with rfl | number
        · exact Or.inr rfl
        · exact inLabel_of_mem_decimal number

theorem inLabel_of_mem_labelOf {row : Row Num} {char : Char} (member : char ∈ labelOf toText row)
    : InLabel char := by
  obtain ⟨read, _, rfl⟩ := List.mem_map.mp (List.mem_of_mem_take member)
  by_cases kept : isLabelChar read = true
  · rw [if_pos kept]
    exact Or.inl kept
  · rw [if_neg kept]
    exact Or.inr rfl

/-- The rows keep their places, and their labels are no two the same, none that was seen and of the right
characters.
-/
theorem labelledFrom_spec (seen : List Text) (index : Nat) (rows : List (Row Num))
    : (labelledFrom toText seen index rows).map Prod.snd = rows
      ∧ ((labelledFrom toText seen index rows).map Prod.fst).Nodup
      ∧ ∀ label ∈ (labelledFrom toText seen index rows).map Prod.fst,
          label ∉ seen ∧ ∀ char ∈ label, InLabel char := by
  induction rows generalizing seen index with
  | nil => exact ⟨rfl, List.nodup_nil, fun _ absurd_ => absurd absurd_ List.not_mem_nil⟩
  | cons row rows ih =>
      rw [labelledFrom]
      generalize hlabel : (if isBlank (labelOf toText row) || labelOf toText row ∈ seen
        then firstFree seen (placeLabel index) seen.length 0 else labelOf toText row) = label
      have own : label ∉ seen ∧ ∀ char ∈ label, InLabel char := by
        rw [← hlabel]
        split
        · obtain ⟨more, same, _⟩ := firstFree_eq seen (placeLabel index) seen.length 0
          refine ⟨firstFree_not_mem (placeLabel_injective index) (Nat.le_refl _) 0, ?_⟩
          rw [same]
          exact fun char => inLabel_of_mem_placeLabel
        · rename_i free
          simp only [Bool.or_eq_true, decide_eq_true_eq, not_or] at free
          exact ⟨free.2, fun char => inLabel_of_mem_labelOf toText⟩
      obtain ⟨kept, distinct, each⟩ := ih (label :: seen) (index + 1)
      refine ⟨congrArg (row :: ·) kept, List.nodup_cons.mpr ⟨?_, distinct⟩, ?_⟩
      · intro again
        exact (each label again).1 List.mem_cons_self
      · intro other member
        rcases List.mem_cons.mp member with rfl | member
        · exact own
        · obtain ⟨free, chars⟩ := each other member
          exact ⟨mt (List.mem_cons_of_mem label) free, chars⟩

-- A row's place may read as an earlier row's own value, and as a later one's.
example : ((labelled (fun _ => [])
      (["2", "a", "a", "3", "3", "2-1", "2"].map fun v =>
        ([(['v'], .string v.toList)] : Row Nat))).map Prod.fst)
    = ["2", "a", "2-1", "3", "4", "5", "6"].map String.toList := by
  decide +kernel

end Labels

/-- A matrix's rows, where the bound is kept, are the combinations of its axes that no entry of `exclude`
matches, each with every entry of `include` that agrees with it, which changes no axis of it, and then the
entries that agree with none; and the labels of rows are no two the same, of letters, digits, `_` and `-`.
-/
theorem matrix_expands {Num : Type} [BEq (Json Num)] (toText : Json Num → Text)
    : (∀ (matrix : Matrix Num) (most : Nat) (result : List (Row Num)),
        matrix.rows most = .ok result ↔ matrix.Within most ∧ result = matrix.expansion)
      ∧ (∀ (matrix : Matrix Num), ∀ row ∈ matrix.originals, ∀ key,
          entriesOf (matrix.extended row) key
            = if key ∈ matrix.names then entriesOf row key
              else
                (entriesOf (matrix.include_.filter (Agrees matrix.names row ·)).flatten
                  key).getLast?.toList)
      ∧ ∀ rows : List (Row Num),
          (labelled toText rows).map Prod.snd = rows
          ∧ ((labelled toText rows).map Prod.fst).Nodup
          ∧ ∀ label ∈ (labelled toText rows).map Prod.fst, ∀ char ∈ label, InLabel char := by
  refine ⟨Matrix.rows_eq_ok_iff, fun matrix row => Matrix.entriesOf_extended, fun rows => ?_⟩
  obtain ⟨kept, distinct, each⟩ := labelledFrom_spec toText [] 0 rows
  exact ⟨kept, distinct, fun label member => (each label member).2⟩

end Dagron.CiExpr
