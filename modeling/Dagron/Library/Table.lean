import Mathlib.Data.List.Basic
import Mathlib.Data.List.Nodup
import Mathlib.Data.List.Perm.Subperm

/-! Relational tables whose rows have distinct keys, with the statements a store runs on
them: lookup, selection, guarded update, insertion and deletion.
-/

namespace Dagron.Library

/-- A row type with the column, or columns, that identify a row. -/
class Keyed (Row : Type) (Key : outParam Type) where
  key
    : Row → Key

/-- A table carries the proof that its primary key is unique, so no statement can build one
with two rows of one key.
-/
structure Table (Row : Type) {Key : Type} [Keyed Row Key] where
  rows
    : List Row
  nodup
    : (rows.map Keyed.key).Nodup

namespace Table

variable {Row Key : Type} [Keyed Row Key]

/-- A table has a row when its row list does. -/
instance : Membership Row (Table Row) where
  mem table row := row ∈ table.rows

def empty : Table Row :=
  ⟨[], List.nodup_nil⟩

def get? [DecidableEq Key] (table : Table Row) (key : Key) : Option Row :=
  table.rows.find? (fun row => Keyed.key row = key)

/-- `SELECT`: the rows a condition admits, in row order. -/
def select (table : Table Row) (cond : Row → Prop) [DecidablePred cond] : List Row :=
  table.rows.filter (fun row => cond row)

/-- `SELECT COUNT(*)`: how many rows a condition admits. -/
def count (table : Table Row) (cond : Row → Prop) [DecidablePred cond] : Nat :=
  table.rows.countP (fun row => cond row)

/-- `UPDATE`: rewrites the rows a condition admits, which keep their keys. -/
def update (table : Table Row) (cond : Row → Prop) [DecidablePred cond]
    (set : Row → Row) (keeps : ∀ row, Keyed.key (set row) = Keyed.key row := by intros; rfl)
    : Table Row where
  rows := table.rows.map (fun row => if cond row then set row else row)
  nodup := by
    have same : (table.rows.map fun row => if cond row then set row else row).map Keyed.key
        = table.rows.map Keyed.key := by
      rw [List.map_map]
      apply List.map_congr_left
      intro row _
      by_cases hc : cond row <;> simp [hc, keeps row]
    rw [same]
    exact table.nodup

def delete (table : Table Row) (cond : Row → Prop) [DecidablePred cond] : Table Row where
  rows := table.rows.filter (fun row => ¬ cond row)
  nodup := (List.Sublist.map _ List.filter_sublist).nodup table.nodup

/-- `INSERT`: adds a row, and fails where the key is taken. -/
def insert [DecidableEq Key] (table : Table Row) (row : Row) : Option (Table Row) :=
  if fresh : Keyed.key row ∈ table.rows.map Keyed.key then none
  else some {
    rows := table.rows ++ [row]
    nodup := by
      rw [List.map_append, List.nodup_append]
      refine ⟨table.nodup, by simp, ?_⟩
      intro a ha b hb
      rw [List.map_singleton, List.mem_singleton] at hb
      rintro rfl
      exact fresh (hb ▸ ha)
  }

/-- `INSERT` of several rows in order, none of them where one key is taken. -/
def insertAll [DecidableEq Key] (table : Table Row) : List Row → Option (Table Row)
  | [] => some table
  | row :: rest => (table.insert row).bind (fun table => table.insertAll rest)

/-- `INSERT … ON CONFLICT DO NOTHING`: adds a row unless its key is taken. -/
def insertOrIgnore [DecidableEq Key] (table : Table Row) (row : Row) : Table Row :=
  (table.insert row).getD table

/-- `INSERT … ON CONFLICT DO UPDATE`: adds a row, or rewrites the row that has its key. -/
def upsert [DecidableEq Key] (table : Table Row) (row : Row) (set : Row → Row)
    (keeps : ∀ row, Keyed.key (set row) = Keyed.key row := by intros; rfl) : Table Row :=
  (table.insert row).getD (table.update (fun old => Keyed.key old = Keyed.key row) set keeps)

-- Rows

theorem mem_iff {table : Table Row} {row : Row}
    : row ∈ table ↔ row ∈ table.rows :=
  Iff.rfl

theorem eq_of_key_eq {table : Table Row} {first second : Row}
    (hf : first ∈ table) (hs : second ∈ table) (same : Keyed.key first = Keyed.key second)
    : first = second :=
  List.inj_on_of_nodup_map table.nodup hf hs same

@[simp]
theorem not_mem_empty (row : Row)
    : ¬ row ∈ (empty : Table Row) := by
  simp [mem_iff, empty]

@[simp]
theorem mem_select {table : Table Row} {cond : Row → Prop} [DecidablePred cond] {row : Row}
    : row ∈ table.select cond ↔ row ∈ table ∧ cond row := by
  simp [select, mem_iff]

theorem mem_update {table : Table Row} {cond : Row → Prop} [DecidablePred cond]
    {set : Row → Row} {keeps : ∀ row, Keyed.key (set row) = Keyed.key row} {row : Row}
    : row ∈ table.update cond set keeps
      ↔ ∃ old ∈ table, row = if cond old then set old else old := by
  simp only [mem_iff, update, List.mem_map, eq_comm]

theorem exists_key_of_mem_update {table : Table Row} {cond : Row → Prop} [DecidablePred cond]
    {set : Row → Row} (keeps : ∀ row, Keyed.key (set row) = Keyed.key row) {row : Row}
    (member : row ∈ table.update cond set keeps)
    : ∃ old ∈ table, Keyed.key old = Keyed.key row := by
  obtain ⟨old, present, rfl⟩ := mem_update.mp member
  refine ⟨old, present, ?_⟩
  split
  · exact (keeps old).symm
  · rfl

theorem mem_delete {table : Table Row} {cond : Row → Prop} [DecidablePred cond] {row : Row}
    : row ∈ table.delete cond ↔ row ∈ table ∧ ¬ cond row := by
  simp [mem_iff, delete]

section Counts

variable {table table' : Table Row} {cond cond' : Row → Prop} [DecidablePred cond]
  [DecidablePred cond']

theorem count_congr (same : ∀ row ∈ table, cond row ↔ cond' row)
    : table.count cond = table.count cond' := by
  refine List.countP_congr fun row member => ?_
  rw [decide_eq_true_iff, decide_eq_true_iff]
  exact same row member

theorem count_update {set : Row → Row} {keeps : ∀ row, Keyed.key (set row) = Keyed.key row}
    : (table.update cond set keeps).count cond'
      = table.count (fun row => cond' (if cond row then set row else row)) := by
  simp only [count, update, List.countP_map]
  rfl

theorem count_eq_length_keys
    : table.count cond = ((table.select cond).map Keyed.key).length := by
  rw [List.length_map, count, List.countP_eq_length_filter, select]

theorem nodup_keys (table : Table Row)
    : ((table.select cond).map Keyed.key).Nodup :=
  (List.Sublist.map _ List.filter_sublist).nodup table.nodup

theorem count_le_of_keys (within : ∀ row ∈ table', cond' row →
      ∃ old ∈ table, cond old ∧ Keyed.key old = Keyed.key row)
    : table'.count cond' ≤ table.count cond := by
  rw [count_eq_length_keys, count_eq_length_keys]
  refine (List.subperm_of_subset table'.nodup_keys ?_).length_le
  intro key among
  obtain ⟨row, selected, rfl⟩ := List.mem_map.mp among
  obtain ⟨present, met⟩ := mem_select.mp selected
  obtain ⟨old, there, was, same⟩ := within row present met
  exact List.mem_map.mpr ⟨old, mem_select.mpr ⟨there, was⟩, same⟩

theorem count_and_add_count_and_not
    : table.count (fun row => cond row ∧ cond' row) + table.count (fun row => cond row ∧ ¬ cond' row)
      = table.count cond := by
  simp only [count, List.countP_eq_countP_filter_add table.rows (fun row => cond row)
    (fun row => cond' row), List.countP_filter, Bool.decide_and, decide_not]

theorem count_le_length [DecidableEq Key] {keys : List Key}
    (listed : ∀ row ∈ table, cond row → Keyed.key row ∈ keys)
    : table.count cond ≤ keys.length := by
  rw [count_eq_length_keys]
  refine (List.subperm_of_subset table.nodup_keys ?_).length_le
  intro key among
  obtain ⟨row, selected, rfl⟩ := List.mem_map.mp among
  exact listed row (mem_select.mp selected).1 (mem_select.mp selected).2

theorem count_le_succ [DecidableEq Key] (key : Key)
    : table.count cond
      ≤ table.count (fun row => cond row ∧ ¬ Keyed.key row = key) + 1 := by
  have one : table.count (fun row => cond row ∧ Keyed.key row = key) ≤ 1 :=
    @count_le_length _ _ _ table _ _ _ [key] (fun row _ met => List.mem_singleton.mpr met.2)
  have split := @count_and_add_count_and_not _ _ _ table cond (fun row => Keyed.key row = key) _ _
  omega

theorem count_le_add {cond'' : Row → Prop} [DecidablePred cond'']
    (either : ∀ row ∈ table, cond row → cond' row ∨ cond'' row)
    : table.count cond ≤ table.count cond' + table.count cond'' := by
  have split := @count_and_add_count_and_not _ _ _ table cond cond' _ _
  have first : table.count (fun row => cond row ∧ cond' row) ≤ table.count cond' :=
    count_le_of_keys (fun row present met => ⟨row, present, met.2, rfl⟩)
  have second : table.count (fun row => cond row ∧ ¬ cond' row) ≤ table.count cond'' :=
    count_le_of_keys (fun row present met =>
      ⟨row, present, (either row present met.1).resolve_left met.2, rfl⟩)
  omega

end Counts

section Lookup

variable [DecidableEq Key]

theorem get?_eq_some_iff {table : Table Row} {key : Key} {row : Row}
    : table.get? key = some row ↔ row ∈ table ∧ Keyed.key row = key := by
  constructor
  · intro found
    exact ⟨List.mem_of_find?_eq_some found, by simpa using List.find?_some found⟩
  · rintro ⟨member, rfl⟩
    cases found : table.get? (Keyed.key row) with
    | none =>
        have absent := List.find?_eq_none.mp found row member
        simp at absent
    | some other =>
        have member' := List.mem_of_find?_eq_some found
        have same : Keyed.key other = Keyed.key row := by simpa using List.find?_some found
        rw [eq_of_key_eq member' member same]

theorem key_of_get? {table : Table Row} {key : Key} {row : Row} (found : table.get? key = some row)
    : Keyed.key row = key :=
  (get?_eq_some_iff.mp found).2

theorem mem_of_get? {table : Table Row} {key : Key} {row : Row} (found : table.get? key = some row)
    : row ∈ table :=
  (get?_eq_some_iff.mp found).1

theorem get?_of_mem {table : Table Row} {row : Row} (member : row ∈ table)
    : table.get? (Keyed.key row) = some row :=
  get?_eq_some_iff.mpr ⟨member, rfl⟩

theorem get?_eq_none_iff {table : Table Row} {key : Key}
    : table.get? key = none ↔ ∀ row ∈ table, Keyed.key row ≠ key := by
  simp [get?, mem_iff]

omit [DecidableEq Key] in
theorem update_none {table : Table Row} {cond : Row → Prop} [DecidablePred cond]
    {set : Row → Row} {keeps : ∀ row, Keyed.key (set row) = Keyed.key row}
    (unmet : ∀ row ∈ table, ¬ cond row)
    : table.update cond set keeps = table := by
  obtain ⟨rows, nodup⟩ := table
  have same : rows.map (fun row => if cond row then set row else row) = rows := by
    refine (List.map_congr_left ?_).trans (List.map_id _)
    intro row member
    exact if_neg (unmet row member)
  simp only [update, same]

theorem get?_update {table : Table Row} {cond : Row → Prop} [DecidablePred cond]
    {set : Row → Row} (keeps : ∀ row, Keyed.key (set row) = Keyed.key row) (key : Key)
    : (table.update cond set keeps).get? key
      = (table.get? key).map (fun row => if cond row then set row else row) := by
  have keyOf (row : Row) : Keyed.key (if cond row then set row else row) = Keyed.key row := by
    by_cases hc : cond row <;> simp [hc, keeps row]
  cases found : table.get? key with
  | none =>
      rw [Option.map_none, get?_eq_none_iff]
      intro row member
      obtain ⟨old, present, rfl⟩ := mem_update.mp member
      rw [keyOf]
      exact get?_eq_none_iff.mp found old present
  | some row =>
      rw [Option.map_some, get?_eq_some_iff]
      obtain ⟨member, rfl⟩ := get?_eq_some_iff.mp found
      exact ⟨mem_update.mpr ⟨row, member, rfl⟩, keyOf row⟩

theorem get?_delete {table : Table Row} {cond : Row → Prop} [DecidablePred cond] (key : Key)
    : (table.delete cond).get? key = (table.get? key).filter (fun row => ¬ cond row) := by
  cases found : table.get? key with
  | none =>
      rw [Option.filter_none, get?_eq_none_iff]
      intro row member
      exact get?_eq_none_iff.mp found row (mem_delete.mp member).1
  | some row =>
      obtain ⟨member, rfl⟩ := get?_eq_some_iff.mp found
      by_cases hc : cond row
      · rw [Option.filter_some, if_neg (by simpa using hc), get?_eq_none_iff]
        intro other present same
        obtain ⟨present, left⟩ := mem_delete.mp present
        exact left (eq_of_key_eq present member same ▸ hc)
      · rw [Option.filter_some, if_pos (by simpa using hc)]
        exact get?_of_mem (mem_delete.mpr ⟨member, hc⟩)

theorem rows_insert {table table' : Table Row} {row : Row} (done : table.insert row = some table')
    : table'.rows = table.rows ++ [row] := by
  unfold insert at done
  split at done
  · cases done
  · rw [← Option.some.inj done]

theorem count_insert {table table' : Table Row} {row : Row} (done : table.insert row = some table')
    {cond : Row → Prop} [DecidablePred cond]
    : table'.count cond = table.count cond + if cond row then 1 else 0 := by
  rw [count, count, rows_insert done, List.countP_append, List.countP_singleton]
  simp

theorem get?_insert {table table' : Table Row} {row : Row} (done : table.insert row = some table')
    : table.get? (Keyed.key row) = none
      ∧ ∀ key, table'.get? key = if key = Keyed.key row then some row else table.get? key := by
  unfold insert at done
  split at done
  · cases done
  case isFalse fresh =>
    have absent : table.get? (Keyed.key row) = none :=
      get?_eq_none_iff.mpr fun other member same =>
        fresh (List.mem_map.mpr ⟨other, member, same⟩)
    refine ⟨absent, fun key => ?_⟩
    obtain rfl := Option.some.inj done
    simp only [get?, List.find?_append]
    by_cases hk : key = Keyed.key row
    · subst hk
      rw [if_pos rfl]
      have nothing : table.rows.find? (fun other => decide (Keyed.key other = Keyed.key row))
          = none := absent
      simp [nothing]
    · rw [if_neg hk]
      simp [Ne.symm hk]

theorem exists_get?_of_insert_eq_none {table : Table Row} {row : Row} (failed : table.insert row = none)
    : ∃ other, table.get? (Keyed.key row) = some other := by
  unfold insert at failed
  split at failed
  next taken =>
    obtain ⟨other, member, same⟩ := List.mem_map.mp taken
    exact ⟨other, same ▸ get?_of_mem member⟩
  · cases failed

/-- An upsert leaves its row under a key that was free, the row of a taken key rewritten, and
every other row as it was.
-/
theorem get?_upsert {table : Table Row} {row : Row} {set : Row → Row}
    (keeps : ∀ row, Keyed.key (set row) = Keyed.key row) (key : Key)
    : (table.upsert row set keeps).get? key
      = if key = Keyed.key row then some (((table.get? key).map set).getD row)
        else table.get? key := by
  unfold upsert
  cases done : table.insert row with
  | some table' =>
      obtain ⟨fresh, reads⟩ := get?_insert done
      rw [Option.getD_some, reads]
      by_cases here : key = Keyed.key row
      · rw [if_pos here, if_pos here, here, fresh]
        rfl
      · rw [if_neg here, if_neg here]
  | none =>
      rw [Option.getD_none, get?_update keeps]
      by_cases here : key = Keyed.key row
      · obtain ⟨old, found⟩ := exists_get?_of_insert_eq_none done
        rw [here, found]
        simp [key_of_get? found]
      · rw [if_neg here]
        cases found : table.get? key with
        | none => rfl
        | some old =>
            have apart : Keyed.key old ≠ Keyed.key row := key_of_get? found ▸ here
            rw [Option.map_some, if_neg apart]

/-- An insertion that leaves a taken key alone reads, under its key, the row that was there or its own. -/
theorem get?_insertOrIgnore {table : Table Row} {row : Row} (key : Key)
    : (table.insertOrIgnore row).get? key
      = if key = Keyed.key row then some ((table.get? key).getD row) else table.get? key := by
  have same : table.insertOrIgnore row = table.upsert row id := by
    simp [insertOrIgnore, upsert, update]
  rw [same, get?_upsert, Option.map_id]
  rfl

theorem mem_upsert {table : Table Row} {row : Row} {set : Row → Row}
    {keeps : ∀ row, Keyed.key (set row) = Keyed.key row} {other : Row}
    (there : other ∈ table.upsert row set keeps)
    : other = row ∨ ∃ old ∈ table, other = old ∨ other = set old := by
  unfold upsert at there
  cases done : table.insert row with
  | some table' =>
      rw [done, Option.getD_some, mem_iff, rows_insert done, List.mem_append, List.mem_singleton] at there
      obtain old | own := there
      · exact Or.inr ⟨other, old, Or.inl rfl⟩
      · exact Or.inl own
  | none =>
      rw [done, Option.getD_none] at there
      obtain ⟨old, present, rfl⟩ := mem_update.mp there
      refine Or.inr ⟨old, present, ?_⟩
      split
      · exact Or.inr rfl
      · exact Or.inl rfl

theorem mem_insertOrIgnore {table : Table Row} {row other : Row} (there : other ∈ table.insertOrIgnore row)
    : other = row ∨ other ∈ table := by
  unfold insertOrIgnore at there
  cases done : table.insert row with
  | some table' =>
      rw [done, Option.getD_some, mem_iff, rows_insert done, List.mem_append, List.mem_singleton] at there
      exact there.symm
  | none =>
      rw [done] at there
      exact Or.inr there

/-- Insertions, each unless its key is taken, keep every row, add only rows of theirs under free
keys, and leave a row under each of their keys.
-/
theorem get?_insertOrIgnore_foldl (table : Table Row) (rows : List Row)
    : (∀ key row, table.get? key = some row → (rows.foldl insertOrIgnore table).get? key = some row)
        ∧ (∀ key row, (rows.foldl insertOrIgnore table).get? key = some row →
          table.get? key = some row ∨ table.get? key = none ∧ row ∈ rows)
        ∧ ∀ row ∈ rows, ∃ other,
          (rows.foldl insertOrIgnore table).get? (Keyed.key row) = some other := by
  induction rows generalizing table with
  | nil => simp
  | cons head rest ih =>
      obtain ⟨kept, added, covered⟩ := ih (table.insertOrIgnore head)
      have first : (∀ key row, table.get? key = some row → (table.insertOrIgnore head).get? key = some row)
          ∧ (∀ key row, (table.insertOrIgnore head).get? key = some row →
            table.get? key = some row ∨ table.get? key = none ∧ row = head)
          ∧ ∃ other, (table.insertOrIgnore head).get? (Keyed.key head) = some other := by
        unfold insertOrIgnore
        cases done : table.insert head with
        | none =>
            rw [Option.getD_none]
            exact ⟨fun _ _ found => found, fun _ _ found => Or.inl found,
              exists_get?_of_insert_eq_none done⟩
        | some table' =>
            obtain ⟨fresh, reads⟩ := get?_insert done
            rw [Option.getD_some]
            refine ⟨?_, ?_, head, by rw [reads, if_pos rfl]⟩
            · intro key row found
              rw [reads, if_neg]
              · exact found
              · rintro rfl
                rw [fresh] at found
                cases found
            · intro key row found
              rw [reads] at found
              split at found
              next same => exact Or.inr ⟨same ▸ fresh, (Option.some.inj found).symm⟩
              next => exact Or.inl found
      obtain ⟨kept', added', other, covered'⟩ := first
      rw [List.foldl_cons]
      refine ⟨fun key row found => kept key row (kept' key row found), ?_, ?_⟩
      · intro key row found
        rcases added key row found with old | ⟨absent, later⟩
        · rcases added' key row old with older | ⟨absent, rfl⟩
          · exact Or.inl older
          · exact Or.inr ⟨absent, List.mem_cons_self⟩
        · refine Or.inr ⟨?_, List.mem_cons_of_mem _ later⟩
          cases before : table.get? key with
          | none => rfl
          | some row =>
              rw [kept' key row before] at absent
              cases absent
      · rw [List.forall_mem_cons]
        exact ⟨⟨other, kept _ _ covered'⟩, covered⟩

theorem rows_insertAll {table table' : Table Row} {rows : List Row}
    (done : table.insertAll rows = some table')
    : table'.rows = table.rows ++ rows := by
  induction rows generalizing table with
  | nil =>
      obtain rfl := Option.some.inj done
      simp
  | cons head tail ih =>
      obtain ⟨middle, first, rest⟩ := Option.bind_eq_some_iff.mp done
      rw [ih rest, rows_insert first, List.append_assoc, List.singleton_append]

theorem fresh_insertAll {table table' : Table Row} {rows : List Row}
    (done : table.insertAll rows = some table')
    : (rows.map Keyed.key).Nodup ∧ ∀ row ∈ rows, table.get? (Keyed.key row) = none := by
  have distinct := table'.nodup
  rw [rows_insertAll done, List.map_append, List.nodup_append] at distinct
  refine ⟨distinct.2.1, ?_⟩
  intro row member
  refine get?_eq_none_iff.mpr ?_
  intro other present same
  exact distinct.2.2 _ (List.mem_map_of_mem present) _ (List.mem_map_of_mem member) same

theorem get?_insertAll_of_get? {table table' : Table Row} {rows : List Row}
    (done : table.insertAll rows = some table') {key : Key} {row : Row}
    (found : table.get? key = some row)
    : table'.get? key = some row := by
  induction rows generalizing table with
  | nil =>
      obtain rfl := Option.some.inj done
      exact found
  | cons head tail ih =>
      obtain ⟨middle, first, rest⟩ := Option.bind_eq_some_iff.mp done
      apply ih rest
      obtain ⟨absent, lookup⟩ := get?_insert first
      rw [lookup]
      split
      case isTrue hk => rw [hk, absent] at found; cases found
      case isFalse => exact found

/-- Rows found after insertions that all succeed were there or were inserted under a key
that was free.
-/
theorem get?_insertAll {table table' : Table Row} {rows : List Row}
    (done : table.insertAll rows = some table') {key : Key} {row : Row}
    (found : table'.get? key = some row)
    : table.get? key = some row ∨ (table.get? key = none ∧ row ∈ rows) := by
  induction rows generalizing table with
  | nil =>
      obtain rfl := Option.some.inj done
      exact .inl found
  | cons head tail ih =>
      obtain ⟨middle, first, rest⟩ := Option.bind_eq_some_iff.mp done
      obtain ⟨absent, lookup⟩ := get?_insert first
      rcases ih rest with there | ⟨free, member⟩
      · rw [lookup] at there
        split at there
        case isTrue hk =>
          obtain rfl := Option.some.inj there
          exact .inr ⟨hk ▸ absent, List.mem_cons_self⟩
        case isFalse => exact .inl there
      · rw [lookup] at free
        split at free
        · cases free
        · exact .inr ⟨free, List.mem_cons_of_mem _ member⟩

theorem get?_of_mem_insertAll {table table' : Table Row} {rows : List Row}
    (done : table.insertAll rows = some table') {row : Row} (member : row ∈ rows)
    : table'.get? (Keyed.key row) = some row := by
  induction rows generalizing table with
  | nil => cases member
  | cons head tail ih =>
      obtain ⟨middle, first, rest⟩ := Option.bind_eq_some_iff.mp done
      rcases List.mem_cons.mp member with rfl | later
      · apply get?_insertAll_of_get? rest
        rw [(get?_insert first).2, if_pos rfl]
      · exact ih rest later

end Lookup

end Table

end Dagron.Library
