import Mathlib.Data.List.Basic
import Mathlib.Data.List.Induction
import Mathlib.Data.List.Lex
import Mathlib.Order.Defs.LinearOrder
import Mathlib.Order.Lattice

/-! Maps whose keys are in order: what is written under a key replaces what was there, and the entries are
gone through from the least key on.
-/

namespace Dagron.Library

/-- A map with its entries in the order of their keys, which differ. -/
structure OrderedMap (Key Value : Type) [LinearOrder Key] where
  entries
    : List (Key × Value)
  sorted
    : (entries.map Prod.fst).Pairwise (· < ·)

namespace OrderedMap

variable {Key Value : Type} [LinearOrder Key]

def empty : OrderedMap Key Value :=
  ⟨[], .nil⟩

def get? (map : OrderedMap Key Value) (key : Key) : Option Value :=
  (map.entries.find? fun entry => entry.1 = key).map Prod.snd

def insertEntry (key : Key) (value : Value) : List (Key × Value) → List (Key × Value)
  | [] => [(key, value)]
  | (other, held) :: rest =>
      if key < other then (key, value) :: (other, held) :: rest
      else if key = other then (key, value) :: rest
      else (other, held) :: insertEntry key value rest

theorem fst_mem_insertEntry {key other : Key} {value : Value} {entries : List (Key × Value)}
    : other ∈ (insertEntry key value entries).map Prod.fst
      ↔ other = key ∨ other ∈ entries.map Prod.fst := by
  induction entries with
  | nil => exact List.mem_singleton.trans (or_iff_left List.not_mem_nil).symm
  | cons entry rest ih =>
      rw [insertEntry]
      split
      · exact List.mem_cons
      · split
        next same => simp only [List.map_cons, List.mem_cons, ← same, or_self_left]
        next => simp only [List.map_cons, List.mem_cons, ih, or_left_comm]

theorem sorted_insertEntry (key : Key) (value : Value) {entries : List (Key × Value)}
    (sorted : (entries.map Prod.fst).Pairwise (· < ·))
    : ((insertEntry key value entries).map Prod.fst).Pairwise (· < ·) := by
  induction entries with
  | nil => exact List.pairwise_singleton _ _
  | cons entry rest ih =>
      obtain ⟨below, tail⟩ := List.pairwise_cons.mp sorted
      rw [insertEntry]
      split
      next less =>
        refine List.pairwise_cons.mpr ⟨fun other there => ?_, sorted⟩
        obtain rfl | there := List.mem_cons.mp there
        · exact less
        · exact lt_trans less (below other there)
      next notLess =>
        split
        next same => exact List.pairwise_cons.mpr ⟨same ▸ below, tail⟩
        next other_ =>
          refine List.pairwise_cons.mpr ⟨fun other there => ?_, ih tail⟩
          obtain rfl | there := fst_mem_insertEntry.mp there
          · exact lt_of_le_of_ne (not_lt.mp notLess) (Ne.symm other_)
          · exact below other there

/-- A map with a value under a key, over what was there. -/
def insert (map : OrderedMap Key Value) (key : Key) (value : Value) : OrderedMap Key Value :=
  ⟨insertEntry key value map.entries, sorted_insertEntry key value map.sorted⟩

def erase (map : OrderedMap Key Value) (key : Key) : OrderedMap Key Value :=
  ⟨map.entries.filter fun entry => entry.1 ≠ key, map.sorted.sublist (List.filter_sublist.map Prod.fst)⟩

/-- The map of some entries: of two under one key, the later one counts. -/
def ofList (entries : List (Key × Value)) : OrderedMap Key Value :=
  entries.foldl (fun map entry => map.insert entry.1 entry.2) empty

-- What is held

theorem find?_insertEntry (key other : Key) (value : Value) {entries : List (Key × Value)}
    : ((insertEntry key value entries).find? fun entry => entry.1 = other).map Prod.snd
      = if other = key then some value
        else (entries.find? fun entry => entry.1 = other).map Prod.snd := by
  induction entries with
  | nil =>
      by_cases same : other = key
      · simp [insertEntry, same]
      · simp [insertEntry, same, Ne.symm same]
  | cons entry rest ih =>
      rw [insertEntry]
      split
      · by_cases same : other = key
        · simp [same]
        · simp [same, Ne.symm same]
      · split
        next here =>
          by_cases same : other = key
          · simp [same]
          · simp [same, Ne.symm same, ← here]
        next elsewhere =>
          by_cases first : entry.1 = other
          · have other_ : other ≠ key := first ▸ Ne.symm elsewhere
            simp [first, other_]
          · simpa [first] using ih

theorem get?_insert (map : OrderedMap Key Value) (key other : Key) (value : Value)
    : (map.insert key value).get? other = if other = key then some value else map.get? other :=
  find?_insertEntry key other value

theorem get?_erase (map : OrderedMap Key Value) (key other : Key)
    : (map.erase key).get? other = if other = key then none else map.get? other := by
  rw [get?, erase, List.find?_filter]
  split
  next same => simp [same]
  next apart =>
    have agree (entry : Key × Value)
        : (decide (entry.1 ≠ key) = true ∧ decide (entry.1 = other) = true) ↔ entry.1 = other := by
      by_cases here : entry.1 = other <;> simp [here, apart]
    simp only [agree, get?]

theorem mem_entries {map : OrderedMap Key Value} {key : Key} {value : Value}
    : (key, value) ∈ map.entries ↔ map.get? key = some value := by
  obtain ⟨entries, sorted⟩ := map
  show (key, value) ∈ entries ↔ (entries.find? fun entry => entry.1 = key).map Prod.snd = some value
  induction entries with
  | nil => simp
  | cons entry rest ih =>
      obtain ⟨below, tail⟩ := List.pairwise_cons.mp sorted
      by_cases here : entry.1 = key
      · have absent : (key, value) ∉ rest := fun there =>
          lt_irrefl key (here ▸ below key (List.mem_map_of_mem there))
        obtain ⟨other, held⟩ := entry
        obtain rfl := here
        simp [absent, eq_comm]
      · have differ : (key, value) ≠ entry := fun same => here (congrArg Prod.fst same.symm)
        simpa [here, differ] using ih tail

theorem mem_keys {map : OrderedMap Key Value} {key : Key}
    : key ∈ map.entries.map Prod.fst ↔ (map.get? key).isSome := by
  rw [Option.isSome_iff_exists]
  constructor
  · intro there
    obtain ⟨entry, member, rfl⟩ := List.mem_map.mp there
    exact ⟨entry.2, mem_entries.mp member⟩
  · rintro ⟨value, held⟩
    exact List.mem_map_of_mem (mem_entries.mpr held)

theorem nodup_keys (map : OrderedMap Key Value)
    : (map.entries.map Prod.fst).Nodup :=
  map.sorted.imp ne_of_lt

theorem ext_get? {first second : OrderedMap Key Value} (same : ∀ key, first.get? key = second.get? key)
    : first = second := by
  have members (entry : Key × Value) : entry ∈ first.entries ↔ entry ∈ second.entries := by
    rw [mem_entries, mem_entries, same]
  have ordered (map : OrderedMap Key Value) : map.entries.Pairwise fun one two => one.1 < two.1 :=
    List.pairwise_map.mp map.sorted
  have nodup (map : OrderedMap Key Value) : map.entries.Nodup :=
    (ordered map).imp fun {one two} (less : one.1 < two.1) (equal : one = two) =>
      lt_irrefl one.1 (equal ▸ less)
  have permuted := (List.perm_ext_iff_of_nodup (nodup first) (nodup second)).mpr members
  have equal : first.entries = second.entries :=
    permuted.eq_of_pairwise (fun _ _ _ _ less more => (lt_asymm less more).elim) (ordered first)
      (ordered second)
  cases first
  cases second
  obtain rfl := equal
  rfl

theorem ofList_concat (entries : List (Key × Value)) (key : Key) (value : Value)
    : ofList (entries ++ [(key, value)]) = (ofList entries).insert key value := by
  rw [ofList, List.foldl_append]
  rfl

theorem mem_of_get?_ofList {entries : List (Key × Value)} {key : Key} {value : Value}
    (held : (ofList entries).get? key = some value)
    : (key, value) ∈ entries := by
  induction entries using List.reverseRecOn with
  | nil => cases held
  | append_singleton entries entry ih =>
      rw [ofList_concat, get?_insert] at held
      split at held
      next same =>
        obtain rfl := Option.some.inj held
        exact List.mem_append_right _ (List.mem_singleton.mpr (congrArg (·, entry.2) same))
      next => exact List.mem_append_left _ (ih held)

theorem get?_ofList_isSome {entries : List (Key × Value)} {key : Key} {value : Value}
    (there : (key, value) ∈ entries)
    : ((ofList entries).get? key).isSome := by
  induction entries using List.reverseRecOn with
  | nil => cases there
  | append_singleton entries entry ih =>
      rw [ofList_concat, get?_insert]
      split
      next => rfl
      next other =>
        refine ih ((List.mem_append.mp there).resolve_right fun last => other ?_)
        exact congrArg Prod.fst (List.mem_singleton.mp last)

theorem get?_ofList_eq_find? (entries : List (Key × Value)) (key : Key)
    : (ofList entries).get? key = (entries.reverse.find? fun entry => entry.1 = key).map Prod.snd := by
  induction entries using List.reverseRecOn with
  | nil => rfl
  | append_singleton entries entry ih =>
      rw [ofList_concat, get?_insert, List.reverse_concat, List.find?_cons]
      by_cases same : key = entry.1
      · simp [same]
      · simp [same, Ne.symm same, ih]

theorem get?_ofList {entries : List (Key × Value)} {key : Key} {held : Option Value}
    (only : ∀ value, (key, value) ∈ entries ↔ held = some value)
    : (ofList entries).get? key = held := by
  cases found : (ofList entries).get? key with
  | some value => exact ((only value).mp (mem_of_get?_ofList found)).symm
  | none =>
      cases held with
      | none => rfl
      | some value =>
          have some_ := get?_ofList_isSome ((only value).mpr rfl)
          rw [found] at some_
          cases some_

-- The keys that begin alike

variable {Letter : Type} [LinearOrder Letter]

end OrderedMap

end Dagron.Library
