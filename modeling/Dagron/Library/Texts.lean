import Mathlib.Data.List.Infix
import Mathlib.Data.List.TakeWhile

/-! Texts with blanks around them, and words with a separator between them.
-/

namespace Dagron.Library

variable {Item : Type}

-- Blanks

section Blanks

variable {blank : Item → Bool}

def strip (blank : Item → Bool) (text : List Item) : List Item :=
  ((text.dropWhile blank).reverse.dropWhile blank).reverse

theorem strip_within (text : List Item)
    : strip blank text <:+: text := by
  have ended : strip blank text <+: text.dropWhile blank := by
    have suffix := List.dropWhile_suffix blank (l := (text.dropWhile blank).reverse)
    rw [← List.reverse_prefix] at suffix
    rwa [List.reverse_reverse] at suffix
  exact ended.isInfix.trans (List.dropWhile_suffix blank).isInfix

theorem dropWhile_eq_self {text : List Item} (first : ∀ item ∈ text.head?, blank item = false)
    : text.dropWhile blank = text := by
  cases text with
  | nil => rfl
  | cons item rest =>
      have seen := first item rfl
      exact List.dropWhile_cons_of_neg (by simp [seen])

theorem strip_eq_self {text : List Item} (first : ∀ item ∈ text.head?, blank item = false)
    (last : ∀ item ∈ text.getLast?, blank item = false)
    : strip blank text = text := by
  rw [strip, dropWhile_eq_self first, dropWhile_eq_self (by rwa [List.head?_reverse]), List.reverse_reverse]

theorem strip_of_none_blank {text : List Item} (seen : ∀ item ∈ text, blank item = false)
    : strip blank text = text :=
  strip_eq_self (fun item first => seen item (List.mem_of_mem_head? first))
    (fun item last => seen item (List.mem_of_getLast? last))

theorem strip_blanks_append (blanks : List Item) (unseen : ∀ item ∈ blanks, blank item) (text : List Item)
    : strip blank (blanks ++ text) = strip blank text := by
  rw [strip, strip, List.dropWhile_append_of_pos unseen]

theorem strip_append_blanks {blanks : List Item} (unseen : ∀ item ∈ blanks, blank item) (text : List Item)
    : strip blank (text ++ blanks) = strip blank text := by
  induction text with
  | nil =>
      have gone : blanks.dropWhile blank = [] := List.dropWhile_eq_nil_iff.mpr unseen
      rw [List.nil_append, strip, gone]
      rfl
  | cons item rest ih =>
      by_cases first : blank item
      · have skipped (more : List Item) : strip blank (item :: more) = strip blank more :=
          strip_blanks_append [item] (fun other there => by rwa [List.mem_singleton.mp there]) more
        rw [List.cons_append, skipped, skipped, ih]
      · have kept (more : List Item) : (item :: more).dropWhile blank = item :: more :=
          List.dropWhile_cons_of_neg first
        have after : ∀ other ∈ blanks.reverse, blank other :=
          fun other there => unseen other (List.mem_reverse.mp there)
        rw [strip, strip, List.cons_append, kept, kept, ← List.cons_append, List.reverse_append,
          List.dropWhile_append_of_pos after]

theorem strip_ends (blank : Item → Bool) (text : List Item)
    : (∀ item ∈ (strip blank text).head?, blank item = false)
      ∧ ∀ item ∈ (strip blank text).getLast?, blank item = false := by
  have seen (items : List Item) {item : Item} (first : item ∈ (items.dropWhile blank).head?)
      : blank item = false := by
    have dropped := List.head?_dropWhile_not blank items
    rw [Option.mem_def.mp first] at dropped
    exact dropped
  constructor
  · intro item first
    have ended : strip blank text <+: text.dropWhile blank := by
      have suffix := List.dropWhile_suffix blank (l := (text.dropWhile blank).reverse)
      rw [← List.reverse_prefix] at suffix
      rwa [List.reverse_reverse] at suffix
    obtain ⟨after, whole⟩ := ended
    refine seen text ?_
    rw [← whole, List.head?_append, Option.mem_def.mp first]
    rfl
  · intro item last
    rw [strip, List.getLast?_reverse] at last
    exact seen _ last

theorem exists_blanks (blank : Item → Bool) (text : List Item)
    : ∃ kept blanks, text = kept ++ blanks ∧ (∀ item ∈ blanks, blank item)
      ∧ ∀ item ∈ kept.getLast?, blank item = false := by
  refine ⟨(text.reverse.dropWhile blank).reverse, (text.reverse.takeWhile blank).reverse, ?_, ?_, ?_⟩
  · rw [← List.reverse_append, List.takeWhile_append_dropWhile, List.reverse_reverse]
  · intro item there
    exact List.mem_takeWhile_imp (List.mem_reverse.mp there)
  · intro item last
    rw [List.getLast?_reverse] at last
    have dropped := List.head?_dropWhile_not blank text.reverse
    rw [Option.mem_def.mp last] at dropped
    exact dropped

theorem strip_strip (text : List Item)
    : strip blank (strip blank text) = strip blank text :=
  strip_eq_self (strip_ends _ text).1 (strip_ends _ text).2

end Blanks

-- Separators

section Separators

variable {separates : Item → Bool} {separator : Item}

theorem splitOnP_append_of_plain {front : List Item} (plain : ∀ item ∈ front, separates item = false)
    (text : List Item)
    : (front ++ text).splitOnP separates = (text.splitOnP separates).modifyHead (front ++ ·) := by
  induction front with
  | nil => exact (congrFun List.modifyHead_id _).symm
  | cons item front ih =>
      have first := plain item List.mem_cons_self
      rw [List.cons_append, List.splitOnP_cons_eq_if_modifyHead, if_neg (by simp [first]),
        ih fun other there => plain other (List.mem_cons_of_mem item there), List.modifyHead_modifyHead]
      rfl

/-- Words that are joined by a separator and a gap are read one by one from what is between the separators,
where the gap is passed over as each is read.
-/
theorem map_splitOnP_joined {Value : Type} (separates : Item → Bool) (separator : Item) (read : List Item → Value) (gap : List Item)
    (is_ : separates separator) (within : ∀ item ∈ gap, separates item = false)
    (skips : ∀ word, read (gap ++ word) = read word) {words : List (List Item)}
    (plain : ∀ word ∈ words, ∀ item ∈ word, separates item = false) (some_ : words ≠ [])
    : (((separator :: gap).intercalate words).splitOnP separates).map read = words.map read := by
  induction words with
  | nil => exact absurd rfl some_
  | cons word rest ih =>
      have first := plain word List.mem_cons_self
      have others := fun other there => plain other (List.mem_cons_of_mem word there)
      cases rest with
      | nil => rw [List.intercalate_singleton, List.splitOnP_eq_singleton first]
      | cons next rest =>
          have later := ih others (List.cons_ne_nil next rest)
          rw [List.intercalate_cons_cons, List.append_assoc, List.cons_append,
            List.splitOnP_append_cons_of_forall_mem first separator is_, List.map_cons, List.map_cons,
            splitOnP_append_of_plain within, ← later]
          refine congrArg (read word :: ·) ?_
          cases (List.intercalate (separator :: gap) (next :: rest)).splitOnP separates with
          | nil => rfl
          | cons piece pieces => exact congrArg (· :: pieces.map read) (skips piece)

theorem splitOnP_joined (separates : Item → Bool) (is_ : separates separator) {words : List (List Item)}
    (plain : ∀ word ∈ words, ∀ item ∈ word, separates item = false) (some_ : words ≠ [])
    : ([separator].intercalate words).splitOnP separates = words := by
  have read := map_splitOnP_joined separates separator id [] is_ (fun _ none_ => nomatch none_)
    (fun _ => rfl) plain some_
  rwa [List.map_id, List.map_id] at read

theorem plain_or_separated (separates : Item → Bool) (text : List Item)
    : (∀ item ∈ text, separates item = false)
      ∨ ∃ front separator rest, text = front ++ separator :: rest ∧ separates separator
        ∧ ∀ item ∈ front, separates item = false := by
  induction text with
  | nil => exact .inl fun _ none_ => nomatch none_
  | cons item rest ih =>
      by_cases is_ : separates item
      · exact .inr ⟨[], item, rest, rfl, is_, fun _ none_ => nomatch none_⟩
      · have first : separates item = false := by simpa using is_
        obtain plain | ⟨front, separator, after, rfl, is_, plain⟩ := ih
        · exact .inl (List.forall_mem_cons.mpr ⟨first, plain⟩)
        · exact .inr ⟨item :: front, separator, after, rfl, is_, List.forall_mem_cons.mpr ⟨first, plain⟩⟩

theorem splitOnP_piece {text piece : List Item} (there : piece ∈ text.splitOnP separates)
    : piece <:+: text ∧ ∀ item ∈ piece, separates item = false := by
  induction size : text.length using Nat.strong_induction_on generalizing text with
  | _ _ ih =>
      obtain plain | ⟨front, separator, rest, rfl, is_, plain⟩ := plain_or_separated separates text
      · rw [List.splitOnP_eq_singleton plain, List.mem_singleton] at there
        obtain rfl := there
        exact ⟨List.infix_rfl, plain⟩
      · rw [List.splitOnP_append_cons_of_forall_mem plain separator is_, List.mem_cons] at there
        obtain rfl | there := there
        · exact ⟨(List.prefix_append _ _).isInfix, plain⟩
        · have shorter : rest.length < (front ++ separator :: rest).length := by
            simp only [List.length_append, List.length_cons]
            omega
          obtain ⟨within, plain⟩ := ih rest.length (size ▸ shorter) there rfl
          exact ⟨within.trans ((List.suffix_cons separator rest).trans (List.suffix_append front _)).isInfix,
            plain⟩

theorem infix_of_infix_append_cons {word front rest : List Item} (plain : separator ∉ word)
    (there : word <:+: front ++ separator :: rest)
    : word <:+: front ∨ word <:+: rest := by
  obtain ⟨before, after, whole⟩ := there
  rw [List.append_assoc, List.append_eq_append_iff] at whole
  obtain ⟨more, rfl, ended⟩ | ⟨more, rfl, begun⟩ := whole
  · obtain ⟨last, rfl, _⟩ | ⟨last, wholly, begun⟩ := List.append_eq_append_iff.mp ended
    · exact .inl ⟨before, last, List.append_assoc _ _ _⟩
    · cases last with
      | nil => exact .inl ⟨before, [], by rw [wholly]; simp⟩
      | cons item last =>
          obtain ⟨rfl, _⟩ := List.cons.inj begun
          exact absurd (wholly ▸ List.mem_append_right more List.mem_cons_self) plain
  · cases more with
    | nil =>
        cases word with
        | nil => exact .inr List.nil_infix
        | cons item word =>
            obtain ⟨rfl, _⟩ := List.cons.inj begun
            exact absurd List.mem_cons_self plain
    | cons item more =>
        obtain ⟨rfl, rfl⟩ := List.cons.inj begun
        exact .inr ⟨more, after, List.append_assoc _ _ _⟩

theorem infix_of_infix_joined {word : List Item} (some_ : word ≠ []) {words : List (List Item)}
    (plain : separator ∉ word) (there : word <:+: [separator].intercalate words)
    : ∃ whole ∈ words, word <:+: whole := by
  induction words with
  | nil => exact absurd (List.infix_nil.mp there) some_
  | cons first rest ih =>
      cases rest with
      | nil =>
          rw [List.intercalate_singleton] at there
          exact ⟨first, List.mem_cons_self, there⟩
      | cons next rest =>
          rw [List.intercalate_cons_cons, List.append_assoc, List.singleton_append] at there
          obtain here | later := infix_of_infix_append_cons plain there
          · exact ⟨first, List.mem_cons_self, here⟩
          · obtain ⟨whole, member, within⟩ := ih later
            exact ⟨whole, List.mem_cons_of_mem first member, within⟩

theorem joined_ends {words : List (List Item)} (some_ : ∀ word ∈ words, word ≠ [])
    : (∀ item ∈ ([separator].intercalate words).head?, ∃ word ∈ words, item ∈ word.head?)
      ∧ ∀ item ∈ ([separator].intercalate words).getLast?, ∃ word ∈ words, item ∈ word.getLast? := by
  induction words with
  | nil => exact ⟨fun _ is_ => (nomatch is_), fun _ is_ => (nomatch is_)⟩
  | cons first rest ih =>
      obtain ⟨item, more, rfl⟩ := List.exists_cons_of_ne_nil (some_ first List.mem_cons_self)
      cases rest with
      | nil =>
          rw [List.intercalate_singleton]
          exact ⟨fun _ is_ => ⟨_, List.mem_cons_self, is_⟩, fun _ is_ => ⟨_, List.mem_cons_self, is_⟩⟩
      | cons next rest =>
          rw [List.intercalate_cons_cons, List.append_assoc, List.singleton_append]
          refine ⟨fun item is_ => ⟨_, List.mem_cons_self, is_⟩, fun item is_ => ?_⟩
          rw [List.getLast?_append_of_ne_nil _ (List.cons_ne_nil _ _)] at is_
          have later : ([separator].intercalate (next :: rest)) ≠ [] := by
            intro empty
            have whole := some_ next (List.mem_cons_of_mem _ List.mem_cons_self)
            cases rest with
            | nil => exact whole (by rwa [List.intercalate_singleton] at empty)
            | cons => simp [List.intercalate_cons_cons] at empty
          rw [List.getLast?_cons_of_ne_nil later] at is_
          obtain ⟨word, member, ends⟩ := (ih fun word there => some_ word (List.mem_cons_of_mem _ there)).2 item is_
          exact ⟨word, List.mem_cons_of_mem _ member, ends⟩

theorem strip_joined {blank : Item → Bool} {words : List (List Item)} (some_ : ∀ word ∈ words, word ≠ [])
    (stripped : ∀ word ∈ words, strip blank word = word)
    : strip blank ([separator].intercalate words) = [separator].intercalate words := by
  refine strip_eq_self (fun item is_ => ?_) (fun item is_ => ?_)
  · obtain ⟨word, member, first⟩ := (joined_ends some_).1 item is_
    exact (strip_ends _ word).1 item (by rwa [stripped word member])
  · obtain ⟨word, member, last⟩ := (joined_ends some_).2 item is_
    exact (strip_ends _ word).2 item (by rwa [stripped word member])

end Separators

end Dagron.Library
