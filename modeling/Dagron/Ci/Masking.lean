import Dagron.Ci.Commands
import Mathlib.Data.List.Sort
import Mathlib.Data.List.Infix
import Mathlib.Order.Basic

/-! Masked values are never shown: what is printed of a line is the line with the union of every
masked value's occurrences hidden, and so is every text of the annotation it asks for.
-/

namespace Dagron.Ci

open Dagron.Library Dagron.Spec

-- Occurrences

/-- A place of a text that an occurrence of a masked value covers. -/
def Covered (masks : List (List UInt8)) (text : List UInt8) (place : Nat) : Prop :=
  ∃ value ∈ masks, ∃ start, start ≤ place ∧ place < start + value.length
    ∧ value <+: text.drop start

instance (masks : List (List UInt8)) (text : List UInt8)
    : DecidablePred (Covered masks text) := fun place =>
  decidable_of_iff (masks.any fun value => (List.range (place + 1)).any fun start =>
    place < start + value.length && value.isPrefixOf (text.drop start)) (by
      simp [Covered, Nat.lt_succ_iff, List.isPrefixOf_iff_prefix])

/-- A text with the union of every masked value's occurrences hidden. -/
def hidden (masks : List (List UInt8)) (text : List UInt8) : List UInt8 :=
  showRuns shownMask (Covered masks text) false 0 text

variable {masks : List (List UInt8)} {text value : List UInt8}

theorem mem_occurrences {place : Nat} {span : Nat × Nat}
    : span ∈ occurrences value place text
      ↔ ∃ offset < text.length, value <+: text.drop offset
        ∧ span = (place + offset, place + offset + value.length) := by
  induction text generalizing place with
  | nil => simp [occurrences]
  | cons byte rest ih =>
      have later : span ∈ occurrences value (place + 1) rest
          ↔ ∃ offset < rest.length, value <+: (byte :: rest).drop (offset + 1)
            ∧ span = (place + (offset + 1), place + (offset + 1) + value.length) := by
        simp only [ih, List.drop_succ_cons, Nat.add_right_comm place 1, Nat.add_assoc]
      rw [← Nat.or_exists_add_one, occurrences]
      simp only [List.length_cons, Nat.add_lt_add_iff_right, ← later, List.drop_zero, Nat.add_zero,
        Nat.zero_lt_succ, true_and]
      split_ifs with first
      · simp [List.isPrefixOf_iff_prefix.mp first]
      · simp [mt List.isPrefixOf_iff_prefix.mpr first]

theorem length_of_prefix_drop {start : Nat} (occurs : value <+: text.drop start) (holds : value ≠ [])
    : start + value.length ≤ text.length := by
  have fits := occurs.length_le
  have some := List.length_pos_iff.mpr holds
  rw [List.length_drop] at fits
  omega

/-- A text as it is masked is the text with the union of every masked value's occurrences hidden. -/
theorem masked_eq (commands : Commands) (text : List UInt8)
    : commands.masked text = hidden commands.masks text := by
  let inOrder (first second : Nat × Nat) : Bool :=
    first.1 < second.1 || first.1 == second.1 && first.2 ≤ second.2
  let spans := (commands.masks.filter (fun value => !value.isEmpty)).flatMap
    (fun value => occurrences value 0 text)
  have mem_spans (span : Nat × Nat) : span ∈ spans
      ↔ ∃ value ∈ commands.masks, value ≠ [] ∧ ∃ start, value <+: text.drop start
        ∧ span = (start, start + value.length) := by
    simp only [spans, List.mem_flatMap, List.mem_filter, mem_occurrences, Nat.zero_add,
      Bool.not_eq_true', List.isEmpty_eq_false_iff, and_assoc]
    refine exists_congr fun value => and_congr_right fun _ => and_congr_right fun holds => ?_
    refine exists_congr fun start => and_iff_right_of_imp fun ⟨occurs, _⟩ => ?_
    have := length_of_prefix_drop occurs holds
    have := List.length_pos_iff.mpr holds
    omega
  have sorted : (spans.mergeSort inOrder).Pairwise (fun first second => inOrder first second) := by
    apply List.pairwise_mergeSort
    · intro first second third
      simp only [inOrder, Bool.or_eq_true, Bool.and_eq_true, decide_eq_true_eq, beq_iff_eq]
      omega
    · intro first second
      simp only [inOrder, Bool.or_eq_true, Bool.and_eq_true, decide_eq_true_eq, beq_iff_eq]
      omega
  have ordered : Ordered (spans.mergeSort inOrder) := by
    refine ⟨fun span listed => ?_, sorted.imp fun {first second} before => ?_⟩
    · obtain ⟨value, -, holds, start, -, rfl⟩ := (mem_spans span).mp (List.mem_mergeSort.mp listed)
      have := List.length_pos_iff.mpr holds
      simp only
      omega
    · simp only [inOrder, Bool.or_eq_true, Bool.and_eq_true, decide_eq_true_eq, beq_iff_eq] at before
      omega
  obtain ⟨apart, same⟩ := mergeSpans_spec ordered
  have covered (place : Nat)
      : Covered commands.masks text place ↔ InSpans (mergeSpans (spans.mergeSort inOrder)) place := by
    rw [same]
    simp only [InSpans, List.mem_mergeSort, mem_spans]
    constructor
    · rintro ⟨value, listed, start, begun, ends, occurs⟩
      exact ⟨_, ⟨value, listed, List.ne_nil_of_length_pos (by omega), start, occurs, rfl⟩, begun, ends⟩
    · rintro ⟨_, ⟨value, listed, -, start, occurs, rfl⟩, begun, ends⟩
      exact ⟨value, listed, start, begun, ends, occurs⟩
  refine cutSpans_eq apart (fun _ _ => Nat.zero_le _) (fun span listed => ?_) (fun place _ => covered place)
  have last : InSpans (mergeSpans (spans.mergeSort inOrder)) (span.2 - 1) :=
    ⟨span, listed, Nat.le_pred_of_lt (apart.1 span listed), Nat.pred_lt_of_lt (apart.1 span listed)⟩
  obtain ⟨value, -, start, begun, ends, occurs⟩ := (covered _).mpr last
  have := length_of_prefix_drop occurs (List.ne_nil_of_length_pos (by omega))
  have := apart.1 span listed
  omega

-- Values asked to be masked

def textForms (value : List Char) : List (List UInt8) :=
  ((maskLines value).flatMap maskForms).map encodeChars

def byteForms (value : List UInt8) : List (List UInt8) :=
  (((unescapeBytes value).splitOnP (fun byte => byte == newline || byte == carriage)).map
    trimAscii).filter (fun line => !line.isEmpty)

/-- The forms that a line asks to have masked: none while commands are stopped. -/
def Commands.asks (commands : Commands) (line : List UInt8) : List (List UInt8) :=
  match commands.stopped, maskAsked line with
  | none, some value =>
      if isUtf8 line then textForms (unescape value false)
      else byteForms (((find (bytes "::add-mask::") line).map Prod.snd).getD
        (line.drop (bytes "::add-mask::").length))
  | _, _ => []

def Commands.read (commands : Commands) (lines : List (List UInt8)) : Commands :=
  lines.foldl (fun commands line => (commands.line line).2.2) commands

/-- What a line says before any mask: of a value it asks to have masked, nothing. -/
def Commands.unmasked (commands : Commands) (line : List UInt8) : List UInt8 :=
  if commands.stopped.isNone && (maskAsked line).isSome then bytes "::add-mask::***" else line

section Asked

variable {commands : Commands} {line form : List UInt8}

theorem mem_foldl_addMask {forms : List (List UInt8)}
    : form ∈ forms.foldl addMask masks ↔ form ∈ masks ∨ form ∈ forms := by
  induction forms generalizing masks with
  | nil => simp
  | cons first rest ih =>
      have added : form ∈ addMask masks first ↔ form ∈ masks ∨ form = first := by
        rw [addMask]
        split_ifs with present
        · exact ⟨.inl, fun either => either.elim id (fun same => same ▸ present)⟩
        · rw [List.mem_append, List.mem_singleton]
      rw [List.foldl_cons, ih, added, List.mem_cons, or_assoc]

theorem mem_mask {value : List Char}
    : form ∈ (commands.mask value).masks ↔ form ∈ commands.masks ∨ form ∈ textForms value := by
  rw [Commands.mask, ← List.foldl_map, mem_foldl_addMask, textForms]

theorem mem_maskBytes {value : List UInt8}
    : form ∈ (commands.maskBytes value).masks ↔ form ∈ commands.masks ∨ form ∈ byteForms value := by
  rw [Commands.maskBytes, mem_foldl_addMask, byteForms]

/-- The values masked from the start are those given, each line of each in each of its forms. -/
theorem mem_new {workspace : Option (List Char)} {credentials : List (List Char)}
    : form ∈ (Commands.new workspace credentials).masks
      ↔ ∃ value ∈ credentials, form ∈ textForms value := by
  have folded (values : List (List Char)) (commands : Commands)
      : form ∈ (values.foldl Commands.mask commands).masks
        ↔ form ∈ commands.masks ∨ ∃ value ∈ values, form ∈ textForms value := by
    induction values generalizing commands with
    | nil => simp
    | cons value rest ih =>
        rw [List.foldl_cons, ih, mem_mask, List.exists_mem_cons_iff, or_assoc]
  rw [Commands.new, folded]
  exact or_iff_right List.not_mem_nil

theorem mem_obeyMask {value : List Char} (running : commands.stopped = none)
    (asked : maskAsked line = some value)
    : form ∈ (commands.obeyMask line value).masks
      ↔ form ∈ commands.masks ∨ form ∈ commands.asks line := by
  rw [Commands.obeyMask, Commands.asks, running, asked]
  dsimp only
  split_ifs
  · exact mem_mask
  · exact mem_maskBytes

theorem annotation_spec (commands : Commands) (command : List Char)
    : ( commands.annotation command).2.masks = commands.masks
      ∧ ( commands.annotation command).2.workspace = commands.workspace
      ∧ ∀ said, ( commands.annotation command).1 = some said → ∃ asked,
        readAnnotation commands.workspace command = some asked
          ∧ said = commands.maskAnnotation asked := by
  rw [ Commands.annotation]
  cases asked : readAnnotation commands.workspace command with
  | none => simp
  | some annotation =>
      dsimp only
      split_ifs
      · simp
      · simp

/-- What reading a line does: the masks it asks for are added, and an annotation is said under the
masks as they are before it, to which its line adds none.
-/
theorem obey_spec (commands : Commands) (line : List UInt8)
    : (commands.obey line).1 = commands.unmasked line
      ∧ (commands.obey line).2.2.workspace = commands.workspace
      ∧ (∀ form, form ∈ (commands.obey line).2.2.masks ↔ form ∈ commands.masks ∨ form ∈ commands.asks line)
      ∧ ∀ said, (commands.obey line).2.1 = some said →
        (commands.obey line).2.2.masks = commands.masks ∧ ∃ asked,
          readAnnotation commands.workspace (trim (fromUtf8Lossy line)) = some asked
            ∧ said = commands.maskAnnotation asked := by
  rw [Commands.obey, Commands.unmasked]
  cases running : commands.stopped with
  | some token =>
      have asks : commands.asks line = [] := by simp [Commands.asks, running]
      dsimp only
      split_ifs <;> simp_all
  | none =>
      cases asked : maskAsked line with
      | some value =>
          have place : (commands.obeyMask line value).workspace = commands.workspace := by
            rw [Commands.obeyMask]
            split_ifs <;> rfl
          exact ⟨rfl, place, fun form => mem_obeyMask running asked, nofun⟩
      | none =>
          have asks : commands.asks line = [] := by simp [Commands.asks, running, asked]
          cases dropStart "::stop-commands::".toList (trim (fromUtf8Lossy line)) with
          | some token =>
              dsimp only
              split_ifs <;> simp_all
          | none =>
              obtain ⟨same, place, said⟩ := annotation_spec commands (trim (fromUtf8Lossy line))
              refine ⟨rfl, place, fun form => ?_, fun annotation asked => ⟨same, said annotation asked⟩⟩
              dsimp only
              rw [same, asks]
              exact (or_iff_left List.not_mem_nil).symm

/-- Over lines that are read the masks are those before and each one asked for, and the workspace
stays: by induction on the lines.
-/
theorem read_spec (commands : Commands) (lines : List (List UInt8))
    : (commands.read lines).workspace = commands.workspace
      ∧ ∀ form, form ∈ (commands.read lines).masks ↔ form ∈ commands.masks
        ∨ ∃ before line after, lines = before ++ line :: after
          ∧ form ∈ (commands.read before).asks line := by
  induction lines generalizing commands with
  | nil => simp [Commands.read]
  | cons first rest ih =>
      obtain ⟨-, place, masks, -⟩ := obey_spec commands first
      obtain ⟨stays, later⟩ := ih (commands.line first).2.2
      refine ⟨stays.trans place, fun form => ?_⟩
      have split : (∃ before line after, first :: rest = before ++ line :: after
            ∧ form ∈ (commands.read before).asks line)
          ↔ form ∈ commands.asks first ∨ ∃ before line after, rest = before ++ line :: after
            ∧ form ∈ ((commands.line first).2.2.read before).asks line := by
        constructor
        · rintro ⟨_ | ⟨head, before⟩, line, after, parts, asked⟩
          · obtain ⟨rfl, -⟩ := List.cons.inj parts
            exact .inl asked
          · obtain ⟨rfl, tail⟩ := List.cons.inj parts
            exact .inr ⟨before, line, after, tail, asked⟩
        · rintro (asked | ⟨before, line, after, rfl, asked⟩)
          · exact ⟨[], first, rest, rfl, asked⟩
          · exact ⟨first :: before, line, after, rfl, asked⟩
      rw [split, ← or_assoc]
      exact (later form).trans (or_congr_left (masks form))

end Asked

-- Masks and lines

def Inline (masks : List (List UInt8)) : Prop :=
  ∀ mask ∈ masks, newline ∉ mask

theorem of_mem_splitOnP {α : Type} {p : α → Bool} {items piece : List α} (listed : piece ∈ items.splitOnP p)
    : ∀ item ∈ piece, p item = false := by
  induction items generalizing piece with
  | nil =>
      obtain rfl := List.mem_singleton.mp (List.splitOnP_nil ▸ listed)
      nofun
  | cons first rest ih =>
      rw [List.splitOnP_cons_eq_if_modifyHead] at listed
      split_ifs at listed with separates
      · rcases List.mem_cons.mp listed with rfl | among
        · nofun
        · exact ih among
      · rcases pieces : rest.splitOnP p with _ | ⟨head, tail⟩
        · exact absurd pieces (List.splitOnP_ne_nil p rest)
        · rw [pieces] at listed ih
          rcases List.mem_cons.mp listed with rfl | among
          · intro item member
            rcases List.mem_cons.mp member with rfl | inside
            · exact Bool.not_eq_true _ ▸ separates
            · exact ih List.mem_cons_self item inside
          · exact ih (List.mem_cons_of_mem _ among)
theorem newline_not_mem_encodeChars {chars : List Char} (plain : '\n' ∉ chars)
    : newline ∉ encodeChars chars := by
  intro member
  obtain ⟨char, listed, inside⟩ := List.mem_flatMap.mp member
  have same : char.toNat = '\n'.toNat := toNat_of_mem_encode (by decide) inside
  exact plain (Char.toNat_inj.mp same ▸ listed)

theorem trim_subset (text : List Char)
    : trim text ⊆ text := by
  intro char member
  have ends := (List.dropWhile_sublist _).subset (List.mem_reverse.mp member)
  exact (List.dropWhile_sublist _).subset (List.mem_reverse.mp ends)

theorem trimAscii_subset (text : List UInt8)
    : trimAscii text ⊆ text := by
  intro byte member
  have ends := (List.dropWhile_sublist _).subset (List.mem_reverse.mp member)
  exact (List.dropWhile_sublist _).subset (List.mem_reverse.mp ends)

theorem inline_textForms (value : List Char)
    : Inline (textForms value) := by
  intro form listed
  obtain ⟨written, among, rfl⟩ := List.mem_map.mp listed
  obtain ⟨line, lines, forms⟩ := List.mem_flatMap.mp among
  obtain ⟨piece, split, rfl⟩ := List.mem_map.mp (List.mem_filter.mp lines).1
  have plain : '\n' ∉ trim piece := fun member => by
    simpa using of_mem_splitOnP split '\n' (trim_subset piece member)
  have escaped (char : Char) (instead : String) (text : List Char) (apart : '\n' ∉ instead.toList)
      (plain : '\n' ∉ text)
      : '\n' ∉ text.flatMap fun own => if own = char then instead.toList else [own] := by
    intro member
    obtain ⟨own, listed, inside⟩ := List.mem_flatMap.mp member
    split_ifs at inside
    · exact apart inside
    · exact plain (List.mem_singleton.mp inside ▸ listed)
  apply newline_not_mem_encodeChars
  have data := escaped '%' "%25" _ (by decide) plain
  rcases List.mem_cons.mp forms with rfl | forms
  · exact plain
  · rcases List.mem_cons.mp forms with rfl | forms
    · exact data
    · obtain rfl := List.mem_singleton.mp forms
      exact escaped ',' "%2C" _ (by decide) (escaped ':' "%3A" _ (by decide) data)

theorem inline_byteForms (value : List UInt8)
    : Inline (byteForms value) := by
  intro form listed
  obtain ⟨piece, split, rfl⟩ := List.mem_map.mp (List.mem_filter.mp listed).1
  intro member
  simpa using of_mem_splitOnP split newline (trimAscii_subset piece member)

theorem inline_asks (commands : Commands) (line : List UInt8)
    : Inline (commands.asks line) := by
  rw [Commands.asks]
  split
  · split_ifs
    · exact inline_textForms _
    · exact inline_byteForms _
  · nofun

theorem inline_new (workspace : Option (List Char)) (credentials : List (List Char)) (debug : Bool)
    : Inline { Commands.new workspace credentials with debug := debug }.masks := by
  intro form listed
  obtain ⟨value, -, among⟩ := mem_new.mp listed
  exact inline_textForms value form among

theorem inline_line {commands : Commands} (within : Inline commands.masks) (line : List UInt8)
    : Inline (commands.line line).2.2.masks := by
  intro form listed
  rcases ((obey_spec commands line).2.2.1 form).mp listed with before | asked
  · exact within form before
  · exact inline_asks commands line form asked

theorem hidden_newline (within : Inline masks) (text : List UInt8)
    : ∃ shown, hidden masks (text ++ [newline]) = shown ++ [newline] := by
  refine ⟨_, showRuns_append_last ?_⟩
  rintro ⟨mask, listed, start, begun, ends, occurs⟩
  apply within mask listed
  have last : mask[text.length - start]? = some newline := by
    rw [List.getElem?_eq_getElem (by omega), occurs.getElem (by omega)]
    have whole : start + (text.length - start) = text.length := by omega
    simp [whole]
  exact List.mem_of_getElem? last

-- Escapes

def escapeChar (table : List (Char × Char × Char)) (char : Char) : List Char :=
  match table.lookup char with
  | some (first, second) => ['%', first, second]
  | none => [char]

def escape (table : List (Char × Char × Char)) (text : List Char) : List Char :=
  text.flatMap (escapeChar table)

def dataEscapes : List (Char × Char × Char) :=
  [('\r', '0', 'D'), ('\n', '0', 'A'), ('%', '2', '5')]

def propertyEscapes : List (Char × Char × Char) :=
  [('\r', '0', 'D'), ('\n', '0', 'A'), (':', '3', 'A'), (',', '2', 'C'), ('%', '2', '5')]

/-- An escape that can be undone before those of a table: no other is written so, and what begins
an escape is itself escaped.
-/
def Undone (char first second : Char) (table : List (Char × Char × Char)) : Prop :=
  table.lookup char = none ∧ (∀ entry ∈ table, entry.2 ≠ (first, second))
    ∧ (∀ entry ∈ (char, first, second) :: table, entry.2.1 ≠ '%' ∧ entry.2.2 ≠ '%')
    ∧ ((char, first, second) :: table).lookup '%' ≠ none

instance (char first second : Char) (table : List (Char × Char × Char))
    : Decidable (Undone char first second table) :=
  inferInstanceAs (Decidable (_ ∧ _))

section Escapes

variable {char first second : Char} {table : List (Char × Char × Char)}

theorem unescapeOne_cons {own : Char} (plain : own ≠ '%') (rest : List Char)
    : unescapeOne ('%', first, second) char (own :: rest)
      = own :: unescapeOne ('%', first, second) char rest := by
  rcases rest with _ | ⟨next, _ | ⟨last, rest⟩⟩
  · rfl
  · rfl
  · rw [unescapeOne, if_neg fun same => plain (Prod.mk.inj same).1]

/-- An escape is undone wherever its character is written so, and nothing else changes: what
precedes a character never begins an escape that the character completes.
-/
theorem unescapeOne_escape (undone : Undone char first second table) (text : List Char)
    : unescapeOne ('%', first, second) char (escape ((char, first, second) :: table) text)
      = escape table text := by
  obtain ⟨unlisted, other, plain, percent⟩ := undone
  induction text with
  | nil => rfl
  | cons own rest ih =>
      rw [escape, escape, List.flatMap_cons, List.flatMap_cons]
      rw [escape, escape] at ih
      by_cases same : own = char
      · subst same
        have this : escapeChar ((own, first, second) :: table) own = ['%', first, second] := by
          simp [escapeChar]
        have that : escapeChar table own = [own] := by simp [escapeChar, unlisted]
        rw [this, that, ← ih]
        simp [unescapeOne]
      · have lookup : ((char, first, second) :: table).lookup own = table.lookup own := by
          rw [List.lookup_cons, beq_false_of_ne same]
        have alike : escapeChar ((char, first, second) :: table) own = escapeChar table own := by
          rw [escapeChar, escapeChar, lookup]
        rw [alike, ← ih, escapeChar]
        cases written : table.lookup own with
        | none =>
            have ordinary : own ≠ '%' := by
              rintro rfl
              exact percent (lookup.trans written)
            exact unescapeOne_cons ordinary _
        | some escape =>
            obtain ⟨one, two⟩ := escape
            have listed : (own, one, two) ∈ table := by
              obtain ⟨before, after, rfl, -⟩ := List.lookup_eq_some_iff.mp written
              simp
            have apart : ('%', one, two) ≠ ('%', first, second) := fun same =>
              other _ listed (Prod.mk.inj same).2
            obtain ⟨one_, two_⟩ := plain _ (List.mem_cons_of_mem _ listed)
            simp only [List.cons_append, List.nil_append]
            rw [unescapeOne, if_neg apart, unescapeOne_cons one_, unescapeOne_cons two_]

theorem escape_nil (text : List Char)
    : escape [] text = text := by
  exact List.flatMap_singleton' text

theorem unescape_dataEscapes (text : List Char)
    : unescape (escape dataEscapes text) false = text := by
  rw [unescape, dataEscapes]
  simp only [Bool.false_eq_true, if_false]
  rw [unescapeOne_escape (by decide), unescapeOne_escape (by decide), unescapeOne_escape (by decide),
    escape_nil]

theorem unescape_propertyEscapes (text : List Char)
    : unescape (escape propertyEscapes text) true = text := by
  rw [unescape, propertyEscapes]
  simp only [if_true]
  rw [unescapeOne_escape (by decide), unescapeOne_escape (by decide), unescapeOne_escape (by decide),
    unescapeOne_escape (by decide), unescapeOne_escape (by decide), escape_nil]

end Escapes

-- What is shown

/-- An annotation whose texts have the union of every masked value's occurrences hidden. -/
def hiddenAnnotation (masks : List (List UInt8)) ( annotation : Annotation) : Annotation :=
  let text (own : List Char) : List Char := fromUtf8Lossy (hidden masks (encodeChars own))
  { annotation with
    path := text annotation.path
    title := text annotation.title
    message := text annotation.message }

theorem maskAnnotation_eq (commands : Commands) ( annotation : Annotation)
    : commands.maskAnnotation annotation = hiddenAnnotation commands.masks annotation := by
  simp only [ Commands.maskAnnotation, hiddenAnnotation, Commands.maskText, masked_eq]

/-- Whatever lines a job's steps have printed, the masks are each form of each credential and of
each value asked for, and of a line and of each text of the annotation it asks for exactly what
they cover is hidden. A text written with escapes is covered as it reads.
-/
theorem masked_values_are_hidden (workspace : Option (List Char)) (credentials : List (List Char))
    (debug : Bool) (before : List (List UInt8)) (line : List UInt8)
    : let start := { Commands.new workspace credentials with debug := debug }
      let (shown, annotation, later) := (start.read before).line line
      (∀ form, form ∈ later.masks ↔ (∃ value ∈ credentials, form ∈ textForms value)
          ∨ ∃ earlier asking after, before ++ [line] = earlier ++ asking :: after
            ∧ form ∈ (start.read earlier).asks asking)
        ∧ shown = hidden later.masks ((start.read before).unmasked line)
        ∧ (∀ said, annotation = some said → ∃ asked,
          readAnnotation start.workspace (trim (fromUtf8Lossy line)) = some asked
            ∧ said = hiddenAnnotation later.masks asked)
        ∧ ∀ text, unescape (escape dataEscapes text) false = text
          ∧ unescape (escape propertyEscapes text) true = text := by
  intro start
  obtain ⟨said, -, -, asked⟩ := obey_spec (start.read before) line
  obtain ⟨-, masks⟩ := read_spec start (before ++ [line])
  have later : start.read (before ++ [line]) = ((start.read before).line line).2.2 :=
    List.foldl_concat ..
  rw [later] at masks
  refine ⟨fun form => ?_, ?_, fun annotation shown => ?_,
    fun text => ⟨unescape_dataEscapes text, unescape_propertyEscapes text⟩⟩
  · exact (masks form).trans (or_congr_left mem_new)
  · rw [← said]
    exact masked_eq _ _
  · obtain ⟨same, command, read, rfl⟩ := asked annotation shown
    refine ⟨command, ?_, ?_⟩
    · rw [← (read_spec start before).1]
      exact read
    · rw [maskAnnotation_eq]
      exact congrArg ( hiddenAnnotation · command) same.symm

/-- A line of a file is a number: the text of a masked value is shown there, though the line that
asked for the annotation holds it.
-/
theorem a_line_number_is_not_hidden
    : let line := bytes "::error line=10::m"
      let (shown, annotation, later) := (Commands.new none ["10".toList]).line line
      bytes "10" ∈ later.masks ∧ Covered later.masks line 13 ∧ Covered later.masks line 14
        ∧ shown = bytes "::error line=***::m"
        ∧ annotation.map Annotation.startLine = some 10
        ∧ annotation.map Annotation.render = some (bytes ("::dagron-ci::annotation::\x7b\"end_line\":10,"
          ++ "\"level\":\"failure\",\"message\":\"m\",\"path\":\".github\",\"start_line\":10,"
          ++ "\"title\":\"\"\x7d")) := by
  decide +kernel

end Dagron.Ci
