import Dagron.Library.Results
import Dagron.Library.Texts
import Dagron.Spec.Duration
import Dagron.Spec.Placeholders

/-! Predicates over a vendor's JSON status: how one is read from its text, what it says of a document, and
how it is written again.
-/

namespace Dagron.Spec.Jsonpred

open Dagron.Library

-- Paths

/-- A path into a document, of keys and indices. -/
structure Path where
  segs
    : List (List Char)
  deriving DecidableEq

def Path.parse (raw : List Char) : Except String Path :=
  let raw := trim raw
  if raw = [] then .error "path is empty"
  else
    let segs := (raw.splitOnP (· == '.')).map trim
    match segs.findIdx? List.isEmpty with
    | some i =>
        .error ("path '" ++ String.ofList raw ++ "' has an empty segment at position " ++ toString (i + 1)
          ++ " — an empty segment is a typo (`a..b`, or a trailing dot), not a wildcard")
    | none => .ok ⟨segs⟩

def getFrom : List (List Char) → Json → Option Json
  | [], doc => some doc
  | seg :: segs, .object fields => (fields.lookup (String.ofList seg)).bind (getFrom segs)
  | seg :: segs, .array items => ((parseU64 seg).bind fun i => items[i]?).bind (getFrom segs)
  | _ :: _, _ => none

def Path.get (path : Path) (doc : Json) : Option Json :=
  getFrom path.segs doc

def Path.display (path : Path) : List Char :=
  ['.'].intercalate path.segs

-- Predicates

/-- One comparison against a path. -/
inductive Predicate where
  | eq (path : Path) (value : List Char)
  | ne (path : Path) (value : List Char)
  | in_ (path : Path) (values : List (List Char))
  deriving DecidableEq

def unquote (text : List Char) : List Char :=
  let text := trim text
  let quoted (quote : Char) : Bool :=
    2 ≤ text.length && text.head? == some quote && text.getLast? == some quote
  if quoted '"' then text.tail.dropLast
  else if quoted '\'' then text.tail.dropLast
  else text

/-- What precedes a keyword that stands between white space and what follows it, in a text of which the
beginning was passed over.
-/
def splitKwFrom (kw : List Char) : Nat → List Char → List Char → Option (List Char × List Char)
  | 0, _, _ => none
  | fuel + 1, passed, rest =>
      match splitOnce kw rest with
      | none => none
      | some (before, after) =>
          let lhs := passed ++ before
          if lhs.getLast?.any isAsciiSpace && after.head?.any isAsciiSpace then some (lhs, after)
          else splitKwFrom kw fuel (lhs ++ kw) after

/-- What precedes and what follows the first occurrence of a keyword between white space. -/
def splitOnceKw (raw kw : List Char) : Option (List Char × List Char) :=
  splitKwFrom kw (raw.length + 1) [] raw

def bracketed (rhs : List Char) : Option (List Char) :=
  (dropStart ['['] rhs).bind (dropEnd [']'])

def listValues (inner : List Char) : List (List Char) :=
  ((inner.splitOnP (· == ',')).map fun value => unquote (trim value)).filter fun value => ¬ value.isEmpty

/-- A membership from what precedes and what follows its keyword. -/
def parseIn (raw lhs rhs : List Char) : Except String Predicate :=
  let rhs := trim rhs
  match bracketed rhs with
  | none =>
      .error ("`in` needs a bracketed list, e.g. `" ++ String.ofList lhs ++ " in [A, B]` — got `"
        ++ String.ofList rhs ++ "`")
  | some inner =>
      let values := listValues inner
      if values = [] then
        .error ("`in []` matches nothing, so the predicate can never hold — list at least one value (in `"
          ++ String.ofList raw ++ "`)")
      else do return .in_ (← Path.parse lhs) values

/-- A comparison from what precedes and what follows its operator. -/
def parseComparison (op : String) (build : Path → List Char → Predicate) (raw lhs rhs : List Char)
    : Except String Predicate :=
  let value := unquote (trim rhs)
  if value = [] then .error ("`" ++ op ++ "` has no right-hand value in `" ++ String.ofList raw ++ "`")
  else do return build (← Path.parse lhs) value

def Predicate.parse (raw : List Char) : Except String Predicate :=
  let raw := trim raw
  if raw = [] then .error "predicate is empty"
  else
    match splitOnceKw raw ['i', 'n'] with
    | some (lhs, rhs) => parseIn raw lhs rhs
    | none =>
        match splitOnce ['=', '='] raw with
        | some (lhs, rhs) => parseComparison "==" .eq raw lhs rhs
        | none =>
            match splitOnce ['!', '='] raw with
            | some (lhs, rhs) => parseComparison "!=" .ne raw lhs rhs
            | none =>
                .error ("cannot parse predicate `" ++ String.ofList raw ++ "` — expected `path == VALUE`, "
                  ++ "`path != VALUE`, or `path in [A, B]` (paths are dotted, e.g. "
                  ++ "`status.applicationState.state`)")

def Predicate.path : Predicate → Path
  | eq path _ => path
  | ne path _ => path
  | in_ path _ => path

/-- A value of a document as the text that a predicate compares. -/
def scalar : Json → Option (List Char)
  | .string text => some text.toList
  | .number text => some text.toList
  | .bool value => some (toString value).toList
  | .null => some "null".toList
  | .object _ => none
  | .array _ => none

/-- Whether a document is as a predicate says; of a path that is not there, no predicate holds. -/
def Predicate.eval (predicate : Predicate) (doc : Json) : Bool :=
  match predicate.path.get doc with
  | none => false
  | some found =>
      let actual := scalar found
      match predicate with
      | eq _ value => actual == some value
      | ne _ value => actual.any fun actual => actual != value
      | in_ _ values => actual.any fun actual => values.any (· == actual)

def Predicate.display : Predicate → List Char
  | eq path value => path.display ++ " == ".toList ++ value
  | ne path value => path.display ++ " != ".toList ++ value
  | in_ path values => path.display ++ " in [".toList ++ [',', ' '].intercalate values ++ [']']

-- Operators

section Operators

variable {pattern text before after : List Char}

theorem splitOnce_least (some_ : pattern ≠ []) (found : splitOnce pattern text = some (before, after))
    (front back : List Char) (occurs : text = front ++ (pattern ++ back))
    : before.length ≤ front.length := by
  induction text generalizing before front with
  | nil =>
      have empty := (List.append_eq_nil_iff.mp occurs.symm).2
      exact absurd (List.append_eq_nil_iff.mp empty).1 some_
  | cons char rest ih =>
      unfold splitOnce at found
      split at found
      case isTrue starts =>
        cases found
        exact Nat.zero_le _
      case isFalse starts =>
        obtain ⟨⟨before', after'⟩, cut, same⟩ := Option.map_eq_some_iff.mp found
        obtain ⟨rfl, rfl⟩ := Prod.mk.inj same
        cases front with
        | nil =>
            have begins : pattern <+: char :: rest := ⟨back, occurs.symm⟩
            exact absurd (List.isPrefixOf_iff_prefix.mpr begins) starts
        | cons other front => exact Nat.succ_le_succ (ih cut _ (List.cons.inj occurs).2)

theorem splitOnce_absent (some_ : pattern ≠ []) (absent : splitOnce pattern text = none)
    : ¬ pattern <:+: text := by
  induction text with
  | nil => exact fun there => some_ (List.infix_nil.mp there)
  | cons char rest ih =>
      have later := ih (splitOnce_tail absent)
      unfold splitOnce at absent
      split at absent
      case isTrue => cases absent
      case isFalse starts =>
        rw [List.infix_cons_iff]
        rintro (begins | there)
        · exact starts (List.isPrefixOf_iff_prefix.mpr begins)
        · exact later there

theorem splitOnce_eq_none (absent : ¬ pattern <:+: text)
    : splitOnce pattern text = none := by
  cases cut : splitOnce pattern text with
  | none => rfl
  | some parts =>
      obtain ⟨before, after⟩ := parts
      exact absurd ⟨before, after, (splitOnce_spec cut).1.symm⟩ absent

theorem splitOnce_before (some_ : pattern ≠ []) (found : splitOnce pattern text = some (before, after))
    : ¬ pattern <:+: before := by
  rintro ⟨front, back, rfl⟩
  have whole := (splitOnce_spec found).1
  have least := splitOnce_least some_ found front (back ++ pattern ++ after)
    (by simpa only [List.append_assoc] using whole)
  have positive := List.length_pos_iff.mpr some_
  simp only [List.length_append] at least
  omega

theorem splitOnce_of_absent (some_ : pattern ≠ []) (absent : ¬ pattern <:+: before ++ pattern.dropLast)
    (after : List Char)
    : splitOnce pattern (before ++ (pattern ++ after)) = some (before, after) := by
  induction before with
  | nil =>
      obtain ⟨char, rest, rfl⟩ := List.exists_cons_of_ne_nil some_
      have begins : (char :: rest).isPrefixOf (char :: (rest ++ after)) :=
        List.isPrefixOf_iff_prefix.mpr (List.prefix_append (char :: rest) after)
      have dropped : (char :: (rest ++ after)).drop (char :: rest).length = after := List.drop_left
      rw [List.nil_append, List.cons_append, splitOnce, if_pos begins, dropped]
  | cons char before ih =>
      have later : ¬ pattern <:+: before ++ pattern.dropLast := fun there =>
        absent (there.trans (List.suffix_cons char _).isInfix)
      rw [List.cons_append, splitOnce, if_neg ?_, ih later, Option.map_some]
      intro starts
      have begins := List.isPrefixOf_iff_prefix.mp starts
      have within : char :: before ++ pattern.dropLast <+: char :: (before ++ (pattern ++ after)) := by
        refine (List.prefix_append_right_inj (char :: before)).mpr ?_
        exact (List.dropLast_prefix pattern).trans (List.prefix_append _ _)
      refine absent (List.prefix_of_prefix_length_le begins within ?_).isInfix
      have positive := List.length_pos_iff.mpr some_
      simp only [List.length_append, List.length_cons, List.length_dropLast]
      omega

end Operators

-- Keywords

section Keywords

/-- The keyword of a membership between two characters. -/
def keyword (first last : Char) : List Char :=
  [first, 'i', 'n', last]

/-- Whether the keyword of a membership is in a text, between white space. -/
def Keyworded (text : List Char) : Prop :=
  ∃ first last, isAsciiSpace first ∧ isAsciiSpace last ∧ keyword first last <:+: text

/-- Whether no keyword in a text begins before what was passed over of it. -/
def Passed (passed text : List Char) : Prop :=
  ∀ first last front back, isAsciiSpace first → isAsciiSpace last →
    text = front ++ (keyword first last ++ back) → passed.length ≤ front.length + 1

theorem Keyworded.mono {part text : List Char} (keyworded : Keyworded part) (within : part <:+: text)
    : Keyworded text := by
  obtain ⟨first, last, space, space', there⟩ := keyworded
  exact ⟨first, last, space, space', there.trans within⟩

theorem Passed.not_keyworded {passed rest : List Char} (clear : Passed passed (passed ++ rest))
    : ¬ Keyworded passed := by
  rintro ⟨first, last, space, space', front, back, rfl⟩
  have late := clear first last front (back ++ rest) space space' (by simp only [List.append_assoc])
  simp only [keyword, List.length_append, List.length_cons] at late
  omega

/-- Where a text is cut at a keyword, or passed over at a word that only looks like it, no keyword begins
before that.
-/
theorem Passed.next {passed before after : List Char} {rest : List Char} (clear : Passed passed (passed ++ rest))
    (cut : splitOnce ['i', 'n'] rest = some (before, after))
    : Passed (passed ++ before) (passed ++ rest)
      ∧ (¬ ((passed ++ before).getLast?.any isAsciiSpace && after.head?.any isAsciiSpace) →
        Passed (passed ++ before ++ ['i', 'n']) (passed ++ rest)) := by
  obtain ⟨whole, -⟩ := splitOnce_spec cut
  -- A keyword in the text is a word of the rest, after what precedes the first of these.
  have later {first last : Char} {front back : List Char} (space : isAsciiSpace first) (space' : isAsciiSpace last)
      (occurs : passed ++ rest = front ++ (keyword first last ++ back))
      : ∃ more, front ++ [first] = passed ++ more ∧ rest = more ++ (['i', 'n'] ++ last :: back)
        ∧ before.length ≤ more.length := by
    have long := clear first last front back space space' occurs
    have parts : passed ++ rest = (front ++ [first]) ++ (['i', 'n'] ++ last :: back) := by
      rw [occurs]
      simp [keyword]
    obtain ⟨more, split, ended⟩ | ⟨more, split, ended⟩ := List.append_eq_append_iff.mp parts
    · exact ⟨more, split, ended, splitOnce_least (List.cons_ne_nil _ _) cut _ _ ended⟩
    · have none_ : more = [] := by
        have sizes := congrArg List.length split
        simp only [List.length_append, List.length_singleton] at sizes
        exact List.length_eq_zero_iff.mp (by omega)
      subst none_
      rw [List.append_nil] at split
      rw [List.nil_append] at ended
      exact ⟨[], by rw [split, List.append_nil], ended.symm,
        splitOnce_least (List.cons_ne_nil _ _) cut [] _ ended.symm⟩
  constructor
  · intro first last front back space space' occurs
    obtain ⟨more, split, -, least⟩ := later space space' occurs
    have sizes := congrArg List.length split
    simp only [List.length_append, List.length_singleton] at sizes ⊢
    omega
  · intro other first last front back space space' occurs
    obtain ⟨more, split, ended, least⟩ := later space space' occurs
    have sizes := congrArg List.length split
    simp only [List.length_append, List.length_cons, List.length_nil] at sizes ⊢
    have begins : before <+: rest := ⟨['i', 'n'] ++ after, by rw [whole, List.append_assoc]⟩
    obtain ⟨gap, rfl⟩ := List.prefix_of_prefix_length_le begins ⟨_, ended.symm⟩ least
    rw [whole, List.append_assoc, List.append_assoc, List.append_cancel_left_eq] at ended
    match gap, ended with
    | [], ended =>
        have after_ : after = last :: back := List.append_cancel_left ended
        refine absurd ?_ other
        rw [List.append_nil] at split
        simp [← split, after_, space, space']
    | [_], ended => simp at ended
    | _ :: _ :: gap, ended =>
        simp only [List.length_append, List.length_cons] at sizes
        omega

theorem splitKwFrom_spec {fuel : Nat} {passed rest : List Char} (enough : rest.length < fuel)
    (clear : Passed passed (passed ++ rest))
    : (splitKwFrom ['i', 'n'] fuel passed rest = none ∧ ¬ Keyworded (passed ++ rest))
      ∨ ∃ lhs after, splitKwFrom ['i', 'n'] fuel passed rest = some (lhs, after)
        ∧ passed ++ rest = lhs ++ (['i', 'n'] ++ after) ∧ lhs.getLast?.any isAsciiSpace
        ∧ after.head?.any isAsciiSpace ∧ ¬ Keyworded lhs := by
  induction fuel generalizing passed rest with
  | zero => exact absurd enough (Nat.not_lt_zero _)
  | succ fuel ih =>
      rw [splitKwFrom]
      split
      next absent =>
        refine .inl ⟨rfl, ?_⟩
        rintro ⟨first, last, space, space', front, back, whole⟩
        rw [List.append_assoc] at whole
        have long := clear first last front back space space' whole.symm
        refine splitOnce_absent (List.cons_ne_nil _ _) absent ?_
        have parts : (front ++ [first]) ++ (['i', 'n'] ++ last :: back) = passed ++ rest := by
          rw [← whole]
          simp [keyword]
        have ended : ['i', 'n'] ++ last :: back <:+ rest := by
          refine List.suffix_of_suffix_length_le ⟨_, parts⟩ (List.suffix_append passed rest) ?_
          have sizes := congrArg List.length parts
          simp only [List.length_append, List.length_singleton] at sizes
          simp only [List.length_append]
          omega
        exact (List.prefix_append _ _).isInfix.trans ended.isInfix
      next before after cut =>
        obtain ⟨whole, -⟩ := splitOnce_spec cut
        have parts : passed ++ rest = (passed ++ before) ++ (['i', 'n'] ++ after) := by
          rw [whole]
          simp only [List.append_assoc]
        dsimp only
        split
        next marked =>
          have clear_ := (clear.next cut).1
          rw [parts] at clear_
          rw [Bool.and_eq_true] at marked
          exact .inr ⟨_, after, rfl, parts, marked.1, marked.2, clear_.not_keyworded⟩
        next other =>
          have sizes := congrArg List.length whole
          simp only [List.length_append, List.length_cons] at sizes
          have clear_ := (clear.next cut).2 other
          rw [parts, ← List.append_assoc] at clear_
          rw [parts, ← List.append_assoc]
          exact ih (by omega) clear_

theorem splitOnceKw_spec (raw : List Char)
    : (splitOnceKw raw ['i', 'n'] = none ∧ ¬ Keyworded raw)
      ∨ ∃ lhs after, splitOnceKw raw ['i', 'n'] = some (lhs, after) ∧ raw = lhs ++ (['i', 'n'] ++ after)
        ∧ lhs.getLast?.any isAsciiSpace ∧ after.head?.any isAsciiSpace ∧ ¬ Keyworded lhs :=
  splitKwFrom_spec (Nat.lt_succ_self _) fun _ _ _ _ _ _ _ => Nat.zero_le _

theorem ends_of_any {text : List Char} (space : text.getLast?.any isAsciiSpace)
    : ∃ front first, text = front ++ [first] ∧ isAsciiSpace first := by
  cases is_ : text.getLast? with
  | none => rw [is_] at space; cases space
  | some first =>
      rw [is_] at space
      obtain ⟨front, whole⟩ := List.getLast?_eq_some_iff.mp is_
      exact ⟨front, first, whole, space⟩

theorem begins_of_any {text : List Char} (space : text.head?.any isAsciiSpace)
    : ∃ last rest, text = last :: rest ∧ isAsciiSpace last := by
  cases text with
  | nil => cases space
  | cons last rest => exact ⟨last, rest, rfl, space⟩

theorem keyword_unique {lhs lhs' after after' : List Char} (space : lhs.getLast?.any isAsciiSpace)
    (spaced : after.head?.any isAsciiSpace) (clear' : ¬ Keyworded lhs')
    (same : lhs ++ (['i', 'n'] ++ after) = lhs' ++ (['i', 'n'] ++ after'))
    : lhs'.length ≤ lhs.length := by
  by_contra longer
  obtain ⟨more, rfl, ended⟩ | ⟨more, rfl, -⟩ := List.append_eq_append_iff.mp same
  · match more, ended with
    | [], _ => simp at longer
    | [_], ended => simp at ended
    | i :: n :: more, ended =>
        obtain ⟨rfl, rfl, begun⟩ : 'i' = i ∧ 'n' = n ∧ after = more ++ (['i', 'n'] ++ after') := by
          simpa using ended
        obtain ⟨front, first, rfl, white⟩ := ends_of_any space
        match more, begun with
        | [], begun =>
            subst begun
            exact absurd (show isAsciiSpace 'i' from spaced) (by decide)
        | last :: more, begun =>
            have space' : isAsciiSpace last := by simpa [begun] using spaced
            exact clear' ⟨first, last, white, space', front, more, by simp [keyword]⟩
  · simp at longer

theorem splitOnceKw_of_clear (lhs after : List Char) (space : lhs.getLast?.any isAsciiSpace)
    (spaced : after.head?.any isAsciiSpace) (clear : ¬ Keyworded lhs)
    : splitOnceKw (lhs ++ (['i', 'n'] ++ after)) ['i', 'n'] = some (lhs, after) := by
  obtain ⟨-, absent⟩ | ⟨lhs', after', cut, same, space', spaced', clear'⟩ := splitOnceKw_spec (lhs ++ (['i', 'n'] ++ after))
  · refine absurd ?_ absent
    obtain ⟨front, first, rfl, white⟩ := ends_of_any space
    obtain ⟨last, rest, rfl, space'⟩ := begins_of_any spaced
    exact ⟨first, last, white, space', front, rest, by simp [keyword]⟩
  · have sizes := Nat.le_antisymm (keyword_unique space spaced clear' same) (keyword_unique space' spaced' clear same.symm)
    obtain ⟨rfl, ended⟩ := List.append_inj same sizes.symm
    obtain rfl := List.append_cancel_left ended
    exact cut

end Keywords

-- Paths that are read back

/-- What a path's keys are as a path is read: there are some, none is empty, and none has a point in it or white
space at its ends.
-/
structure Path.Written (path : Path) : Prop where
  some_
    : path.segs ≠ []
  each
    : ∀ seg ∈ path.segs, seg ≠ [] ∧ trim seg = seg ∧ '.' ∉ seg

theorem Path.written_of_parse {raw : List Char} {path : Path} (parsed : Path.parse raw = .ok path)
    : path.Written ∧ ∀ seg ∈ path.segs, seg <:+: raw := by
  rw [Path.parse] at parsed
  split at parsed
  next => cases parsed
  next =>
    dsimp only at parsed
    split at parsed
    next => cases parsed
    next none_ =>
      obtain rfl := Except.ok.inj parsed
      rw [List.findIdx?_eq_none_iff] at none_
      have made {seg : List Char} (there : seg ∈ ((trim raw).splitOnP (· == '.')).map trim)
          : ∃ piece, piece <:+: trim raw ∧ '.' ∉ piece ∧ trim piece = seg := by
        obtain ⟨piece, member, is_⟩ := List.mem_map.mp there
        obtain ⟨within, plain⟩ := splitOnP_piece member
        exact ⟨piece, within, fun point => by simpa using plain '.' point, is_⟩
      refine ⟨⟨by simp [List.splitOnP_ne_nil], fun seg there => ?_⟩, fun seg there => ?_⟩
      · obtain ⟨piece, -, plain, rfl⟩ := made there
        refine ⟨by simpa using none_ _ there, strip_strip piece, fun point => plain ?_⟩
        exact (strip_within piece).subset point
      · obtain ⟨piece, within, -, rfl⟩ := made there
        exact (strip_within piece).trans (within.trans (strip_within raw))

theorem Path.infix_of_display {raw word : List Char} {path : Path} (parsed : Path.parse raw = .ok path)
    (some_ : word ≠ []) (plain : '.' ∉ word) (there : word <:+: path.display)
    : word <:+: raw := by
  obtain ⟨seg, member, within⟩ := infix_of_infix_joined some_ plain there
  exact within.trans ((written_of_parse parsed).2 seg member)

theorem Path.Written.display_ne_nil {path : Path} (written : path.Written)
    : path.display ≠ [] := by
  obtain ⟨seg, rest, segs⟩ := List.exists_cons_of_ne_nil written.some_
  have first := (written.each seg (segs ▸ List.mem_cons_self)).1
  rw [Path.display, segs]
  cases rest with
  | nil => rwa [List.intercalate_singleton]
  | cons next rest => simp [List.intercalate_cons_cons]

theorem Path.Written.trim_display {path : Path} (written : path.Written)
    : trim path.display = path.display :=
  strip_joined (fun seg there => (written.each seg there).1) (fun seg there => (written.each seg there).2.1)

theorem Path.Written.parse_display {path : Path} (written : path.Written)
    : Path.parse (path.display ++ [' ']) = .ok path := by
  have text : trim (path.display ++ [' ']) = path.display :=
    (strip_append_blanks (List.forall_mem_singleton.mpr rfl) path.display).trans written.trim_display
  have plain (seg : List Char) (there : seg ∈ path.segs) (char : Char) (within : char ∈ seg)
      : (char == '.') = false := by
    have other : char ≠ '.' := fun same => (written.each seg there).2.2 (same ▸ within)
    simpa using other
  have segs : (path.display.splitOnP (· == '.')).map trim = path.segs := by
    rw [Path.display, splitOnP_joined (· == '.') (by decide) plain written.some_,
      List.map_congr_left (fun seg there => (written.each seg there).2.1), List.map_id']
  have none_ : path.segs.findIdx? List.isEmpty = none := by
    rw [List.findIdx?_eq_none_iff]
    exact fun seg there => by simpa using (written.each seg there).1
  rw [Path.parse, text, if_neg written.display_ne_nil]
  dsimp only
  rw [segs, none_]

-- Values that are read back

theorem trim_eq_strip (text : List Char)
    : trim text = strip isSpace text :=
  rfl

theorem unquote_trim (value : List Char)
    : unquote (trim value) = unquote value := by
  have twice : trim (trim value) = trim value := strip_strip value
  rw [unquote, unquote, twice]

theorem unquote_within (value : List Char)
    : unquote value <:+: trim value := by
  have inner : (trim value).tail.dropLast <:+: trim value :=
    (List.dropLast_prefix _).isInfix.trans (List.tail_suffix _).isInfix
  rw [unquote]
  dsimp only
  split
  · exact inner
  · split
    · exact inner
    · exact List.infix_rfl

theorem trim_of_unquote {value : List Char} (whole : unquote value = value)
    : trim value = value := by
  have within := (unquote_within value).length_le
  rw [whole] at within
  exact (strip_within value).eq_of_length_le within

/-- Values that are read one by one are all read back exactly where each of them is its own reading. -/
theorem filter_unquote_eq_self {values : List (List Char)} (some_ : ∀ value ∈ values, value ≠ [])
    : (values.map unquote).filter (fun value => ¬ value.isEmpty) = values
      ↔ ∀ value ∈ values, unquote value = value := by
  constructor
  · intro same
    have size : ((values.map unquote).filter fun value => ¬ value.isEmpty).length = (values.map unquote).length := by
      rw [same, List.length_map]
    rw [List.filter_eq_self.mpr (List.length_filter_eq_length_iff.mp size)] at same
    exact List.map_inj_left.mp (same.trans (List.map_id values).symm)
  · intro each
    rw [List.map_congr_left each, List.map_id', List.filter_eq_self]
    intro value there
    simpa using some_ value there

theorem listValues_joined {values : List (List Char)} (some_ : values ≠ [])
    (plain : ∀ value ∈ values, ',' ∉ value)
    : listValues ([',', ' '].intercalate values) = (values.map unquote).filter fun value => ¬ value.isEmpty := by
  have skips (value : List Char) : unquote (trim ([' '] ++ value)) = unquote (trim value) := by
    have same : trim ([' '] ++ value) = trim value := strip_blanks_append [' '] (List.forall_mem_singleton.mpr rfl) value
    rw [same]
  have apart (value : List Char) (there : value ∈ values) (char : Char) (within : char ∈ value)
      : (char == ',') = false := by
    have other : char ≠ ',' := fun same => plain value there (same ▸ within)
    simpa using other
  have read := map_splitOnP_joined (· == ',') ',' (fun value => unquote (trim value)) [' '] (by decide)
    (List.forall_mem_singleton.mpr rfl) skips apart some_
  rw [listValues, read, List.map_congr_left fun value _ => unquote_trim value]

-- Texts with a keyword in them

/-- Whether the text of a path ends like the keyword of a membership. -/
def Path.EndsKeyworded (path : Path) : Prop :=
  ∃ front first, isAsciiSpace first ∧ path.display = front ++ [first, 'i', 'n']

/-- Whether a value begins like the keyword of a membership. -/
def BeginsKeyworded (value : List Char) : Prop :=
  ∃ last rest, isAsciiSpace last ∧ value = 'i' :: 'n' :: last :: rest

theorem not_mem_keyword {first last other : Char} (space : isAsciiSpace first) (space' : isAsciiSpace last)
    (seen : isAsciiSpace other = false) (letters : other ≠ 'i' ∧ other ≠ 'n')
    : other ∉ keyword first last := by
  have differ {white : Char} (space : isAsciiSpace white) : other ≠ white := by
    rintro rfl
    exact absurd seen (by rw [space]; decide)
  simp only [keyword, List.mem_cons, List.not_mem_nil, or_false, not_or]
  exact ⟨differ space, letters.1, letters.2, differ space'⟩

theorem keyworded_path {path : Path} (clear : ¬ Keyworded path.display)
    : Keyworded (path.display ++ [' ']) ↔ path.EndsKeyworded := by
  constructor
  · rintro ⟨first, last, space, space', there⟩
    obtain ⟨front, back, whole⟩ := there
    cases back using List.reverseRecOn with
    | nil =>
        rw [List.append_nil] at whole
        have parts : (front ++ [first, 'i', 'n']) ++ [last] = path.display ++ [' '] := by
          rw [← whole]
          simp [keyword]
        exact ⟨front, first, space, (List.append_inj_left' parts rfl).symm⟩
    | append_singleton back char =>
        rw [← List.append_assoc] at whole
        refine absurd ?_ clear
        exact ⟨first, last, space, space', front, back, List.append_inj_left' whole rfl⟩
  · rintro ⟨front, first, space, ends⟩
    exact ⟨first, ' ', space, by decide, front, [], by rw [ends]; simp [keyword]⟩

theorem keyworded_value {value : List Char} (clear : ¬ Keyworded value)
    : Keyworded (' ' :: value) ↔ BeginsKeyworded value := by
  constructor
  · rintro ⟨first, last, space, space', there⟩
    obtain begins | later := List.infix_cons_iff.mp there
    · obtain ⟨back, whole⟩ := begins
      obtain ⟨-, rest⟩ := List.cons.inj whole
      exact ⟨last, back, space', rest.symm⟩
    · exact absurd ⟨first, last, space, space', later⟩ clear
  · rintro ⟨last, rest, space, rfl⟩
    exact ⟨' ', last, by decide, space, [], rest, rfl⟩

/-- What a comparison is written as, with its operator's first character. -/
def comparisonText (path : Path) (op : Char) (value : List Char) : List Char :=
  path.display ++ ' ' :: op :: '=' :: ' ' :: value

/-- A written comparison has a keyword in it exactly where its path ends like one or its value begins so. -/
theorem keyworded_comparison {path : Path} {op : Char} {value : List Char} (clear : ¬ Keyworded path.display)
    (clear' : ¬ Keyworded value) (sign : isAsciiSpace op = false ∧ op ≠ 'i' ∧ op ≠ 'n')
    : Keyworded (comparisonText path op value) ↔ path.EndsKeyworded ∨ BeginsKeyworded value := by
  rw [← keyworded_path clear, ← keyworded_value clear']
  have parts : comparisonText path op value = (path.display ++ [' ']) ++ op :: ([] ++ '=' :: ' ' :: value) := by
    simp [comparisonText]
  constructor
  · rintro ⟨first, last, space, space', there⟩
    rw [parts] at there
    obtain before | after := infix_of_infix_append_cons (not_mem_keyword space space' sign.1 sign.2) there
    · exact .inl ⟨first, last, space, space', before⟩
    · obtain none_ | after := infix_of_infix_append_cons
        (not_mem_keyword space space' (by decide) (by decide) : '=' ∉ keyword first last) after
      · exact absurd (List.infix_nil.mp none_) (List.cons_ne_nil _ _)
      · exact .inr ⟨first, last, space, space', after⟩
  · rw [parts]
    rintro (before | after)
    · exact before.mono (List.prefix_append _ _).isInfix
    · exact after.mono ((List.suffix_cons _ _).trans ((List.suffix_cons _ _).trans
        (List.suffix_append _ _))).isInfix

-- What is read

theorem parseIn_eq_ok {raw lhs rhs : List Char} {predicate : Predicate}
    : parseIn raw lhs rhs = .ok predicate
      ↔ ∃ inner path, bracketed (trim rhs) = some inner ∧ listValues inner ≠ [] ∧ Path.parse lhs = .ok path
        ∧ predicate = .in_ path (listValues inner) := by
  rw [parseIn]
  dsimp only
  cases bracketed (trim rhs) with
  | none => exact ⟨nofun, fun ⟨_, _, none_, _⟩ => nomatch none_⟩
  | some inner =>
      dsimp only
      by_cases none_ : listValues inner = []
      · rw [if_pos none_]
        refine ⟨nofun, ?_⟩
        rintro ⟨_, path, same, some_, -⟩
        exact absurd (Option.some.inj same ▸ none_) some_
      · rw [if_neg none_, bind_eq_ok_iff]
        constructor
        · rintro ⟨path, parsed, made⟩
          exact ⟨inner, path, rfl, none_, parsed, (Except.ok.inj made).symm⟩
        · rintro ⟨_, path, same, -, parsed, rfl⟩
          obtain rfl := Option.some.inj same
          exact ⟨path, parsed, rfl⟩

theorem parseComparison_eq_ok {op : String} {build : Path → List Char → Predicate} {raw lhs rhs : List Char}
    {predicate : Predicate}
    : parseComparison op build raw lhs rhs = .ok predicate
      ↔ ∃ path, unquote (trim rhs) ≠ [] ∧ Path.parse lhs = .ok path
        ∧ predicate = build path (unquote (trim rhs)) := by
  rw [parseComparison]
  by_cases none_ : unquote (trim rhs) = []
  · rw [if_pos none_]
    exact ⟨nofun, fun ⟨_, some_, _⟩ => absurd none_ some_⟩
  · rw [if_neg none_, bind_eq_ok_iff]
    constructor
    · rintro ⟨path, parsed, made⟩
      exact ⟨path, none_, parsed, (Except.ok.inj made).symm⟩
    · rintro ⟨path, -, parsed, rfl⟩
      exact ⟨path, parsed, rfl⟩

/-- A text that is read as a predicate is a membership at its first keyword, or one of the comparisons where it
has none.
-/
theorem parse_eq_ok {raw : List Char} {predicate : Predicate}
    : Predicate.parse raw = .ok predicate
      ↔ (∃ lhs rhs, splitOnceKw (trim raw) ['i', 'n'] = some (lhs, rhs)
          ∧ parseIn (trim raw) lhs rhs = .ok predicate)
        ∨ splitOnceKw (trim raw) ['i', 'n'] = none
          ∧ ((∃ lhs rhs, splitOnce ['=', '='] (trim raw) = some (lhs, rhs)
              ∧ parseComparison "==" .eq (trim raw) lhs rhs = .ok predicate)
            ∨ splitOnce ['=', '='] (trim raw) = none
              ∧ ∃ lhs rhs, splitOnce ['!', '='] (trim raw) = some (lhs, rhs)
                ∧ parseComparison "!=" .ne (trim raw) lhs rhs = .ok predicate) := by
  rw [Predicate.parse]
  by_cases none_ : trim raw = []
  · rw [if_pos none_, none_]
    simp [splitOnceKw, splitKwFrom, splitOnce]
  · rw [if_neg none_]
    rcases splitOnceKw (trim raw) ['i', 'n'] with _ | ⟨lhs, rhs⟩
    · rcases splitOnce ['=', '='] (trim raw) with _ | ⟨lhs, rhs⟩
      · rcases splitOnce ['!', '='] (trim raw) with _ | ⟨lhs, rhs⟩ <;> simp
      · simp
    · simp

theorem splitOnceKw_none {raw : List Char}
    : splitOnceKw raw ['i', 'n'] = none ↔ ¬ Keyworded raw := by
  obtain ⟨none_, clear⟩ | ⟨lhs, after, cut, rfl, space, spaced, -⟩ := splitOnceKw_spec raw
  · exact iff_of_true none_ clear
  · obtain ⟨front, first, rfl, white⟩ := ends_of_any space
    obtain ⟨last, rest, rfl, white'⟩ := begins_of_any spaced
    refine iff_of_false (by rw [cut]; nofun) fun clear => clear ?_
    exact ⟨first, last, white, white', front, rest, by simp [keyword]⟩

-- Comparisons

/-- What a comparison's path and value are as it is read: neither has a keyword in it, nor the path its operator,
and there is a value.
-/
structure Compared (path : Path) (op : Char) (value : List Char) : Prop where
  written
    : path.Written
  clear
    : ¬ Keyworded path.display
  unsigned
    : ¬ [op, '='] <:+: path.display
  some_
    : value ≠ []
  plain
    : ¬ Keyworded value

theorem Path.Written.first {path : Path} (written : path.Written) (rest : List Char)
    : ∀ char ∈ (path.display ++ rest).head?, isSpace char = false := by
  intro char is_
  obtain ⟨first, more, whole⟩ := List.exists_cons_of_ne_nil written.display_ne_nil
  have seen := (strip_ends isSpace path.display).1
  rw [← trim_eq_strip, written.trim_display] at seen
  refine seen char ?_
  rw [whole] at is_ ⊢
  exact is_

theorem compared_of_split {raw lhs rhs : List Char} {op : Char} {path : Path} (sign : op ≠ '.')
    (clear : ¬ Keyworded raw) (cut : splitOnce [op, '='] raw = some (lhs, rhs))
    (some_ : unquote (trim rhs) ≠ []) (parsed : Path.parse lhs = .ok path)
    : Compared path op (unquote (trim rhs)) := by
  obtain ⟨rfl, -⟩ := splitOnce_spec cut
  have left : lhs <:+: lhs ++ [op, '='] ++ rhs := ⟨[], [op, '='] ++ rhs, by simp⟩
  have right : unquote (trim rhs) <:+: lhs ++ [op, '='] ++ rhs :=
    (unquote_within _).trans ((strip_within _).trans ((strip_within rhs).trans (List.suffix_append _ _).isInfix))
  refine ⟨(Path.written_of_parse parsed).1, ?_, ?_, some_, fun keyworded => clear (keyworded.mono right)⟩
  · rintro ⟨first, last, space, space', there⟩
    have within := Path.infix_of_display parsed (List.cons_ne_nil _ _)
      (not_mem_keyword space space' (by decide) (by decide)) there
    exact clear ⟨first, last, space, space', within.trans left⟩
  · intro there
    refine splitOnce_before (List.cons_ne_nil _ _) cut (Path.infix_of_display parsed (List.cons_ne_nil _ _) ?_ there)
    simp [sign.symm]

theorem trim_comparison {path : Path} (op : Char) (value : List Char) (written : path.Written)
    : ∃ rest, trim (comparisonText path op value) = path.display ++ ' ' :: op :: '=' :: rest
        ∧ trim rest = trim value := by
  obtain ⟨kept, blanks, rfl, white, last⟩ := exists_blanks isSpace value
  have value_ : trim (kept ++ blanks) = trim kept := strip_append_blanks white kept
  have text : trim (comparisonText path op (kept ++ blanks)) = trim (comparisonText path op kept) := by
    have parts : comparisonText path op (kept ++ blanks) = comparisonText path op kept ++ blanks := by
      simp [comparisonText]
    rw [parts]
    exact strip_append_blanks white _
  cases kept using List.reverseRecOn with
  | nil =>
      have parts : comparisonText path op [] = (path.display ++ [' ', op, '=']) ++ [' '] := by
        simp [comparisonText]
      have short : trim (comparisonText path op []) = path.display ++ [' ', op, '='] := by
        rw [parts]
        refine (strip_append_blanks (List.forall_mem_singleton.mpr rfl) _).trans (strip_eq_self (written.first _) fun char is_ => ?_)
        obtain rfl : '=' = char := by simpa using is_
        decide
      exact ⟨[], text.trans short, value_.symm⟩
  | append_singleton kept char =>
      have parts : comparisonText path op (kept ++ [char])
          = path.display ++ ' ' :: op :: '=' :: ' ' :: (kept ++ [char]) := rfl
      refine ⟨' ' :: (kept ++ [char]), text.trans ?_, ?_⟩
      · rw [parts]
        refine strip_eq_self (written.first _) fun other is_ => last other ?_
        have ends : (path.display ++ ' ' :: op :: '=' :: ' ' :: (kept ++ [char]))
            = (path.display ++ ' ' :: op :: '=' :: ' ' :: kept) ++ [char] := by simp
        rw [ends, List.getLast?_concat] at is_
        rw [List.getLast?_concat]
        exact is_
      · rw [value_]
        exact strip_blanks_append [' '] (List.forall_mem_singleton.mpr rfl) _

theorem splitOnce_comparison {path : Path} {op : Char} (sign : op ≠ ' ') (unsigned : ¬ [op, '='] <:+: path.display)
    (rest : List Char)
    : splitOnce [op, '='] (path.display ++ ' ' :: op :: '=' :: rest) = some (path.display ++ [' '], rest) := by
  have cut := @splitOnce_of_absent [op, '='] (path.display ++ [' ']) (List.cons_ne_nil _ _) ?_ rest
  · simpa using cut
  · rw [List.append_assoc, List.singleton_append]
    intro there
    obtain before | after := infix_of_infix_append_cons (by simp [sign.symm]) there
    · exact unsigned before
    · have size := after.length_le
      simp at size

/-- A written comparison is read as itself exactly where it has no keyword in it and its value is its own reading. -/
theorem parseComparison_display {path : Path} {op : Char} {value : List Char} (text : String)
    (build : Path → List Char → Predicate) (injective : ∀ path value path' value',
      build path value = build path' value' → value = value')
    (sign : op ≠ ' ') (compared : Compared path op value)
    : (∃ lhs rhs, splitOnce [op, '='] (trim (comparisonText path op value)) = some (lhs, rhs)
        ∧ parseComparison text build (trim (comparisonText path op value)) lhs rhs = .ok (build path value))
      ↔ unquote value = value := by
  obtain ⟨rest, trimmed, same⟩ := trim_comparison op value compared.written
  have reading : unquote (trim rest) = unquote value := by rw [same, unquote_trim]
  rw [trimmed, splitOnce_comparison sign compared.unsigned]
  constructor
  · rintro ⟨lhs, rhs, cut, parsed⟩
    obtain ⟨rfl, rfl⟩ := Prod.mk.inj (Option.some.inj cut)
    obtain ⟨_, -, -, is_⟩ := parseComparison_eq_ok.mp parsed
    rw [← reading]
    exact (injective _ _ _ _ is_).symm
  · intro whole
    refine ⟨_, _, rfl, parseComparison_eq_ok.mpr ⟨path, ?_, compared.written.parse_display, ?_⟩⟩
    · rw [reading, whole]
      exact compared.some_
    · rw [reading, whole]

theorem trim_comparison_whole {path : Path} {op : Char} {value : List Char} (written : path.Written)
    (some_ : value ≠ []) (whole : trim value = value)
    : trim (comparisonText path op value) = comparisonText path op value := by
  obtain ⟨kept, char, rfl⟩ := (List.eq_nil_or_concat' value).resolve_left some_
  have parts : comparisonText path op (kept ++ [char])
      = (path.display ++ ' ' :: op :: '=' :: ' ' :: kept) ++ [char] := by simp [comparisonText]
  refine strip_eq_self (written.first _) fun other is_ => ?_
  rw [parts, List.getLast?_concat] at is_
  have last := (strip_ends isSpace (kept ++ [char])).2 other
  rw [← trim_eq_strip, whole, List.getLast?_concat] at last
  exact last is_

theorem keyword_free_comparison {path : Path} {op : Char} {value : List Char} (compared : Compared path op value)
    (sign : isAsciiSpace op = false ∧ op ≠ 'i' ∧ op ≠ 'n')
    : splitOnceKw (trim (comparisonText path op value)) ['i', 'n'] = none ∧ unquote value = value
      ↔ ¬ path.EndsKeyworded ∧ ¬ BeginsKeyworded value ∧ unquote value = value := by
  rw [← and_assoc]
  refine and_congr_left fun whole => ?_
  rw [trim_comparison_whole compared.written compared.some_ (trim_of_unquote whole), splitOnceKw_none,
    keyworded_comparison compared.clear compared.plain sign, not_or]

-- Memberships

/-- What a membership's path and values are as it is read: the path has no keyword in it, and there are values,
none of them empty or with a comma in it.
-/
structure Listed (path : Path) (values : List (List Char)) : Prop where
  written
    : path.Written
  clear
    : ¬ Keyworded path.display
  some_
    : values ≠ []
  each
    : ∀ value ∈ values, value ≠ [] ∧ ',' ∉ value

theorem listed_of_split {raw lhs rhs inner : List Char} {path : Path}
    (cut : splitOnceKw raw ['i', 'n'] = some (lhs, rhs)) (some_ : listValues inner ≠ [])
    (parsed : Path.parse lhs = .ok path)
    : Listed path (listValues inner) := by
  refine ⟨(Path.written_of_parse parsed).1, ?_, some_, fun value there => ?_⟩
  · obtain ⟨none_, -⟩ | ⟨lhs', _, cut', -, -, -, clear⟩ := splitOnceKw_spec raw
    · rw [none_] at cut
      cases cut
    · rintro ⟨first, last, space, space', there⟩
      obtain ⟨rfl, -⟩ := Prod.mk.inj (Option.some.inj (cut'.symm.trans cut))
      have within := Path.infix_of_display parsed (List.cons_ne_nil _ _)
        (not_mem_keyword space space' (by decide) (by decide)) there
      exact clear ⟨first, last, space, space', within⟩
  · obtain ⟨made, full⟩ := List.mem_filter.mp there
    obtain ⟨piece, member, rfl⟩ := List.mem_map.mp made
    refine ⟨by simpa using full, fun comma => ?_⟩
    have within := ((unquote_within _).trans ((strip_within _).trans (strip_within piece))).subset comma
    simpa using (splitOnP_piece member).2 ',' within

theorem trim_list {path : Path} (written : path.Written) (inner : List Char)
    : trim (path.display ++ " in [".toList ++ inner ++ [']']) = path.display ++ " in [".toList ++ inner ++ [']'] := by
  refine strip_eq_self ?_ fun char is_ => ?_
  · rw [List.append_assoc, List.append_assoc]
    exact written.first _
  · rw [List.getLast?_concat] at is_
    obtain rfl := Option.some.inj is_
    decide

theorem trim_closed {first : Char} (plain : isSpace first = false) (inner : List Char)
    : trim (' ' :: first :: (inner ++ [']'])) = first :: (inner ++ [']']) := by
  refine (strip_blanks_append [' '] (List.forall_mem_singleton.mpr rfl) (first :: (inner ++ [']']))).trans ?_
  refine strip_eq_self (fun char is_ => ?_) (fun char is_ => ?_)
  · obtain rfl := Option.some.inj is_
    exact plain
  · rw [← List.cons_append, List.getLast?_concat] at is_
    obtain rfl := Option.some.inj is_
    decide

theorem bracketed_list (inner : List Char)
    : bracketed (trim (" [".toList ++ inner ++ [']'])) = some inner := by
  have text : trim (" [".toList ++ inner ++ [']']) = '[' :: (inner ++ [']']) := trim_closed rfl inner
  rw [text]
  simp [bracketed, dropStart, dropEnd]

/-- A written membership is read as itself exactly where its path does not end like a keyword and each of its
values is its own reading.
-/
theorem parse_display_in {path : Path} {values : List (List Char)} (listed : Listed path values)
    : Predicate.parse (Predicate.display (.in_ path values)) = .ok (.in_ path values)
      ↔ ¬ path.EndsKeyworded ∧ ∀ value ∈ values, unquote value = value := by
  have text : trim (Predicate.display (.in_ path values)) = Predicate.display (.in_ path values) :=
    trim_list listed.written _
  have read : listValues ([',', ' '].intercalate values)
      = (values.map unquote).filter fun value => ¬ value.isEmpty :=
    listValues_joined listed.some_ fun value there => (listed.each value there).2
  rw [parse_eq_ok, text]
  by_cases ends : path.EndsKeyworded
  · refine iff_of_false ?_ fun both => both.1 ends
    obtain ⟨front, first, space, whole⟩ := ends
    have parts : Predicate.display (.in_ path values)
        = (front ++ [first]) ++ (['i', 'n'] ++ (" in [".toList ++ [',', ' '].intercalate values ++ [']'])) := by
      simp [Predicate.display, whole]
    have cut := splitOnceKw_of_clear (front ++ [first])
      (" in [".toList ++ [',', ' '].intercalate values ++ [']']) (by simpa using space) (by rfl)
      fun keyworded => listed.clear (keyworded.mono ⟨[], ['i', 'n'], by simp [whole]⟩)
    rw [parts, cut]
    rintro (⟨lhs, rhs, same, parsed⟩ | ⟨none_, -⟩)
    · obtain ⟨rfl, rfl⟩ := Prod.mk.inj (Option.some.inj same)
      obtain ⟨inner, -, brackets, -⟩ := parseIn_eq_ok.mp parsed
      have begun : trim (" in [".toList ++ [',', ' '].intercalate values ++ [']'])
          = 'i' :: ("n [".toList ++ [',', ' '].intercalate values ++ [']']) :=
        trim_closed rfl ("n [".toList ++ [',', ' '].intercalate values)
      rw [begun, bracketed] at brackets
      cases brackets
    · cases none_
  · have parts : Predicate.display (.in_ path values)
        = (path.display ++ [' ']) ++ (['i', 'n'] ++ (" [".toList ++ [',', ' '].intercalate values ++ [']'])) := by
      simp [Predicate.display]
    have cut := splitOnceKw_of_clear (path.display ++ [' '])
      (" [".toList ++ [',', ' '].intercalate values ++ [']']) (by simp; decide) (by rfl)
      fun keyworded => ends ((keyworded_path listed.clear).mp keyworded)
    rw [parts, cut, ← filter_unquote_eq_self fun value there => (listed.each value there).1, ← read]
    constructor
    · rintro (⟨lhs, rhs, same, parsed⟩ | ⟨none_, -⟩)
      · obtain ⟨rfl, rfl⟩ := Prod.mk.inj (Option.some.inj same)
        obtain ⟨inner, _, brackets, -, -, is_⟩ := parseIn_eq_ok.mp parsed
        obtain rfl := Option.some.inj ((bracketed_list _).symm.trans brackets)
        exact ⟨ends, (Predicate.in_.inj is_).2.symm⟩
      · cases none_
    · rintro ⟨-, whole⟩
      refine .inl ⟨_, _, rfl, parseIn_eq_ok.mpr ⟨_, path, bracketed_list _, ?_, listed.written.parse_display, ?_⟩⟩
      · rw [whole]
        exact listed.some_
      · rw [whole]

-- Predicates that are read back

/-- Whether a predicate can be told from its text: its path does not end like the keyword of a membership, what
it compares with does not begin like one, and each of its values has neither white space nor matching quotes
around it.
-/
def Predicate.Tellable : Predicate → Prop
  | eq path value => ¬ path.EndsKeyworded ∧ ¬ BeginsKeyworded value ∧ unquote value = value
  | ne path value => ¬ path.EndsKeyworded ∧ ¬ BeginsKeyworded value ∧ unquote value = value
  | in_ path values => ¬ path.EndsKeyworded ∧ ∀ value ∈ values, unquote value = value

/-- Of a predicate that was read, what is written of it is read as the same exactly where it can be told from
that.
-/
theorem parse_display_iff {raw : List Char} {predicate : Predicate} (parsed : Predicate.parse raw = .ok predicate)
    : Predicate.parse predicate.display = .ok predicate ↔ predicate.Tellable := by
  obtain ⟨lhs, rhs, cut, read⟩ | ⟨clear, equal | ⟨unequal, lhs, rhs, cut, read⟩⟩ := parse_eq_ok.mp parsed
  · obtain ⟨inner, path, -, some_, path_, rfl⟩ := parseIn_eq_ok.mp read
    exact parse_display_in (listed_of_split cut some_ path_)
  · obtain ⟨lhs, rhs, cut, read⟩ := equal
    obtain ⟨path, some_, path_, rfl⟩ := parseComparison_eq_ok.mp read
    have compared := compared_of_split (by decide) (splitOnceKw_none.mp clear) cut some_ path_
    generalize unquote (trim rhs) = value at compared ⊢
    have text : Predicate.display (.eq path value) = comparisonText path '=' value := by
      simp [Predicate.display, comparisonText]
    rw [parse_eq_ok, text, Predicate.Tellable, ← keyword_free_comparison compared (by decide),
      ← parseComparison_display "==" .eq (fun _ _ _ _ same => (Predicate.eq.inj same).2)
        (by decide) compared]
    constructor
    · rintro (⟨_, _, -, other⟩ | ⟨clear', here | ⟨-, _, _, -, other⟩⟩)
      · obtain ⟨_, _, -, -, -, same⟩ := parseIn_eq_ok.mp other
        cases same
      · exact ⟨clear', here⟩
      · obtain ⟨_, -, -, same⟩ := parseComparison_eq_ok.mp other
        cases same
    · exact fun ⟨clear', here⟩ => .inr ⟨clear', .inl here⟩
  · obtain ⟨path, some_, path_, rfl⟩ := parseComparison_eq_ok.mp read
    have compared := compared_of_split (by decide) (splitOnceKw_none.mp clear) cut some_ path_
    -- A text without a double equals sign has none as it is written again.
    have absent : splitOnce ['=', '='] (trim (comparisonText path '!' (unquote (trim rhs)))) = none := by
      refine splitOnce_eq_none fun there => splitOnce_absent (List.cons_ne_nil _ _) unequal ?_
      obtain ⟨whole, -⟩ := splitOnce_spec cut
      have within := there.trans (strip_within _)
      rw [comparisonText] at within
      obtain before | after := infix_of_infix_append_cons (by decide) within
      · have left : lhs <:+: trim raw := ⟨[], ['!', '='] ++ rhs, by rw [whole]; simp⟩
        exact (Path.infix_of_display path_ (List.cons_ne_nil _ _) (by decide) before).trans left
      · obtain operator | later := @infix_of_infix_append_cons _ _ _ ['!', '='] _ (by decide) after
        · exact absurd (operator.eq_of_length rfl) (by decide)
        · refine later.trans ((unquote_within _).trans ((strip_within _).trans ((strip_within rhs).trans ?_)))
          exact ⟨lhs ++ ['!', '='], [], by rw [whole, List.append_nil]⟩
    generalize unquote (trim rhs) = value at compared absent ⊢
    have text : Predicate.display (.ne path value) = comparisonText path '!' value := by
      simp [Predicate.display, comparisonText]
    rw [parse_eq_ok, text, Predicate.Tellable, ← keyword_free_comparison compared (by decide),
      ← parseComparison_display "!=" .ne (fun _ _ _ _ same => (Predicate.ne.inj same).2)
        (by decide) compared]
    constructor
    · rintro (⟨_, _, -, other⟩ | ⟨clear', ⟨_, _, -, other⟩ | ⟨-, here⟩⟩)
      · obtain ⟨_, _, -, -, -, same⟩ := parseIn_eq_ok.mp other
        cases same
      · obtain ⟨_, -, -, same⟩ := parseComparison_eq_ok.mp other
        cases same
      · exact ⟨clear', here⟩
    · exact fun ⟨clear', here⟩ => .inr ⟨clear', .inr ⟨absent, here⟩⟩

/-- A predicate is read back from what is written of it, so that both say the same of every document, exactly
where it can be told from that.
-/
theorem reads_back_iff {raw : List Char} {predicate : Predicate} (parsed : Predicate.parse raw = .ok predicate)
    : (Predicate.parse predicate.display = .ok predicate
        ∧ ∀ doc, (Predicate.parse predicate.display).map (·.eval doc) = .ok (predicate.eval doc))
      ↔ predicate.Tellable := by
  rw [← parse_display_iff parsed]
  refine and_iff_left_of_imp fun same doc => ?_
  rw [same]
  rfl

theorem reads_back_iff_list
    : let text := "status.phase in [A, 'not started']".toList
      ∃ predicate, Predicate.parse text = .ok predicate
        ∧ Predicate.parse predicate.display = .ok predicate := by
  have parsed : Predicate.parse "status.phase in [A, 'not started']".toList
      = .ok (.in_ ⟨["status".toList, "phase".toList]⟩ ["A".toList, "not started".toList]) := by
    decide +kernel
  have tellable : Predicate.Tellable (.in_ ⟨["status".toList, "phase".toList]⟩ ["A".toList, "not started".toList]) := by
    refine ⟨?_, by decide⟩
    rintro ⟨front, first, space, ends⟩
    have last := congrArg List.getLast? ends
    rw [List.getLast?_append] at last
    exact absurd (Option.some.inj last : 'e' = 'n') (by decide)
  exact ⟨_, parsed, ((reads_back_iff parsed).mpr tellable).1⟩

/-- A value in quotes of which the inner ones are a part is read without them from what is written. -/
theorem a_quoted_value_is_unquoted_again
    : ¬ ∀ raw predicate, Predicate.parse raw = .ok predicate →
        Predicate.parse predicate.display = .ok predicate
          ∧ ∀ doc, (Predicate.parse predicate.display).map (·.eval doc) = .ok (predicate.eval doc) := by
  intro claim
  have parsed : Predicate.parse "s == \"'x'\"".toList = .ok (.eq ⟨["s".toList]⟩ "'x'".toList) := by decide +kernel
  have other : Predicate.parse (Predicate.display (.eq ⟨["s".toList]⟩ "'x'".toList))
      = .ok (.eq ⟨["s".toList]⟩ "x".toList) := by decide +kernel
  have same := (claim _ _ parsed).1
  rw [other] at same
  exact absurd (Predicate.eq.inj (Except.ok.inj same)).2 (by decide)

end Dagron.Spec.Jsonpred
