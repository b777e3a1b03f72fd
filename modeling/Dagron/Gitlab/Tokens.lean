import Dagron.Library.Legible
import Dagron.Library.Results
import Mathlib.Data.List.TakeWhile

/-! The tokens of a rule's condition: how each is written, and that a text is read as the tokens that it is
written with, one after another.
-/

namespace Dagron.Gitlab

open Dagron.Library

abbrev Text := List Char

/-- What compares two operands. -/
inductive Op where
  | eq
  | ne
  | match_
  | noMatch
  deriving DecidableEq

/-- A token; a regular expression is a pattern, and whether case is folded. -/
inductive Token where
  | var (name : Text)
  | str (text : Text)
  | regex (pattern : Text) (fold : Bool)
  | null
  | op (op : Op)
  | and
  | or
  | open_
  | close
  deriving DecidableEq

-- Reading tokens

def nameChar (char : Char) : Bool :=
  char.isAlphanum || char = '_'

def quotedText (hidden : Char → Bool) (text : Text) : String :=
  String.ofList (debugString hidden (String.ofList text))

/-- One flag after a pattern: what is folded, and what is to stand in the pattern. -/
def takeFlag (pattern : Text) (taken : Bool × Text) (flag : Char) : Except String (Bool × Text) :=
  if flag = 'i' then .ok (true, taken.2)
  else if flag = 'm' || flag = 's' || flag = 'U' then .ok (taken.1, taken.2 ++ [flag])
  else .error ("/" ++ String.ofList pattern ++ "/" ++ String.singleton flag ++ " has a flag GitLab has not")

/-- A pattern with the flags after it: those that are not about case are written into it. -/
def flagged (pattern flags : Text) : Except String (Text × Bool) := do
  let taken ← flags.foldlM (takeFlag pattern) (false, [])
  if taken.2.isEmpty then return (pattern, taken.1)
  else return ('(' :: '?' :: (taken.2 ++ ')' :: pattern), taken.1)

/-- What a name is and what follows it, after its dollar sign. -/
def readName : Text → Except String (Text × Text)
  | '{' :: rest =>
      match rest.dropWhile (· ≠ '}') with
      | [] => .error "a $\x7b with no \x7d to end it"
      | _ :: tail => .ok (rest.takeWhile (· ≠ '}'), tail)
  | rest => .ok (rest.takeWhile nameChar, rest.dropWhile nameChar)

def readVar (hidden : Char → Bool) (rest : Text) : Except String (Token × Text) := do
  let (name, tail) ← readName rest
  if name.isEmpty || !name.all nameChar then
    .error (quotedText hidden name ++ " is not a variable's name")
  else return (.var name, tail)

def readStr (quote : Char) (rest : Text) : Except String (Token × Text) :=
  match rest.dropWhile (· ≠ quote) with
  | [] => .error "a string with no quote to end it"
  | _ :: tail => .ok (.str (rest.takeWhile (· ≠ quote)), tail)

/-- A pattern to the slash that ends it, in which an escaped slash is a slash, and what follows. -/
def readPattern : Text → Option (Text × Text)
  | [] => none
  | '/' :: rest => some ([], rest)
  | '\\' :: '/' :: rest => (readPattern rest).map fun (pattern, tail) => ('/' :: pattern, tail)
  | '\\' :: next :: rest =>
      (readPattern rest).map fun (pattern, tail) => ('\\' :: next :: pattern, tail)
  | ['\\'] => none
  | char :: rest => (readPattern rest).map fun (pattern, tail) => (char :: pattern, tail)

def readRegex (rest : Text) : Except String (Token × Text) :=
  match readPattern rest with
  | none => .error "a regular expression with no / to end it"
  | some (pattern, tail) => do
      let (pattern, fold) ← flagged pattern (tail.takeWhile Char.isAlpha)
      return (.regex pattern fold, tail.dropWhile Char.isAlpha)

def readOp (first : Char) : Text → Except String (Token × Text)
  | '=' :: rest => .ok (.op (if first = '=' then .eq else .ne), rest)
  | '~' :: rest => .ok (.op (if first = '=' then .match_ else .noMatch), rest)
  | _ => .error (String.singleton first ++ " is not an operator: ==, !=, =~, !~")

def stray (hidden : Char → Bool) (char : Char) : Except String (Token × Text) :=
  .error ("'" ++ String.ofList (debugChar hidden char) ++ "' is not part of an expression")

/-- The token that begins with a character, and what follows it. -/
def readToken (hidden : Char → Bool) (char : Char) (rest : Text) : Except String (Token × Text) :=
  if char = '(' then .ok (.open_, rest)
  else if char = ')' then .ok (.close, rest)
  else if char = '$' then readVar hidden rest
  else if char = '"' || char = '\'' then readStr char rest
  else if char = '/' then readRegex rest
  else if char = '=' || char = '!' then readOp char rest
  else if char = '&' && rest.head? = some '&' then .ok (.and, rest.tail)
  else if char = '|' && rest.head? = some '|' then .ok (.or, rest.tail)
  else if char = 'n' && rest.take 3 = ['u', 'l', 'l'] && !(rest[3]?).any nameChar then
    .ok (.null, rest.drop 3)
  else stray hidden char

def blank (char : Char) : Bool :=
  char = ' ' || char = '\t' || char = '\n' || char = '\r'

-- How tokens are written

/-- A pattern as it is written between its slashes: those of its own are escaped, and whatever else is stays
as it is, an escape with what it escapes.
-/
inductive Body : Text → Text → Prop
  | nil
    : Body [] []
  | slash {raw pattern : Text} (rest : Body raw pattern)
    : Body ('\\' :: '/' :: raw) ('/' :: pattern)
  | escape {raw pattern : Text} {next : Char} (other : next ≠ '/') (rest : Body raw pattern)
    : Body ('\\' :: next :: raw) ('\\' :: next :: pattern)
  | char {raw pattern : Text} {char : Char} (noSlash : char ≠ '/') (noEscape : char ≠ '\\')
    (rest : Body raw pattern)
    : Body (char :: raw) (char :: pattern)

def isFlag (char : Char) : Bool :=
  char = 'i' || char = 'm' || char = 's' || char = 'U'

/-- The flags that are written into a pattern, and the pattern. -/
def inlined (flags pattern : Text) : Text :=
  if flags.isEmpty then pattern else '(' :: '?' :: (flags ++ ')' :: pattern)

def Op.text : Op → Text
  | eq => ['=', '=']
  | ne => ['!', '=']
  | match_ => ['=', '~']
  | noMatch => ['!', '~']

/-- (Spells written token more) says that a token is so written where none of the characters that could be
(more) of it follows.
-/
inductive Spells : Text → Token → (Char → Bool) → Prop
  | open_
    : Spells ['('] .open_ fun _ => false
  | close
    : Spells [')'] .close fun _ => false
  | and
    : Spells ['&', '&'] .and fun _ => false
  | or
    : Spells ['|', '|'] .or fun _ => false
  | op {op : Op}
    : Spells op.text (.op op) fun _ => false
  | null
    : Spells ['n', 'u', 'l', 'l'] .null nameChar
  | name {name : Text} (some_ : name ≠ []) (named : ∀ char ∈ name, nameChar char)
    : Spells ('$' :: name) (.var name) nameChar
  | braced {name : Text} (some_ : name ≠ []) (named : ∀ char ∈ name, nameChar char)
    : Spells ('$' :: '{' :: (name ++ ['}'])) (.var name) fun _ => false
  | quoted {quote : Char} {text : Text} (quotes : quote = '"' ∨ quote = '\'') (within : quote ∉ text)
    : Spells (quote :: (text ++ [quote])) (.str text) fun _ => false
  | regex {raw pattern flags : Text} (body : Body raw pattern) (known : ∀ char ∈ flags, isFlag char)
    : Spells ('/' :: (raw ++ '/' :: flags))
        (.regex (inlined (flags.filter (· ≠ 'i')) pattern) (flags.contains 'i')) Char.isAlpha

def Ends (more : Char → Bool) (rest : Text) : Prop :=
  ∀ char ∈ rest.head?, more char = false

/-- A text is written with some tokens, and with blanks between them. -/
inductive Lexed : Text → List Token → Prop
  | nil
    : Lexed [] []
  | blank {char : Char} {rest : Text} {all : List Token} (blank : blank char) (later : Lexed rest all)
    : Lexed (char :: rest) all
  | token {written rest : Text} {token : Token} {all : List Token} {more : Char → Bool}
    (spells : Spells written token more) (ends : Ends more rest) (later : Lexed rest all)
    : Lexed (written ++ rest) (token :: all)

-- The parts of a token

theorem span_append_cons {stop : Char} {text tail : Text} (free : stop ∉ text)
    : (text ++ stop :: tail).takeWhile (· ≠ stop) = text
      ∧ (text ++ stop :: tail).dropWhile (· ≠ stop) = stop :: tail := by
  have all : ∀ char ∈ text, decide (char ≠ stop) = true := fun char there =>
    decide_eq_true fun same => free (same ▸ there)
  rw [List.takeWhile_append_of_pos all, List.dropWhile_append_of_pos all]
  simp

theorem dropWhile_eq_cons {stop first : Char} {text tail : Text}
    (dropped : text.dropWhile (· ≠ stop) = first :: tail)
    : text = text.takeWhile (· ≠ stop) ++ stop :: tail ∧ stop ∉ text.takeWhile (· ≠ stop) := by
  have head := List.head?_dropWhile_not (· ≠ stop) text
  rw [dropped] at head
  have same : first = stop := by simpa using head
  subst same
  constructor
  · exact (dropped ▸ List.takeWhile_append_dropWhile).symm
  · intro there
    have differs := List.mem_takeWhile_imp there
    simp at differs

theorem span_of_ends {among : Char → Bool} {text tail : Text} (all : ∀ char ∈ text, among char)
    (ends : Ends among tail)
    : (text ++ tail).takeWhile among = text ∧ (text ++ tail).dropWhile among = tail := by
  rw [List.takeWhile_append_of_pos all, List.dropWhile_append_of_pos all]
  cases tail with
  | nil => simp
  | cons char tail => simp [ends char rfl]

theorem ends_dropWhile (among : Char → Bool) (text : Text)
    : Ends among (text.dropWhile among) := by
  intro char there
  have head := List.head?_dropWhile_not among text
  rw [Option.mem_def.mp there] at head
  simpa using head

theorem readPattern_eq_some_iff {text pattern tail : Text}
    : readPattern text = some (pattern, tail) ↔ ∃ raw, text = raw ++ '/' :: tail ∧ Body raw pattern := by
  constructor
  · intro read
    fun_induction readPattern text generalizing pattern with
    | case1 => cases read
    | case2 rest =>
        obtain ⟨rfl, rfl⟩ := Prod.mk.inj (Option.some.inj read)
        exact ⟨[], rfl, .nil⟩
    | case3 rest ih =>
        obtain ⟨⟨pattern', tail'⟩, read', same⟩ := Option.map_eq_some_iff.mp read
        obtain ⟨rfl, rfl⟩ := Prod.mk.inj same
        obtain ⟨raw, rfl, body⟩ := ih read'
        exact ⟨_, rfl, .slash body⟩
    | case4 next rest other ih =>
        obtain ⟨⟨pattern', tail'⟩, read', same⟩ := Option.map_eq_some_iff.mp read
        obtain ⟨rfl, rfl⟩ := Prod.mk.inj same
        obtain ⟨raw, rfl, body⟩ := ih read'
        exact ⟨_, rfl, .escape other body⟩
    | case5 => cases read
    | case6 char rest noSlash _ notNext notLast ih =>
        obtain ⟨⟨pattern', tail'⟩, read', same⟩ := Option.map_eq_some_iff.mp read
        obtain ⟨rfl, rfl⟩ := Prod.mk.inj same
        obtain ⟨raw, rfl, body⟩ := ih read'
        have noEscape : char ≠ '\\' := by
          intro same
          cases raw with
          | nil | cons next raw => exact notNext _ _ same rfl
        exact ⟨_, rfl, .char noSlash noEscape body⟩
  · rintro ⟨raw, rfl, body⟩
    induction body with
    | nil => rfl
    | slash _ ih => exact congrArg _ ih
    | @escape raw pattern next other _ ih =>
        rw [List.cons_append, List.cons_append, readPattern]
        · rw [ih]
          rfl
        · exact other
    | @char raw pattern char noSlash noEscape _ ih =>
        rw [List.cons_append, readPattern]
        · rw [ih]
          rfl
        · exact noSlash
        · exact fun _ same => absurd same noEscape
        · exact fun _ _ same => absurd same noEscape
        · exact fun same => absurd same noEscape

theorem foldlM_takeFlag {pattern flags : Text} {fold : Bool} {inline : Text} {taken : Bool × Text}
    : flags.foldlM (takeFlag pattern) (fold, inline) = .ok taken ↔
      (∀ flag ∈ flags, isFlag flag) ∧
      taken = (fold || flags.contains 'i', inline ++ flags.filter (· ≠ 'i')) := by
  induction flags generalizing fold inline with
  | nil =>
      have whole : (fold || List.contains [] 'i', inline ++ List.filter (· ≠ 'i') []) = (fold, inline) := by
        rw [List.contains_nil, Bool.or_false, List.filter_nil, List.append_nil]
      rw [List.foldlM_nil, whole]
      exact ⟨fun ok => ⟨fun _ there => (nomatch there), (Except.ok.inj ok).symm⟩,
        fun ⟨_, same⟩ => congrArg Except.ok same.symm⟩
  | cons flag flags ih =>
      rw [List.foldlM_cons, takeFlag]
      split
      next case_ =>
        rw [ok_bind, ih]
        subst case_
        have isKnown : isFlag 'i' := rfl
        rw [List.forall_mem_cons, and_iff_right isKnown, List.contains_cons, beq_self_eq_true, Bool.true_or,
          Bool.or_true, List.filter_cons_of_neg (by decide)]
      next other =>
        split
        next known =>
          rw [ok_bind, ih]
          have isKnown : isFlag flag := by simpa [isFlag, other, or_assoc] using known
          simp [isKnown, other, Ne.symm other]
        next unknown =>
          have notKnown : ¬isFlag flag := by simpa [isFlag, other, or_assoc] using unknown
          refine ⟨fun ok => (nomatch ok), fun ⟨all, _⟩ => ?_⟩
          exact (notKnown (all flag List.mem_cons_self)).elim

theorem flagged_eq_ok_iff {pattern flags : Text} {read : Text × Bool}
    : flagged pattern flags = .ok read ↔
      (∀ flag ∈ flags, isFlag flag) ∧
      read = (inlined (flags.filter (· ≠ 'i')) pattern, flags.contains 'i') := by
  rw [flagged, bind_eq_ok_iff]
  constructor
  · rintro ⟨taken, folded, made⟩
    obtain ⟨known, rfl⟩ := foldlM_takeFlag.mp folded
    refine ⟨known, ?_⟩
    rw [Bool.false_or, List.nil_append] at made
    unfold inlined
    split at made
    next empty =>
      rw [if_pos empty]
      exact (Except.ok.inj made).symm
    next some_ =>
      rw [if_neg some_]
      exact (Except.ok.inj made).symm
  · rintro ⟨known, rfl⟩
    refine ⟨_, foldlM_takeFlag.mpr ⟨known, rfl⟩, ?_⟩
    rw [Bool.false_or, List.nil_append]
    unfold inlined
    split
    · rfl
    · rfl

-- A text and its tokens

variable {hidden : Char → Bool}

/-- (Reads text token rest) says that a text begins with what a token is written as, and with the whole of it. -/
def Reads (text : Text) (token : Token) (rest : Text) : Prop :=
  ∃ written more, text = written ++ rest ∧ Spells written token more ∧ Ends more rest

theorem Spells.ne_nil {written : Text} {token : Token} {more : Char → Bool} (spells : Spells written token more)
    : written ≠ [] := by
  cases spells with
  | @op op => cases op <;> exact List.cons_ne_nil _ _
  | open_ | close | and | or | null | name | braced | quoted | regex => exact List.cons_ne_nil _ _

theorem Reads.shorter {text rest : Text} {token : Token} (reads : Reads text token rest)
    : rest.length < text.length := by
  obtain ⟨written, more, rfl, spells, -⟩ := reads
  rw [List.length_append]
  have := List.length_pos_of_ne_nil spells.ne_nil
  omega

theorem ends_never (rest : Text)
    : Ends (fun _ => false) rest :=
  fun _ _ => rfl

theorem reads_of_readVar {rest tail : Text} {token : Token} (read : readVar hidden rest = .ok (token, tail))
    : Reads ('$' :: rest) token tail := by
  obtain ⟨⟨name, tail'⟩, named, made⟩ := exists_of_bind_eq_ok read
  simp only at made
  split at made
  next => cases made
  next good =>
    obtain ⟨rfl, rfl⟩ := Prod.mk.inj (Except.ok.inj made)
    rw [Bool.or_eq_true, not_or, List.isEmpty_iff, Bool.not_eq_true', Bool.not_eq_false,
      List.all_eq_true] at good
    rw [readName.eq_def] at named
    split at named
    next rest =>
      split at named
      next => cases named
      next first tail dropped =>
        obtain ⟨rfl, rfl⟩ := Prod.mk.inj (Except.ok.inj named)
        obtain ⟨whole, -⟩ := dropWhile_eq_cons dropped
        refine ⟨_, _, ?_, .braced good.1 good.2, ends_never _⟩
        rw [List.cons_append, List.cons_append, List.append_assoc]
        exact congrArg (fun rest => '$' :: '{' :: rest) whole
    next =>
      obtain ⟨rfl, rfl⟩ := Prod.mk.inj (Except.ok.inj named)
      refine ⟨_, _, ?_, .name good.1 good.2, ends_dropWhile _ _⟩
      rw [List.cons_append, List.takeWhile_append_dropWhile]

theorem reads_of_readStr {quote : Char} {rest tail : Text} {token : Token}
    (quotes : quote = '"' ∨ quote = '\'') (read : readStr quote rest = .ok (token, tail))
    : Reads (quote :: rest) token tail := by
  rw [readStr] at read
  split at read
  next => cases read
  next first tail dropped =>
    obtain ⟨rfl, rfl⟩ := Prod.mk.inj (Except.ok.inj read)
    obtain ⟨whole, free⟩ := dropWhile_eq_cons dropped
    refine ⟨_, _, ?_, .quoted quotes free, ends_never _⟩
    rw [List.cons_append, List.append_assoc]
    exact congrArg (quote :: ·) whole

theorem reads_of_readRegex {rest tail : Text} {token : Token} (read : readRegex rest = .ok (token, tail))
    : Reads ('/' :: rest) token tail := by
  rw [readRegex] at read
  split at read
  next => cases read
  next pattern tail found =>
    obtain ⟨⟨pattern', fold⟩, flags, made⟩ := exists_of_bind_eq_ok read
    obtain ⟨rfl, rfl⟩ := Prod.mk.inj (Except.ok.inj made)
    obtain ⟨raw, rfl, body⟩ := readPattern_eq_some_iff.mp found
    obtain ⟨known, same⟩ := flagged_eq_ok_iff.mp flags
    obtain ⟨rfl, rfl⟩ := Prod.mk.inj same
    refine ⟨_, _, ?_, .regex body known, ends_dropWhile _ _⟩
    rw [List.cons_append, List.append_assoc, List.cons_append, List.takeWhile_append_dropWhile]

theorem reads_of_readOp {first : Char} {rest tail : Text} {token : Token}
    (begins : first = '=' ∨ first = '!') (read : readOp first rest = .ok (token, tail))
    : Reads (first :: rest) token tail := by
  rw [readOp.eq_def] at read
  split at read
  next rest =>
    obtain ⟨rfl, rfl⟩ := Prod.mk.inj (Except.ok.inj read)
    obtain rfl | rfl := begins
    · exact ⟨_, _, rfl, @Spells.op .eq, ends_never _⟩
    · exact ⟨_, _, rfl, @Spells.op .ne, ends_never _⟩
  next rest =>
    obtain ⟨rfl, rfl⟩ := Prod.mk.inj (Except.ok.inj read)
    obtain rfl | rfl := begins
    · exact ⟨_, _, rfl, @Spells.op .match_, ends_never _⟩
    · exact ⟨_, _, rfl, @Spells.op .noMatch, ends_never _⟩
  next => cases read

theorem eq_of_head? {next : Char} {rest : Text} (head : rest.head? = some next)
    : rest = next :: rest.tail :=
  List.eq_cons_of_mem_head? head

theorem reads_of_readToken {char : Char} {rest tail : Text} {token : Token}
    (read : readToken hidden char rest = .ok (token, tail))
    : Reads (char :: rest) token tail := by
  unfold readToken at read
  split at read
  next opens =>
    obtain ⟨rfl, rfl⟩ := Prod.mk.inj (Except.ok.inj read)
    exact ⟨_, _, congrArg (· :: rest) opens, .open_, ends_never _⟩
  split at read
  next closes =>
    obtain ⟨rfl, rfl⟩ := Prod.mk.inj (Except.ok.inj read)
    exact ⟨_, _, congrArg (· :: rest) closes, .close, ends_never _⟩
  split at read
  next dollar => exact dollar ▸ reads_of_readVar read
  split at read
  next quotes => exact reads_of_readStr (by simpa using quotes) read
  split at read
  next slash => exact slash ▸ reads_of_readRegex read
  split at read
  next begins => exact reads_of_readOp (by simpa using begins) read
  split at read
  next both =>
    obtain ⟨rfl, rfl⟩ := Prod.mk.inj (Except.ok.inj read)
    simp only [Bool.and_eq_true, decide_eq_true_eq] at both
    obtain ⟨rfl, head⟩ := both
    exact ⟨_, _, congrArg _ (eq_of_head? head), .and, ends_never _⟩
  split at read
  next both =>
    obtain ⟨rfl, rfl⟩ := Prod.mk.inj (Except.ok.inj read)
    simp only [Bool.and_eq_true, decide_eq_true_eq] at both
    obtain ⟨rfl, head⟩ := both
    exact ⟨_, _, congrArg _ (eq_of_head? head), .or, ends_never _⟩
  split at read
  next word =>
    obtain ⟨rfl, rfl⟩ := Prod.mk.inj (Except.ok.inj read)
    simp only [Bool.and_eq_true, decide_eq_true_eq, Bool.not_eq_true'] at word
    obtain ⟨⟨rfl, letters⟩, ends⟩ := word
    refine ⟨_, _, ?_, .null, fun char there => ?_⟩
    · have whole := List.take_append_drop 3 rest
      rw [letters] at whole
      exact congrArg ('n' :: ·) whole.symm
    · rw [List.head?_drop] at there
      rw [Option.mem_def.mp there] at ends
      exact ends
  next => cases read

theorem isAlpha_of_isFlag {char : Char} (flag : isFlag char)
    : char.isAlpha := by
  simp only [isFlag, Bool.or_eq_true, decide_eq_true_eq] at flag
  obtain ((rfl | rfl) | rfl) | rfl := flag
  all_goals rfl

theorem all_nameChar_of {name : Text} (some_ : name ≠ []) (named : ∀ char ∈ name, nameChar char)
    : (name.isEmpty || !name.all nameChar) = false := by
  rw [List.all_eq_true.mpr named, Bool.not_true, Bool.or_false]
  exact List.isEmpty_eq_false_iff.mpr some_

theorem readToken_of_spells {written rest : Text} {token : Token} {more : Char → Bool}
    (spells : Spells written token more) (ends : Ends more rest)
    : ∃ char tail, written = char :: tail ∧ blank char = false ∧
        readToken hidden char (tail ++ rest) = .ok (token, rest) := by
  cases spells with
  | open_ | close | and | or => exact ⟨_, _, rfl, rfl, rfl⟩
  | @op op =>
      cases op with
      | eq | ne | match_ | noMatch => exact ⟨_, _, rfl, rfl, rfl⟩
  | null =>
      refine ⟨_, _, rfl, rfl, ?_⟩
      have stops : (rest.head?).any nameChar = false := by
        cases rest with
        | nil => rfl
        | cons char rest => exact ends char rfl
      have third : ((['u', 'l', 'l'] ++ rest)[3]?).any nameChar = false := by
        rw [← stops]
        cases rest with
        | nil => rfl
        | cons char rest => rfl
      show (if 'n' = 'n' && _ && !_ then _ else _) = _
      rw [third]
      rfl
  | @name name some_ named =>
      refine ⟨_, _, rfl, rfl, ?_⟩
      have read : readName (name ++ rest) = .ok (name, rest) := by
        obtain ⟨taken, dropped⟩ := span_of_ends named ends
        cases name with
        | nil => exact absurd rfl some_
        | cons first name =>
            have other : first ≠ '{' := fun same => absurd (named first List.mem_cons_self) (same ▸ by decide)
            rw [List.cons_append, readName]
            · rw [← List.cons_append, taken, dropped]
            · exact fun _ same => absurd (List.cons.inj same).1 other
      show readVar hidden (name ++ rest) = _
      rw [readVar, read, ok_bind]
      exact if_neg (Bool.not_eq_true _ ▸ all_nameChar_of some_ named)
  | @braced name some_ named =>
      refine ⟨_, _, rfl, rfl, ?_⟩
      have free : '}' ∉ name := fun there => absurd (named _ there) (by decide)
      have read : readName ('{' :: (name ++ ['}']) ++ rest) = .ok (name, rest) := by
        obtain ⟨taken, dropped⟩ := @span_append_cons _ _ rest free
        rw [List.cons_append, List.append_assoc, readName]
        show (match (name ++ '}' :: rest).dropWhile _ with | [] => _ | _ :: tail => _) = _
        rw [dropped]
        exact congrArg Except.ok (congrArg (·, rest) taken)
      show readVar hidden ('{' :: (name ++ ['}']) ++ rest) = _
      rw [readVar, read, ok_bind]
      exact if_neg (Bool.not_eq_true _ ▸ all_nameChar_of some_ named)
  | @quoted quote text quotes within =>
      refine ⟨_, _, rfl, ?_, ?_⟩
      · obtain rfl | rfl := quotes
        · rfl
        · rfl
      · have read : readStr quote (text ++ [quote] ++ rest) = .ok (.str text, rest) := by
          obtain ⟨taken, dropped⟩ := @span_append_cons _ _ rest within
          rw [List.append_assoc, readStr]
          show (match (text ++ quote :: rest).dropWhile _ with | [] => _ | _ :: tail => _) = _
          rw [dropped]
          exact congrArg Except.ok (congrArg (fun text => (Token.str text, rest)) taken)
        rw [← read]
        obtain rfl | rfl := quotes
        · rfl
        · rfl
  | @regex raw pattern flags body known =>
      refine ⟨_, _, rfl, rfl, ?_⟩
      show readRegex (raw ++ '/' :: flags ++ rest) = _
      have found : readPattern (raw ++ '/' :: flags ++ rest) = some (pattern, flags ++ rest) :=
        readPattern_eq_some_iff.mpr ⟨raw, by rw [List.append_assoc, List.cons_append], body⟩
      have letters : ∀ char ∈ flags, char.isAlpha := fun char there => isAlpha_of_isFlag (known char there)
      obtain ⟨taken, dropped⟩ := span_of_ends letters ends
      rw [readRegex, found]
      show (flagged pattern ((flags ++ rest).takeWhile Char.isAlpha) >>= _) = _
      rw [taken, flagged_eq_ok_iff.mpr ⟨known, rfl⟩, ok_bind, dropped]
      rfl

def tokens (hidden : Char → Bool) : Text → Except String (List Token)
  | [] => .ok []
  | char :: rest =>
      if blank char then tokens hidden rest
      else
        match _read : readToken hidden char rest with
        | .error message => .error message
        | .ok (token, tail) => do
            let all ← tokens hidden tail
            return token :: all
  termination_by text => text.length
  decreasing_by
    · exact Nat.lt_succ_self _
    · exact (reads_of_readToken _read).shorter

theorem tokens_eq_ok_iff {text : Text} {all : List Token}
    : tokens hidden text = .ok all ↔ Lexed text all := by
  constructor
  · intro read
    fun_induction tokens hidden text generalizing all with
    | case1 =>
        obtain rfl := Except.ok.inj read
        exact .nil
    | case2 char rest blank ih => exact .blank blank (ih read)
    | case3 => cases read
    | case4 char rest notBlank token tail first ih =>
        obtain ⟨later, rest_, made⟩ := exists_of_bind_eq_ok read
        obtain rfl := Except.ok.inj made
        obtain ⟨written, more, whole, spells, ends⟩ := reads_of_readToken first
        rw [whole]
        exact .token spells ends (ih rest_)
  · intro lexed
    induction lexed with
    | nil => rw [tokens]
    | @blank char rest all blank _ ih => rw [tokens, if_pos blank, ih]
    | @token written rest token all more spells ends _ ih =>
        obtain ⟨char, tail, rfl, notBlank, read⟩ := @readToken_of_spells hidden _ _ _ _ spells ends
        rw [List.cons_append, tokens, if_neg (Bool.not_eq_true _ ▸ notBlank)]
        split
        next message failed =>
          rw [read] at failed
          cases failed
        next token' tail' read' =>
          rw [read] at read'
          obtain ⟨rfl, rfl⟩ := Prod.mk.inj (Except.ok.inj read')
          rw [ih]
          rfl

end Dagron.Gitlab
