import Dagron.Gitlab.Grammar

/-! What a condition comes to, with some variables: it holds where the logic of its parts says so, and a
pattern that is written in it is the pattern that a variable of the same text holds.
-/

namespace Dagron.Gitlab

open Dagron.Library

/-- Why there is no answer: a pattern is no regular expression, or what the parser has refused was met. -/
inductive Stop where
  | error (message : String)
  | panic

abbrev Vars :=
  Text → Option Text

/-- What compiles a pattern, with case folded or not, to what it matches. -/
abbrev Engine :=
  Text → Bool → Except String (Text → Bool)

/-- A text up to its last slash, and what follows that. -/
def splitLast (text : Text) : Option (Text × Text) :=
  match text.reverse.dropWhile (· ≠ '/') with
  | [] => none
  | _ :: before => some (before.reverse, (text.reverse.takeWhile (· ≠ '/')).reverse)

def asRegex : Text → Option (Text × Bool)
  | '/' :: rest => (splitLast rest).bind fun (pattern, flags) => (flagged pattern flags).toOption
  | _ => none

variable (engine : Engine) (vars : Vars)

def regex (pattern : Text) (fold : Bool) : Except Stop (Text → Bool) :=
  (engine pattern fold).mapError fun message =>
    .error ("/" ++ String.ofList pattern ++ "/ is not a regular expression: " ++ message)

def Operand.value : Operand → Option Text
  | var name => vars name
  | str text => some text
  | null => none
  | regex pattern _ => some ('/' :: (pattern ++ ['/']))

/-- Whether a pattern matches an operand: what has no value is matched as the empty text. -/
def matched (left : Operand) (op : Op) (pattern : Text) (fold : Bool) : Except Stop Bool := do
  let matches_ ← regex engine pattern fold
  return matches_ ((left.value vars).getD []) == (op == .match_)

/-- Matches an operand against another: a variable that holds no pattern matches nothing. -/
def against (left : Operand) (op : Op) : Operand → Except Stop Bool
  | .regex pattern fold => matched engine vars left op pattern fold
  | .var name =>
      match (vars name).bind asRegex with
      | some (pattern, fold) => matched engine vars left op pattern fold
      | none => .ok (op == .noMatch)
  | .str _ | .null => .error .panic

def compares (left : Operand) (op : Op) (right : Operand) : Except Stop Bool :=
  match op with
  | .eq => .ok (decide (left.value vars = right.value vars))
  | .ne => .ok (!decide (left.value vars = right.value vars))
  | .match_ => against engine vars left .match_ right
  | .noMatch => against engine vars left .noMatch right

def Expr.holds : Expr → Except Stop Bool
  | or left right => do if ← left.holds then return true else right.holds
  | and left right => do if ← left.holds then right.holds else return false
  | defined name => .ok ((vars name).any fun value => !value.isEmpty)
  | compare left op right => compares engine vars left op right

-- What a condition means

/-- (IsPattern text pattern fold) says that a text is a pattern between slashes, with flags after it. -/
def IsPattern (text pattern : Text) (fold : Bool) : Prop :=
  ∃ raw flags, text = '/' :: (raw ++ '/' :: flags) ∧ (∀ flag ∈ flags, isFlag flag) ∧
    pattern = inlined (flags.filter (· ≠ 'i')) raw ∧ fold = flags.contains 'i'

def Holding (pattern : Text) (fold : Bool) : Operand → Prop
  | .regex pattern' fold' => pattern' = pattern ∧ fold' = fold
  | .var name => ∃ text, vars name = some text ∧ IsPattern text pattern fold
  | .str _ => False
  | .null => False

/-- An operand's text is one that the pattern of another matches. -/
def Matches (left right : Operand) : Prop :=
  ∃ pattern fold matches_, Holding vars pattern fold right ∧ engine pattern fold = .ok matches_ ∧
    matches_ ((left.value vars).getD [])

def Op.Compares (left right : Operand) : Op → Prop
  | eq => left.value vars = right.value vars
  | ne => left.value vars ≠ right.value vars
  | match_ => Matches engine vars left right
  | noMatch => ¬Matches engine vars left right

def Expr.Means : Expr → Prop
  | or left right => left.Means ∨ right.Means
  | and left right => left.Means ∧ right.Means
  | defined name => ∃ value, vars name = some value ∧ value ≠ []
  | compare left op right => op.Compares engine vars left right

/-- A pattern that a condition matches something against. -/
def Expr.Patterns (pattern : Text) (fold : Bool) : Expr → Prop
  | or left right => left.Patterns pattern fold ∨ right.Patterns pattern fold
  | and left right => left.Patterns pattern fold ∨ right.Patterns pattern fold
  | defined _ => False
  | compare _ op right => op.matches_ ∧ Holding vars pattern fold right

/-- A condition as the parser makes one: what is matched against is, or may hold, a pattern. -/
def Expr.Fits : Expr → Prop
  | or left right => left.Fits ∧ right.Fits
  | and left right => left.Fits ∧ right.Fits
  | defined _ => True
  | compare _ op right => op.matches_ → right.isPattern

-- Patterns that variables hold

theorem splitLast_eq_some_iff {text before tail : Text}
    : splitLast text = some (before, tail) ↔ text = before ++ '/' :: tail ∧ '/' ∉ tail := by
  constructor
  · intro split_
    rw [splitLast] at split_
    split at split_
    next => cases split_
    next first front dropped =>
      obtain ⟨rfl, rfl⟩ := Prod.mk.inj (Option.some.inj split_)
      obtain ⟨whole, free⟩ := dropWhile_eq_cons dropped
      refine ⟨?_, fun there => free (List.mem_reverse.mp there)⟩
      have reversed := congrArg List.reverse whole
      rw [List.reverse_reverse, List.reverse_append, List.reverse_cons, List.append_assoc] at reversed
      exact reversed
  · rintro ⟨rfl, free⟩
    have reversed : (before ++ '/' :: tail).reverse = tail.reverse ++ '/' :: before.reverse := by
      rw [List.reverse_append, List.reverse_cons, List.append_assoc]
      rfl
    obtain ⟨taken, dropped⟩ := @span_append_cons '/' tail.reverse before.reverse
      fun there => free (List.mem_reverse.mp there)
    rw [splitLast, reversed, dropped, taken, List.reverse_reverse]
    exact congrArg (fun before => some (before, tail)) (List.reverse_reverse before)

theorem slash_not_mem_flags {flags : Text} (known : ∀ flag ∈ flags, isFlag flag)
    : '/' ∉ flags :=
  fun there => absurd (known _ there) (by decide)

theorem asRegex_eq_some_iff {text pattern : Text} {fold : Bool}
    : asRegex text = some (pattern, fold) ↔ IsPattern text pattern fold := by
  constructor
  · intro read
    rw [asRegex.eq_def] at read
    split at read
    next rest =>
      obtain ⟨⟨raw, flags⟩, split_, made⟩ := Option.bind_eq_some_iff.mp read
      obtain ⟨whole, -⟩ := splitLast_eq_some_iff.mp split_
      have ok : flagged raw flags = .ok (pattern, fold) := by
        cases made_ : flagged raw flags with
        | error message =>
            simp only [made_] at made
            cases made
        | ok read =>
            simp only [made_] at made
            exact congrArg _ (Option.some.inj made)
      obtain ⟨known, same⟩ := flagged_eq_ok_iff.mp ok
      obtain ⟨rfl, rfl⟩ := Prod.mk.inj same
      exact ⟨raw, flags, congrArg _ whole, known, rfl, rfl⟩
    next => cases read
  · rintro ⟨raw, flags, rfl, known, rfl, rfl⟩
    rw [asRegex, splitLast_eq_some_iff.mpr ⟨rfl, slash_not_mem_flags known⟩, Option.bind_some]
    exact congrArg Except.toOption (flagged_eq_ok_iff.mpr ⟨known, rfl⟩)

theorem holding_unique {right : Operand} {pattern pattern' : Text} {fold fold' : Bool}
    (holding : Holding vars pattern fold right) (holding' : Holding vars pattern' fold' right)
    : pattern = pattern' ∧ fold = fold' := by
  cases right with
  | regex pattern'' fold'' => exact ⟨holding.1.symm.trans holding'.1, holding.2.symm.trans holding'.2⟩
  | var name =>
      obtain ⟨text, value, is_⟩ := holding
      obtain ⟨text', value', is_'⟩ := holding'
      obtain rfl := Option.some.inj (value.symm.trans value')
      have same := (asRegex_eq_some_iff.mpr is_).symm.trans (asRegex_eq_some_iff.mpr is_')
      exact Prod.mk.inj (Option.some.inj same)
  | str text | null => exact holding.elim

-- What holds is what is meant

/-- Why a condition has no answer, as an error: one of its patterns is no regular expression. -/
def Refused (patterns : Text → Bool → Prop) (message : String) : Prop :=
  ∃ pattern fold problem, patterns pattern fold ∧ engine pattern fold = .error problem ∧
    message = "/" ++ String.ofList pattern ++ "/ is not a regular expression: " ++ problem

/-- An answer is right if it is what is meant, and there is none only where a pattern is refused. -/
def Answers (means : Prop) (patterns : Text → Bool → Prop) : Except Stop Bool → Prop
  | .ok value => value = true ↔ means
  | .error (.error message) => Refused engine patterns message
  | .error .panic => False

variable {engine vars}

theorem regex_cases (pattern : Text) (fold : Bool)
    : (∃ matches_, engine pattern fold = .ok matches_ ∧ regex engine pattern fold = .ok matches_) ∨
      ∃ problem, engine pattern fold = .error problem ∧ regex engine pattern fold
        = .error (.error ("/" ++ String.ofList pattern ++ "/ is not a regular expression: " ++ problem)) := by
  cases compiled : engine pattern fold with
  | ok matches_ => exact .inl ⟨matches_, rfl, by rw [regex, compiled]; rfl⟩
  | error problem => exact .inr ⟨problem, rfl, by rw [regex, compiled]; rfl⟩

theorem matches_iff {left right : Operand} {pattern : Text} {fold : Bool} {matches_ : Text → Bool}
    (holding : Holding vars pattern fold right) (compiled : engine pattern fold = .ok matches_)
    : Matches engine vars left right ↔ matches_ ((left.value vars).getD []) = true := by
  constructor
  · rintro ⟨pattern', fold', matches', holding', compiled', here⟩
    obtain ⟨rfl, rfl⟩ := holding_unique vars holding holding'
    obtain rfl := Except.ok.inj (compiled.symm.trans compiled')
    exact here
  · exact fun here => ⟨pattern, fold, matches_, holding, compiled, here⟩

theorem matched_answers {left right : Operand} {op : Op} {pattern : Text} {fold : Bool} (matches_ : op.matches_)
    (holding : Holding vars pattern fold right)
    : Answers engine (op.Compares engine vars left right) (fun pattern fold => Holding vars pattern fold right)
        (matched engine vars left op pattern fold) := by
  rw [matched]
  obtain ⟨compiledTo, compiled, made⟩ | ⟨problem, refused, made⟩ := @regex_cases engine pattern fold
  · rw [made, ok_bind]
    have iff_ := @matches_iff engine vars left right _ _ _ holding compiled
    cases op with
    | eq => cases matches_
    | ne => cases matches_
    | match_ =>
        show (_ == true) = true ↔ Matches engine vars left right
        rw [iff_, beq_true]
    | noMatch =>
        show (_ == false) = true ↔ ¬Matches engine vars left right
        rw [iff_, beq_false, Bool.not_eq_true', Bool.not_eq_true]
  · rw [made]
    exact ⟨pattern, fold, problem, holding, refused, rfl⟩

theorem not_matches_of_holds_none {left : Operand} {name : Text} (none_ : (vars name).bind asRegex = none)
    : ¬Matches engine vars left (.var name) := by
  rintro ⟨pattern, fold, -, ⟨text, value, is_⟩, -, -⟩
  rw [value, Option.bind_some, asRegex_eq_some_iff.mpr is_] at none_
  cases none_

theorem against_answers {left right : Operand} {op : Op} (matches_ : op.matches_) (fits : right.isPattern)
    : Answers engine (op.Compares engine vars left right) (fun pattern fold => Holding vars pattern fold right)
        (against engine vars left op right) := by
  cases right with
  | regex pattern fold => exact matched_answers matches_ ⟨rfl, rfl⟩
  | var name =>
      rw [against]
      split
      next pattern fold read =>
        obtain ⟨text, value, is_⟩ := Option.bind_eq_some_iff.mp read
        exact matched_answers matches_ ⟨text, value, asRegex_eq_some_iff.mp is_⟩
      next none_ =>
        have nothing := @not_matches_of_holds_none engine vars left name none_
        cases op with
        | eq => cases matches_
        | ne => cases matches_
        | match_ => exact ⟨fun true_ => (nomatch true_), fun here => (nothing here).elim⟩
        | noMatch => exact ⟨fun _ => nothing, fun _ => rfl⟩
  | str text => cases fits
  | null => cases fits

theorem Answers.mono {means : Prop} {patterns more : Text → Bool → Prop} {result : Except Stop Bool}
    (answers : Answers engine means patterns result)
    (weaker : ∀ pattern fold, patterns pattern fold → more pattern fold)
    : Answers engine means more result := by
  cases result with
  | ok value => exact answers
  | error stop =>
      cases stop with
      | error message =>
          obtain ⟨pattern, fold, problem, has, refused⟩ := answers
          exact ⟨pattern, fold, problem, weaker _ _ has, refused⟩
      | panic => exact answers

theorem compares_answers {left right : Operand} {op : Op} (fits : op.matches_ → right.isPattern)
    : Answers engine (op.Compares engine vars left right)
        (fun pattern fold => op.matches_ ∧ Holding vars pattern fold right)
        (compares engine vars left op right) := by
  cases op with
  | eq => exact decide_eq_true_iff
  | ne =>
      show (!decide (left.value vars = right.value vars)) = true ↔ left.value vars ≠ right.value vars
      rw [Bool.not_eq_true', decide_eq_false_iff_not]
  | match_ | noMatch => exact (against_answers rfl (fits rfl)).mono fun _ _ has => ⟨rfl, has⟩

section Short

variable {means means' : Prop} {patterns : Text → Bool → Prop} {first second : Except Stop Bool}

theorem Answers.or (answers : Answers engine means patterns first)
    (answers' : Answers engine means' patterns second)
    : Answers engine (means ∨ means') patterns (do if ← first then return true else second) := by
  cases first with
  | error stop =>
      cases stop with
      | error message => exact answers
      | panic => exact answers
  | ok value =>
      cases value with
      | true => exact ⟨fun _ => .inl (answers.mp rfl), fun _ => rfl⟩
      | false =>
          have not_ : ¬means := fun here => Bool.false_ne_true (answers.mpr here)
          show Answers engine (means ∨ means') patterns second
          rw [or_iff_right not_]
          exact answers'

theorem Answers.and (answers : Answers engine means patterns first)
    (answers' : Answers engine means' patterns second)
    : Answers engine (means ∧ means') patterns (do if ← first then second else return false) := by
  cases first with
  | error stop =>
      cases stop with
      | error message => exact answers
      | panic => exact answers
  | ok value =>
      cases value with
      | true =>
          show Answers engine (means ∧ means') patterns second
          rw [and_iff_right (answers.mp rfl)]
          exact answers'
      | false =>
          exact ⟨fun true_ => (nomatch true_), fun both => (Bool.false_ne_true (answers.mpr both.1)).elim⟩

end Short

theorem defined_answers {name : Text} {patterns : Text → Bool → Prop}
    : Answers engine ((Expr.defined name).Means engine vars) patterns
        ((Expr.defined name).holds engine vars) := by
  show (vars name).any (fun value => !value.isEmpty) = true ↔ ∃ value, vars name = some value ∧ value ≠ []
  cases vars name with
  | none => simp
  | some value => simp

/-- A condition that the parser makes comes to what it means, or one of its patterns is refused. -/
theorem holds_answers {expr : Expr} (fits : expr.Fits)
    : Answers engine (expr.Means engine vars) (fun pattern fold => expr.Patterns vars pattern fold)
        (expr.holds engine vars) := by
  induction expr with
  | or left right ih ih' =>
      exact Answers.or ((ih fits.1).mono fun _ _ => Or.inl) ((ih' fits.2).mono fun _ _ => Or.inr)
  | and left right ih ih' =>
      exact Answers.and ((ih fits.1).mono fun _ _ => Or.inl) ((ih' fits.2).mono fun _ _ => Or.inr)
  | defined name => exact defined_answers
  | compare left op right => exact compares_answers fits

theorem Derives.fits {part : Part} {all : List Token} {expr : Expr} {nesting : Nat}
    (derives : Derives part all expr nesting)
    : expr.Fits := by
  induction derives with
  | alone _ ih | single _ ih | group _ ih => exact ih
  | or _ _ ih ih' | and _ _ ih ih' => exact ⟨ih, ih'⟩
  | defined => trivial
  | compare _ _ fits => exact fits

-- Patterns written in place, and held

def whole : Text → Bool
  | '\\' :: _ :: rest => whole rest
  | ['\\'] => false
  | _ :: rest => whole rest
  | [] => true

theorem whole_cons {char : Char} {rest : Text} (noEscape : char ≠ '\\')
    : whole (char :: rest) = whole rest := by
  rw [whole]
  · exact fun _ _ same => absurd same noEscape
  · exact fun same => absurd same noEscape

theorem whole_of_free {text : Text} (free : '\\' ∉ text)
    : whole text := by
  induction text with
  | nil => rfl
  | cons char rest ih =>
      rw [whole_cons fun same => free (same ▸ List.mem_cons_self)]
      exact ih fun there => free (List.mem_cons_of_mem _ there)

theorem whole_append {before after_ : Text} (first : whole before)
    : whole (before ++ after_) = whole after_ := by
  fun_induction whole before with
  | case1 next rest ih =>
      rw [List.cons_append, List.cons_append, whole]
      exact ih first
  | case2 => cases first
  | case3 char rest notNext notLast ih =>
      have noEscape : char ≠ '\\' := by
        intro same
        cases rest with
        | nil => exact notLast same rfl
        | cons next rest => exact notNext _ _ same rfl
      rw [List.cons_append, whole_cons noEscape]
      exact ih first
  | case4 => rfl

/-- What the engine is taken to do: an escaped slash is a slash. -/
def EscapedSlash (engine : Engine) : Prop :=
  ∀ before after_ fold, whole before →
    (engine (before ++ '\\' :: '/' :: after_) fold).toOption = (engine (before ++ '/' :: after_) fold).toOption

theorem engine_body (escaped : EscapedSlash engine) {raw pattern : Text} (body : Body raw pattern) {before : Text}
    (first : whole before) (fold : Bool)
    : (engine (before ++ raw) fold).toOption = (engine (before ++ pattern) fold).toOption := by
  induction body generalizing before with
  | nil => rfl
  | @slash raw pattern _ ih =>
      have longer : whole (before ++ ['/']) := (whole_append first).trans rfl
      have later := ih longer
      rw [List.append_assoc, List.append_assoc] at later
      exact (escaped before raw fold first).trans later
  | @escape raw pattern next _ _ ih =>
      have longer : whole (before ++ ['\\', next]) := (whole_append first).trans rfl
      have later := ih longer
      rw [List.append_assoc, List.append_assoc] at later
      exact later
  | @char raw pattern char _ noEscape _ ih =>
      have longer : whole (before ++ [char]) := by
        rw [whole_append first, whole_cons noEscape]
        rfl
      have later := ih longer
      rw [List.append_assoc, List.append_assoc] at later
      exact later

theorem engine_inlined (escaped : EscapedSlash engine) {raw pattern flags : Text} (body : Body raw pattern)
    (known : ∀ flag ∈ flags, isFlag flag) (fold : Bool)
    : (engine (inlined flags raw) fold).toOption = (engine (inlined flags pattern) fold).toOption := by
  unfold inlined
  split
  next => exact @engine_body engine escaped raw pattern body [] rfl fold
  next =>
    have free : '\\' ∉ '(' :: '?' :: (flags ++ [')']) := by
      intro there
      simp only [List.mem_cons, List.mem_append, List.not_mem_nil, or_false] at there
      obtain there | there | there | there := there
      · exact absurd there (by decide)
      · exact absurd there (by decide)
      · exact absurd (known _ there) (by decide)
      · exact absurd there (by decide)
    have same := engine_body escaped body (whole_of_free free) fold
    simp only [List.cons_append, List.append_assoc, List.nil_append] at same
    exact same

theorem matched_toOption (left : Operand) (op : Op) (pattern : Text) (fold : Bool)
    : (matched engine vars left op pattern fold).toOption
      = (engine pattern fold).toOption.map fun matches_ =>
          matches_ ((left.value vars).getD []) == (op == .match_) := by
  rw [matched, regex]
  cases engine pattern fold with
  | error problem => rfl
  | ok matches_ => rfl

theorem against_written (escaped : EscapedSlash engine) {written pattern name : Text} {fold : Bool}
    {more : Char → Bool} (spells : Spells written (.regex pattern fold) more) (holds : vars name = some written)
    (left : Operand) (op : Op)
    : (against engine vars left op (.regex pattern fold)).toOption
      = (against engine vars left op (.var name)).toOption := by
  cases spells with
  | @regex raw pattern flags body known =>
      have read := asRegex_eq_some_iff.mpr ⟨raw, flags, rfl, known, rfl, rfl⟩
      have inlinedFlags : ∀ flag ∈ flags.filter (· ≠ 'i'), isFlag flag := fun flag there =>
        known flag (List.mem_of_mem_filter there)
      rw [against, against, holds, Option.bind_some, read]
      show (matched engine vars left op _ _).toOption = (matched engine vars left op _ _).toOption
      rw [matched_toOption, matched_toOption, engine_inlined escaped body inlinedFlags]

variable {hidden : Char → Bool}

/-- The conditions of rules mean what their grammar says. A text is read if and only if its tokens are derived
with parentheses that nest within the bound; what is read comes, whatever the variables are, to what the
derivation means, or one of its patterns is none to the engine; and a pattern matches in place what it matches
as a variable's value.
-/
theorem rules_mean (escaped : EscapedSlash engine) {text : Text} (short : bytesOf text ≤ maxLen)
    : (∀ expr, parse hidden text = .ok expr ↔
        ∃ all nesting, Lexed text all ∧ Derives .or all expr nesting ∧ nesting ≤ maxDepth) ∧
      (∀ expr, parse hidden text = .ok expr → ∀ vars,
        Answers engine (expr.Means engine vars) (fun pattern fold => expr.Patterns vars pattern fold)
          (expr.holds engine vars)) ∧
      ∀ {written pattern name more fold}, Spells written (.regex pattern fold) more →
        ∀ vars, vars name = some written → ∀ left op, op.matches_ →
          ((Expr.compare left op (.regex pattern fold)).holds engine vars).toOption
            = ((Expr.compare left op (.var name)).holds engine vars).toOption := by
  refine ⟨fun expr => ?_, fun expr read vars => ?_, fun spells vars holds left op matches_ => ?_⟩
  · rw [parse_eq_ok_iff short]
    simp only [tokens_eq_ok_iff]
  · obtain ⟨all, nesting, -, derives, -⟩ := (parse_eq_ok_iff short).mp read
    exact holds_answers derives.fits
  · cases op with
    | eq => cases matches_
    | ne => cases matches_
    | match_ => exact against_written escaped spells holds left .match_
    | noMatch => exact against_written escaped spells holds left .noMatch

def unslash : Text → Text
  | '\\' :: '/' :: rest => '/' :: unslash rest
  | '\\' :: next :: rest => '\\' :: next :: unslash rest
  | char :: rest => char :: unslash rest
  | [] => []

theorem unslash_append {before after_ : Text} (first : whole before)
    : unslash (before ++ after_) = unslash before ++ unslash after_ := by
  fun_induction unslash before with
  | case1 rest ih =>
      rw [whole] at first
      rw [List.cons_append, List.cons_append, unslash, ih first, List.cons_append]
  | case2 next rest other ih =>
      rw [whole] at first
      rw [List.cons_append, List.cons_append, unslash, ih first, List.cons_append, List.cons_append]
      exact other
  | case3 char rest notSlash notNext ih =>
      have noEscape : char ≠ '\\' := by
        rintro rfl
        cases rest with
        | nil => cases first
        | cons next rest => exact notNext _ _ rfl rfl
      rw [whole_cons noEscape] at first
      rw [List.cons_append, unslash, ih first, List.cons_append]
      · exact fun _ same => absurd same noEscape
      · exact fun _ _ same => absurd same noEscape
  | case4 => rfl

/-- An engine for patterns that stand for themselves: they match where they occur. -/
def plainEngine : Engine :=
  fun pattern _ => .ok fun text => text.tails.any fun tail => (unslash pattern).isPrefixOf tail

theorem plainEngine_escapedSlash
    : EscapedSlash plainEngine := by
  intro before after_ fold first
  have same : unslash (before ++ '\\' :: '/' :: after_) = unslash (before ++ '/' :: after_) := by
    rw [unslash_append first, unslash_append first]
    rfl
  rw [plainEngine, plainEngine, same]

/-- Variables that all hold a pattern with an escaped slash. -/
def slashVars : Vars :=
  fun _ => some ['/', 'a', '\\', '/', 'b', '/']

/-- A pattern with an escaped slash, in a condition and in a variable. -/
theorem rules_mean_slash
    : ((Expr.compare (.var ['A']) .match_ (.regex ['a', '/', 'b'] false)).holds plainEngine slashVars).toOption
      = ((Expr.compare (.var ['A']) .match_ (.var ['P'])).holds plainEngine slashVars).toOption := by
  have body : Body ['a', '\\', '/', 'b'] ['a', '/', 'b'] :=
    .char (by decide) (by decide) (.slash (.char (by decide) (by decide) .nil))
  have spells : Spells ['/', 'a', '\\', '/', 'b', '/'] (.regex ['a', '/', 'b'] false) Char.isAlpha :=
    @Spells.regex _ _ [] body fun _ there => (nomatch there)
  have short : bytesOf "$A =~ /a\\/b/".toList ≤ maxLen := by decide
  exact (@rules_mean plainEngine (fun _ => false) plainEngine_escapedSlash _ short).2.2 spells slashVars rfl
    _ _ rfl

end Dagron.Gitlab
