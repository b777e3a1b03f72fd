import Dagron.CiExpr.GlobReading

/-! The patterns of an environment's policy, which say the refs and the workflows that it admits, beside the
globs of a pipeline's filters: a policy's pattern has neither an escape nor a rule for whole segments, and
without these two they are the same patterns.
-/

namespace Dagron.Spec

mutual
def Pattern.glob (pattern text : List Char) : Bool :=
  match pattern with
  | [] => text.isEmpty
  | '*' :: '*' :: after => Pattern.star true after text
  | '*' :: rest => Pattern.star false rest text
  | '?' :: rest =>
      match text with
      | char :: text => if char ≠ '/' then Pattern.glob rest text else false
      | [] => false
  | expected :: rest =>
      match text with
      | char :: text => if char = expected then Pattern.glob rest text else false
      | [] => false
termination_by 2 * (pattern.length + text.length)

/-- A star takes nothing, then one character more at a time, for as long as it may take the next one. -/
def Pattern.star (across : Bool) (rest text : List Char) : Bool :=
  if Pattern.glob rest text then true
  else
    match text with
    | char :: text => if across || char ≠ '/' then Pattern.star across rest text else false
    | [] => false
termination_by 2 * (rest.length + text.length) + 1
end

def Pattern.matches (pattern text : String) : Bool :=
  Pattern.glob pattern.toList text.toList

end Dagron.Spec

namespace Dagron.CiExpr

open Dagron.Library
open Dagron.Spec

/-- The tokens of a policy's pattern, which has neither an escape, a class nor a rule for segments. -/
def policyTokens : Text → List GlobToken
  | [] => []
  | '*' :: '*' :: rest => .globstar false :: policyTokens rest
  | '*' :: rest => .star :: policyTokens rest
  | '?' :: rest => .one :: policyTokens rest
  | char :: rest => .char char :: policyTokens rest

theorem mem_single_cons_iff (letters : Char → Prop) [DecidablePred letters]
    {further : Language Char} {text : Text} {answer : Bool} {char : Char}
    (rest : answer = true ↔ text ∈ further)
    : (if letters char then answer else false) = true
      ↔ char :: text ∈ single letters * further := by
  rw [mem_single_mul_iff]
  by_cases chosen : letters char
  · rw [if_pos chosen, rest]
    constructor
    · exact fun member => ⟨char, text, rfl, chosen, member⟩
    · rintro ⟨_, _, same, _, member⟩
      cases same
      exact member
  · rw [if_neg chosen]
    constructor
    · intro absurd_
      cases absurd_
    · rintro ⟨_, _, same, chosen', _⟩
      cases same
      exact absurd chosen' chosen

theorem nil_not_mem_single {letters : Char → Prop} {further : Language Char}
    : ([] : Text) ∉ single letters * further := by
  rw [mem_single_mul_iff]
  rintro ⟨_, _, absurd_, _⟩
  cases absurd_

mutual
theorem glob_iff (pattern text : Text)
    : Pattern.glob pattern text = true ↔ text ∈ languageOf (policyTokens pattern) := by
  rw [Pattern.glob.eq_def]
  split
  · rw [policyTokens, List.isEmpty_iff]
    exact Iff.rfl
  · rename_i after
    rw [policyTokens, star_iff true after text]
    exact Iff.rfl
  · rename_i rest single_
    rw [policyTokens, star_iff false rest text]
    · exact Iff.rfl
    · exact single_
  · rename_i rest
    rw [policyTokens]
    cases text with
    | nil => exact iff_of_false Bool.false_ne_true nil_not_mem_single
    | cons char text => exact mem_single_cons_iff (· ≠ '/') (glob_iff rest text)
  · rename_i expected rest noStars noStar noOne
    rw [policyTokens]
    · cases text with
      | nil => exact iff_of_false Bool.false_ne_true nil_not_mem_single
      | cons char text => exact mem_single_cons_iff (· = expected) (glob_iff rest text)
    · exact noStars
    · exact noStar
    · exact noOne
termination_by 2 * (pattern.length + text.length)

theorem star_iff (across : Bool) (rest text : Text)
    : Pattern.star across rest text = true
      ↔ text ∈ (if across then anyRun else within '/') * languageOf (policyTokens rest) := by
  rw [Pattern.star.eq_def]
  have here := glob_iff rest text
  cases text with
  | nil =>
      cases across with
      | true =>
          rw [if_pos rfl, mem_anyRun_mul_iff, ← here]
          simp
      | false =>
          rw [if_neg Bool.false_ne_true, mem_within_mul_iff, ← here]
          simp
  | cons char text =>
      have more := star_iff across rest text
      cases across with
      | true =>
          rw [if_pos rfl] at more
          rw [if_pos rfl, mem_anyRun_mul_iff, ← here]
          simp [more]
      | false =>
          rw [if_neg Bool.false_ne_true] at more
          rw [if_neg Bool.false_ne_true, mem_within_mul_iff, ← here]
          simp [more]
termination_by 2 * (rest.length + text.length) + 1
end

-- The same patterns

def Glob.ClassFree (glob : Glob) : Prop :=
  ∀ negated ranges, GlobToken.class_ negated ranges ∉ glob.tokens

/-- The rule for whole segments, somewhere in a pattern. -/
def HasSegments (pattern : Text) : Prop :=
  ['*', '*', '/'] <:+: pattern

section Same

variable {pattern text : Text} {tokens : List GlobToken}

/-- Without an escape and the rule for segments a pattern has the tokens that a policy reads in it. -/
theorem tokens_eq_policyTokens (spells : Spells compiled pattern tokens)
    (classFree : ∀ negated ranges, GlobToken.class_ negated ranges ∉ tokens)
    (noEscape : '\\' ∉ pattern) (noSegments : GlobToken.globstar true ∉ tokens)
    : tokens = policyTokens pattern := by
  induction spells with
  | nil => rfl
  | escaped _ _ => simp at noEscape
  | segments _ _ => simp at noSegments
  | globstar _ _ _ ih =>
      simp only [List.mem_cons, not_or] at classFree noEscape noSegments
      rw [policyTokens, ← ih (fun _ _ => (classFree _ _).2) noEscape.2.2 noSegments.2]
  | star noStar _ ih =>
      simp only [List.mem_cons, not_or] at classFree noEscape noSegments
      rw [policyTokens, ← ih (fun _ _ => (classFree _ _).2) noEscape.2 noSegments.2]
      rintro others rfl
      exact noStar rfl
  | one _ ih =>
      simp only [List.mem_cons, not_or] at classFree noEscape noSegments
      rw [policyTokens, ← ih (fun _ _ => (classFree _ _).2) noEscape.2 noSegments.2]
  | class_ _ _ _ _ | negated _ _ _ _ => exact absurd List.mem_cons_self (classFree _ _)
  | char plain _ ih =>
      simp only [List.mem_cons, List.not_mem_nil, or_false, not_or] at plain classFree noEscape noSegments
      rw [policyTokens, ← ih (fun _ _ => (classFree _ _).2) noEscape.2 noSegments.2]
      · exact fun others same _ => plain.2.1 same
      · exact plain.2.1
      · exact plain.2.2.1

theorem not_prefix_of_head {first : Char} {others rest : Text} (other : rest.head? ≠ some first)
    : ¬ (first :: others) <+: rest := by
  intro begins
  obtain ⟨more, rfl⟩ := begins
  exact other rfl

theorem segments_mem_iff (spells : Spells compiled pattern tokens)
    (classFree : ∀ negated ranges, GlobToken.class_ negated ranges ∉ tokens)
    (noEscape : '\\' ∉ pattern)
    : GlobToken.globstar true ∈ tokens ↔ HasSegments pattern := by
  unfold HasSegments
  induction spells with
  | nil => simp
  | escaped _ _ => simp at noEscape
  | segments _ _ => simp [List.infix_cons_iff]
  | globstar noSlash noStar _ ih =>
      simp only [List.mem_cons, not_or] at classFree noEscape
      have rest := ih (fun _ _ => (classFree _ _).2) noEscape.2.2
      simp [List.infix_cons_iff, rest, not_prefix_of_head noSlash, not_prefix_of_head noStar]
  | star noStar _ ih =>
      simp only [List.mem_cons, not_or] at classFree noEscape
      have rest := ih (fun _ _ => (classFree _ _).2) noEscape.2
      simp [List.infix_cons_iff, rest, not_prefix_of_head noStar]
  | one _ ih =>
      simp only [List.mem_cons, not_or] at classFree noEscape
      have rest := ih (fun _ _ => (classFree _ _).2) noEscape.2
      simp [List.infix_cons_iff, rest]
  | class_ _ _ _ _ | negated _ _ _ _ => exact absurd List.mem_cons_self (classFree _ _)
  | char plain _ ih =>
      simp only [List.mem_cons, List.not_mem_nil, or_false, not_or] at plain classFree noEscape
      have rest := ih (fun _ _ => (classFree _ _).2) noEscape.2
      have other := Ne.symm plain.2.1
      simp [List.infix_cons_iff, rest, other]

/-- The shortest text that tokens without a class match. -/
def shortest : List GlobToken → Text
  | [] => []
  | .char char :: tokens => char :: shortest tokens
  | .one :: tokens => 'a' :: shortest tokens
  | .star :: tokens => shortest tokens
  | .globstar _ :: tokens => shortest tokens
  | .class_ _ _ :: tokens => shortest tokens

theorem shortest_mem (classFree : ∀ negated ranges, GlobToken.class_ negated ranges ∉ tokens)
    : shortest tokens ∈ languageOf tokens := by
  induction tokens with
  | nil => exact rfl
  | cons token tokens ih =>
      simp only [List.mem_cons, not_or] at classFree
      have rest := ih fun _ _ => (classFree _ _).2
      cases token with
      | char char => exact mem_single_mul_iff.mpr ⟨char, _, rfl, rfl, rest⟩
      | one => exact mem_single_mul_iff.mpr ⟨'a', _, rfl, by decide, rest⟩
      | star => exact mem_within_mul_iff.mpr (Or.inl rest)
      | globstar slash =>
          cases slash with
          | false => exact mem_anyRun_mul_iff.mpr (Or.inl rest)
          | true => exact mem_parts_mul_iff.mpr (Or.inl rest)
      | class_ negated ranges => exact absurd rfl (classFree negated ranges).1

/-- The characters of a policy's pattern that each take one of a text. -/
def asked (pattern : Text) : Text :=
  pattern.filter (· ≠ '*')

theorem asked_star (rest : Text)
    : asked ('*' :: rest) = asked rest :=
  List.filter_cons_of_neg (by decide)

theorem asked_cons {char : Char} (plain : char ≠ '*') (rest : Text)
    : asked (char :: rest) = char :: asked rest :=
  List.filter_cons_of_pos (decide_eq_true plain)

/-- Whether a character may be what a pattern's character takes. -/
def Fits (expected char : Char) : Prop :=
  expected ≠ '?' → char = expected

/-- A text that a policy's pattern matches has a character for each that the pattern asks for, in order. -/
theorem asked_of_mem (member : text ∈ languageOf (policyTokens pattern))
    : ∃ kept, kept.Sublist text ∧ List.Forall₂ Fits (asked pattern) kept := by
  induction pattern using policyTokens.induct generalizing text with
  | case1 => exact ⟨[], List.nil_sublist _, .nil⟩
  | case2 rest ih =>
      rw [policyTokens] at member
      obtain ⟨run, _, others, hothers, rfl⟩ := Language.mem_mul.mp member
      obtain ⟨kept, sub, fits⟩ := ih hothers
      rw [asked_star, asked_star]
      exact ⟨kept, sub.trans (List.sublist_append_right _ _), fits⟩
  | case3 rest single_ ih =>
      rw [policyTokens] at member
      · obtain ⟨run, _, others, hothers, rfl⟩ := Language.mem_mul.mp member
        obtain ⟨kept, sub, fits⟩ := ih hothers
        rw [asked_star]
        exact ⟨kept, sub.trans (List.sublist_append_right _ _), fits⟩
      · exact single_
  | case4 rest ih =>
      rw [policyTokens] at member
      obtain ⟨char, others, rfl, _, hothers⟩ := mem_single_mul_iff.mp member
      obtain ⟨kept, sub, fits⟩ := ih hothers
      rw [asked_cons (by decide)]
      exact ⟨char :: kept, sub.cons_cons char, .cons (fun other => absurd rfl other) fits⟩
  | case5 expected rest noStars noStar noOne ih =>
      rw [policyTokens] at member
      · obtain ⟨char, others, rfl, same, hothers⟩ := mem_single_mul_iff.mp member
        obtain ⟨kept, sub, fits⟩ := ih hothers
        rw [asked_cons noStar]
        exact ⟨char :: kept, sub.cons_cons char, .cons (fun _ => same) fits⟩
      · exact noStars
      · exact noStar
      · exact noOne

/-- The shortest text of a glob is no longer than what a policy asks for, and is what a policy asks for only
where there is no escape and no rule for segments.
-/
theorem shortest_asked (spells : Spells compiled pattern tokens)
    (classFree : ∀ negated ranges, GlobToken.class_ negated ranges ∉ tokens)
    : (shortest tokens).length ≤ (asked pattern).length
      ∧ (List.Forall₂ Fits (asked pattern) (shortest tokens) →
        '\\' ∉ pattern ∧ GlobToken.globstar true ∉ tokens) := by
  induction spells with
  | nil => exact ⟨Nat.le_refl _, fun _ => ⟨List.not_mem_nil, List.not_mem_nil⟩⟩
  | @escaped char rest tokens _ ih =>
      simp only [List.mem_cons, not_or] at classFree
      obtain ⟨le, _⟩ := ih fun _ _ => (classFree _ _).2
      rw [shortest, asked_cons (by decide)]
      by_cases star : char = '*'
      · subst star
        rw [asked_star]
        refine ⟨Nat.succ_le_succ le, fun fits => ?_⟩
        obtain ⟨same, _⟩ := List.forall₂_cons.mp fits
        exact absurd (same (by decide)) (by decide)
      · rw [asked_cons star]
        simp only [List.length_cons]
        refine ⟨by omega, fun fits => ?_⟩
        have sizes := fits.length_eq
        simp only [List.length_cons] at sizes
        omega
  | segments _ ih =>
      simp only [List.mem_cons, not_or] at classFree
      obtain ⟨le, _⟩ := ih fun _ _ => (classFree _ _).2
      rw [shortest, asked_star, asked_star, asked_cons (by decide)]
      simp only [List.length_cons]
      refine ⟨by omega, fun fits => ?_⟩
      have sizes := fits.length_eq
      simp only [List.length_cons] at sizes
      omega
  | globstar _ _ _ ih =>
      simp only [List.mem_cons, not_or] at classFree
      obtain ⟨le, same⟩ := ih fun _ _ => (classFree _ _).2
      rw [shortest, asked_star, asked_star]
      refine ⟨le, fun fits => ?_⟩
      obtain ⟨noEscape, noSegments⟩ := same fits
      simp [noEscape, noSegments]
  | star _ _ ih =>
      simp only [List.mem_cons, not_or] at classFree
      obtain ⟨le, same⟩ := ih fun _ _ => (classFree _ _).2
      rw [shortest, asked_star]
      refine ⟨le, fun fits => ?_⟩
      obtain ⟨noEscape, noSegments⟩ := same fits
      simp [noEscape, noSegments]
  | one _ ih =>
      simp only [List.mem_cons, not_or] at classFree
      obtain ⟨le, same⟩ := ih fun _ _ => (classFree _ _).2
      rw [shortest, asked_cons (by decide)]
      refine ⟨Nat.succ_le_succ le, fun fits => ?_⟩
      obtain ⟨noEscape, noSegments⟩ := same (List.forall₂_cons.mp fits).2
      simp [noEscape, noSegments]
  | class_ _ _ _ _ | negated _ _ _ _ => exact absurd List.mem_cons_self (classFree _ _)
  | char plain _ ih =>
      simp only [List.mem_cons, List.not_mem_nil, or_false, not_or] at plain classFree
      obtain ⟨le, same⟩ := ih fun _ _ => (classFree _ _).2
      rw [shortest, asked_cons plain.2.1]
      refine ⟨Nat.succ_le_succ le, fun fits => ?_⟩
      obtain ⟨noEscape, noSegments⟩ := same (List.forall₂_cons.mp fits).2
      simp [noEscape, noSegments, Ne.symm plain.1]

end Same

/-- A policy's pattern and the glob of the same text, without classes, match the same texts exactly where
there is no backslash in it and nowhere the rule for whole segments.
-/
theorem policy_and_glob_agree_iff (debug : Text → Text) (pattern : String) (glob : Glob)
    (compiles : Glob.new debug pattern.toList = .ok glob) (classFree : glob.ClassFree)
    : (∀ text : String, Pattern.matches pattern text = glob.matches text.toList)
      ↔ '\\' ∉ pattern.toList ∧ ¬ HasSegments pattern.toList := by
  obtain ⟨_, _, _, spells⟩ := new_eq_ok_iff.mp compiles
  have policy : ∀ text : String, Pattern.matches pattern text = true
      ↔ text.toList ∈ languageOf (policyTokens pattern.toList) :=
    fun text => glob_iff pattern.toList text.toList
  constructor
  · intro same
    -- The shortest text that the glob matches is too short, or another one, for the policy.
    obtain ⟨le, fits⟩ := shortest_asked spells classFree
    have matched : glob.matches (shortest glob.tokens) = true :=
      (matches_iff glob _).mpr (shortest_mem classFree)
    have member := (policy (String.ofList (shortest glob.tokens))).mp
      (by rw [same, String.toList_ofList, matched])
    rw [String.toList_ofList] at member
    obtain ⟨kept, sub, taken⟩ := asked_of_mem member
    have whole : kept = shortest glob.tokens :=
      sub.eq_of_length_le (taken.length_eq ▸ le)
    obtain ⟨noEscape, noSegments⟩ := fits (whole ▸ taken)
    exact ⟨noEscape, mt (segments_mem_iff spells classFree noEscape).mpr noSegments⟩
  · rintro ⟨noEscape, noSegments⟩ text
    have same := tokens_eq_policyTokens spells classFree noEscape
      (mt (segments_mem_iff spells classFree noEscape).mp noSegments)
    rw [Bool.eq_iff_iff, policy, matches_iff, same]

theorem policy_and_glob_agree_iff_release
    : ∃ glob, Glob.new id "release/*".toList = .ok glob
      ∧ ((∀ text : String, Pattern.matches "release/*" text = glob.matches text.toList)
        ↔ '\\' ∉ "release/*".toList ∧ ¬ HasSegments "release/*".toList) := by
  have compiles : Glob.new id "release/*".toList
      = .ok ⟨"release/*".toList, [.char 'r', .char 'e', .char 'l', .char 'e', .char 'a', .char 's',
          .char 'e', .char '/', .star]⟩ := by
    decide +kernel
  exact ⟨_, compiles, policy_and_glob_agree_iff id "release/*" _ compiles
    (by intro negated ranges; simp)⟩

/-- The rule for whole segments is a glob's alone, and so is an escape: what a filter takes, a policy with the
same pattern does not.
-/
theorem policy_and_glob_disagree
    : (∃ glob, Glob.new id "a/**/b".toList = .ok glob ∧ glob.ClassFree
        ∧ glob.matches "a/b".toList = true ∧ Pattern.matches "a/**/b" "a/b" = false)
      ∧ ∃ glob, Glob.new id "a\\*b".toList = .ok glob ∧ glob.ClassFree
        ∧ glob.matches "a*b".toList = true ∧ Pattern.matches "a\\*b" "a*b" = false := by
  constructor
  · exact ⟨⟨"a/**/b".toList, [.char 'a', .char '/', .globstar true, .char 'b']⟩, by decide +kernel,
      by intro negated ranges; simp, by decide +kernel, by decide +kernel⟩
  · exact ⟨⟨"a\\*b".toList, [.char 'a', .char '*', .char 'b']⟩, by decide +kernel,
      by intro negated ranges; simp, by decide +kernel, by decide +kernel⟩

end Dagron.CiExpr
