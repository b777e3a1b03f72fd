import Dagron.CiExpr.Parse
import Dagron.Library.Memo

/-! The globs that the filters of a pipeline take: a pattern compiled to its tokens, a text matched against
them with a table of what is known, and the pattern lists.
-/

namespace Dagron.CiExpr

open Dagron.Library (Memo)
open Dagron.Library.Memo (blank)

inductive GlobToken where
  | char (char : Char)
  | one
  | star
  | globstar (slash : Bool)
  | class_ (negated : Bool) (ranges : List (Char × Char))
  deriving DecidableEq

/-- A compiled glob. -/
structure Glob where
  source
    : Text
  tokens
    : List GlobToken
  deriving DecidableEq

-- Compiling

/-- The character that a class goes on with, an escaped one as itself, and what follows it. -/
def letter : Text → Option (Char × Text)
  | [] => none
  | ['\\'] => none
  | '\\' :: char :: rest => some (char, rest)
  | char :: rest => some (char, rest)

/-- The end of a range whose first character is read, and what follows it; none where there is no range. -/
def rangeEnd : Text → Option (Char × Text)
  | '-' :: last :: rest => if last ≠ ']' then some (last, rest) else none
  | _ => none

theorem length_of_letter {text rest : Text} {char : Char} (read : letter text = some (char, rest))
    : rest.length < text.length := by
  unfold letter at read
  split at read <;> cases read <;> simp only [List.length_cons] <;> omega

theorem length_of_rangeEnd {text rest : Text} {char : Char} (read : rangeEnd text = some (char, rest))
    : rest.length < text.length := by
  unfold rangeEnd at read
  split at read
  · split at read <;> cases read
    simp only [List.length_cons]
    omega
  · cases read

/-- The ranges of a class up to the bracket that closes it, and what follows that. -/
def ranges (first : Bool) (chars : Text) : Option (List (Char × Char) × Text) :=
  if chars.head? = some ']' ∧ !first then some ([], chars.tail)
  else
    match _hletter : letter chars with
    | none => none
    | some (char, rest) =>
        match _hend : rangeEnd rest with
        | some (last, rest') =>
            if last < char then none
            else (ranges false rest').map fun (more, next) => ((char, last) :: more, next)
        | none => (ranges false rest).map fun (more, next) => ((char, char) :: more, next)
termination_by chars.length
decreasing_by
  · exact Nat.lt_trans (length_of_rangeEnd _hend) (length_of_letter _hletter)
  · exact length_of_letter _hletter

/-- A class whose opening bracket is read: its token, and what follows the bracket that closes it. -/
def class_ (chars : Text) : Option (GlobToken × Text) :=
  let negated := chars.head? = some '!' ∨ chars.head? = some '^'
  (ranges true (if negated then chars.tail else chars)).map fun (ranges, next) =>
    (.class_ negated ranges, next)

theorem length_of_ranges {first : Bool} {chars next : Text} {found : List (Char × Char)}
    (read : ranges first chars = some (found, next))
    : next.length < chars.length := by
  induction hsize : chars.length using Nat.strongRecOn generalizing first chars found with
  | _ size ih =>
      unfold ranges at read
      split at read
      case isTrue closed =>
        cases read
        cases chars with
        | nil => cases closed.1
        | cons char rest => simp [← hsize]
      case isFalse =>
        split at read
        · cases read
        · rename_i char rest hletter
          have shorter := length_of_letter hletter
          split at read
          · rename_i last rest' hend
            have shorter' := length_of_rangeEnd hend
            split at read
            · cases read
            · obtain ⟨⟨more, _⟩, hmore, heq⟩ := Option.map_eq_some_iff.mp read
              cases heq
              have := ih _ (by omega) hmore rfl
              omega
          · obtain ⟨⟨more, _⟩, hmore, heq⟩ := Option.map_eq_some_iff.mp read
            cases heq
            have := ih _ (by omega) hmore rfl
            omega

theorem length_of_class {chars next : Text} {token : GlobToken} (read : class_ chars = some (token, next))
    : next.length < chars.length + 1 := by
  obtain ⟨⟨found, _⟩, hfound, heq⟩ := Option.map_eq_some_iff.mp read
  cases heq
  have shorter := length_of_ranges hfound
  split at shorter
  · rw [List.length_tail] at shorter
    omega
  · omega

def isControl (char : Char) : Bool :=
  char.toNat < 0x20 || (0x7F ≤ char.toNat && char.toNat ≤ 0x9F)

section Compile

variable (debug : Text → Text) (pattern : Text)

def wrong {Result : Type} (why : String) : Except String Result :=
  .error ("pattern " ++ String.ofList (debug pattern) ++ why)

def compile (chars : Text) : Except String (List GlobToken) :=
  match chars with
  | [] => .ok []
  | '\\' :: rest =>
      match rest with
      | [] => wrong debug pattern " ends in a lone \\"
      | char :: rest => (compile rest).map (.char char :: ·)
  | '*' :: '*' :: rest =>
      match rest with
      | '*' :: _ => wrong debug pattern " has three *s in a row"
      | '/' :: rest => (compile rest).map (.globstar true :: ·)
      | rest => (compile rest).map (.globstar false :: ·)
  | '*' :: rest => (compile rest).map (.star :: ·)
  | '?' :: rest => (compile rest).map (.one :: ·)
  | '[' :: rest =>
      match _hclass : class_ rest with
      | none => wrong debug pattern " has an unclosed ["
      | some (token, next) => (compile next).map (token :: ·)
  | char :: rest => (compile rest).map (.char char :: ·)
termination_by chars.length
decreasing_by
  all_goals first | exact length_of_class _hclass | (simp_wf; try omega)

def Glob.new : Except String Glob :=
  if pattern = [] then .error "a pattern is empty"
  else if pattern.any isControl then wrong debug pattern " holds a control character"
  else (compile debug pattern pattern).map (⟨pattern, ·⟩)

end Compile

-- Matching

/-- Whether a text has a character at a place, and one that passes. -/
def hasAt (text : Text) (t : Nat) (passes : Char → Bool) : Bool :=
  text[t]?.any passes

theorem lt_of_hasAt {text : Text} {t : Nat} {passes : Char → Bool} (has : hasAt text t passes = true)
    : t < text.length := by
  unfold hasAt at has
  cases found : text[t]? with
  | none =>
      rw [found] at has
      cases has
  | some char => exact (List.getElem?_eq_some_iff.mp found).1

/-- Whether a class has a character that is not a slash. -/
def inClass (negated : Bool) (ranges : List (Char × Char)) (char : Char) : Bool :=
  char != '/' && ranges.any (fun (lo, hi) => lo ≤ char && char ≤ hi) != negated

section Match

variable (tokens : List GlobToken) (text : Text)

mutual
/-- Whether the tokens from (p) on match the text from (t) on, and what is known then. -/
def matchesAt (t p : Nat) (memo : Memo Bool) : Bool × Memo Bool :=
  match memo.cell t p with
  | some known => (known, memo)
  | none =>
      let (result, memo) :=
        match htoken : tokens[p]? with
        | none => (decide (t = text.length), memo)
        | some (.char char) =>
            if hasAt text t (· == char) then matchesAt (t + 1) (p + 1) memo else (false, memo)
        | some .one =>
            if hasAt text t (· != '/') then matchesAt (t + 1) (p + 1) memo else (false, memo)
        | some .star =>
            -- No character, or one more that is not a slash.
            let (found, memo) := matchesAt t (p + 1) memo
            if found then (true, memo)
            else if has : hasAt text t (· != '/') then matchesAt (t + 1) p memo
            else (false, memo)
        | some (.globstar false) =>
            let (found, memo) := matchesAt t (p + 1) memo
            if found then (true, memo)
            else if more : t < text.length then matchesAt (t + 1) p memo
            else (false, memo)
        | some (.globstar true) =>
            -- No segment, or anything that ends in a slash.
            let (found, memo) := matchesAt t (p + 1) memo
            if found then (true, memo) else afterSlash t p memo
        | some (.class_ negated ranges) =>
            if hasAt text t (inClass negated ranges) then matchesAt (t + 1) (p + 1) memo
            else (false, memo)
      (result, memo.fill t p result)
termination_by 2 * ((tokens.length - p) + (text.length - t)) + 1
decreasing_by
  all_goals
    have := (List.getElem?_eq_some_iff.mp htoken).1
    first
      | (have shorter := lt_of_hasAt has; omega)
      | omega

/-- Whether the tokens behind (p) match the text behind a slash that is at (t) or after it. -/
def afterSlash (t p : Nat) (memo : Memo Bool) : Bool × Memo Bool :=
  if more : t < text.length then
    if text[t] = '/' then
      let (found, memo) := matchesAt (t + 1) (p + 1) memo
      if found then (true, memo) else afterSlash (t + 1) p memo
    else afterSlash (t + 1) p memo
  else (false, memo)
termination_by 2 * ((tokens.length - p) + (text.length - t))
end

def Glob.matches (glob : Glob) (text : Text) : Bool :=
  (matchesAt glob.tokens text 0 0 (blank (text.length + 1) (glob.tokens.length + 1))).1

end Match

-- Pattern lists

/-- The patterns of a list, each with whether it takes in what it matches. -/
abbrev Patterns := List (Bool × Glob)

/-- Whether the last pattern of a list that matches a name takes it in. -/
def Patterns.matches (patterns : Patterns) (name : Text) : Bool :=
  (patterns.reverse.find? fun (_, glob) => glob.matches name).any fun (included, _) => included

end Dagron.CiExpr
