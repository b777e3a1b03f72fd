import Dagron.CiExpr.Eval

/-! Texts with expressions in them: how one is read, what is written of it against a host, and how the
script of a step is rewritten, so that what an outsider chose is read from a variable.
-/

namespace Dagron.CiExpr

open Dagron.Spec

def opening : Text :=
  ['$', '{', '{']

def closing : Text :=
  ['}', '}']

inductive Part (ext : Externals) where
  | text (text : Text)
  | expr (expr : Expr ext)

/-- A text as a workflow has one. -/
structure Template (ext : Externals) where
  parts
    : List (Part ext)

-- Reading

/-- Where the end of an expression is, in what follows its opening. -/
def expressionEnd (quoted : Bool) : Text → Option Nat
  | [] => none
  | char :: rest =>
      if char = '\'' then (expressionEnd (!quoted) rest).map (· + 1)
      else if char = '}' ∧ !quoted ∧ rest.head? = some '}' then some 0
      else (expressionEnd quoted rest).map (· + 1)

/-- What follows a text's first occurrence of what opens an expression is shorter than the text. -/
theorem length_of_opening {text before after : Text} (split : splitOnce opening text = some (before, after))
    : after.length < text.length := by
  cases text with
  | nil => exact absurd split nofun
  | cons char rest =>
      rw [splitOnce] at split
      split_ifs at split
      · cases split
        have shorter : ((char :: rest).drop opening.length).length = rest.length + 1 - 3 :=
          List.length_drop
        rw [shorter, List.length_cons]
        omega
      · obtain ⟨⟨before', after'⟩, later, same⟩ := Option.map_eq_some_iff.mp split
        cases same
        exact Nat.lt_succ_of_le (length_of_splitOnce later)

variable (ext : Externals)

def partsFrom (offset : Nat) (rest : Text) : Except Error (List (Part ext)) :=
  match _split : splitOnce opening rest with
  | none => .ok (if rest.isEmpty then [] else [.text rest])
  | some (before, body) =>
      match expressionEnd false body with
      | none => error (offset + byteLen before) "a $\x7b\x7b is not closed with \x7d\x7d"
      | some close => do
          let start := offset + byteLen before + 3
          let expr ← (parse ext (body.take close)).mapError fun e => { e with at_ := start + e.at_ }
          let more ← partsFrom (start + byteLen (body.take close) + 2) (body.drop (close + 2))
          return (if before.isEmpty then [] else [.text before]) ++ .expr expr :: more
termination_by rest.length
decreasing_by
  have := length_of_opening _split
  simp only [List.length_drop]
  omega

def template (text : Text) : Except Error (Template ext) :=
  Template.mk <$> partsFrom ext 0 text

/-- A condition, which is an expression where it is not a text with one. -/
def condition (text : Text) : Except Error (Template ext) :=
  let trimmed := trim text
  if holds opening trimmed then template ext trimmed
  else (fun expr => ⟨[.expr expr]⟩) <$> parse ext trimmed

variable {ext}

namespace Template

def exprs (template : Template ext) : List (Expr ext) :=
  template.parts.filterMap fun
    | .expr expr => some expr
    | .text _ => none

/-- Parts with each expression's value written into them. -/
def writeParts (host : Host ext) : List (Part ext) → Except Error Text
  | [] => .ok []
  | .text text :: rest => (text ++ ·) <$> writeParts host rest
  | .expr expr :: rest => do
      let value ← expr.eval host
      (value.text ++ ·) <$> writeParts host rest

/-- The text with each expression's value written into it. -/
def text (template : Template ext) (host : Host ext) : Except Error Text :=
  writeParts host template.parts

/-- The text's value: a text that is one expression has that one's. -/
def eval (template : Template ext) (host : Host ext) : Except Error (Value ext.Num) :=
  match template.parts with
  | [.expr only] => only.eval host
  | _ => .string <$> template.text host

/-- Parts with each expression replaced, from the (count)th on. -/
def replaceParts {State : Type} (with_ : State → Nat → Expr ext → Text × State)
    : State → Nat → List (Part ext) → Text × State
  | state, _, [] => ([], state)
  | state, count, .text text :: rest =>
      let (written, after) := replaceParts with_ state count rest
      (text ++ written, after)
  | state, count, .expr expr :: rest =>
      let (text, next) := with_ state count expr
      let (written, after) := replaceParts with_ next (count + 1) rest
      (text ++ written, after)

/-- The text with each expression replaced, by what may remember those before. -/
def replace {State : Type} (template : Template ext)
    (with_ : State → Nat → Expr ext → Text × State) (state : State)
    : Text × State :=
  replaceParts with_ state 0 template.parts

end Template

-- Scripts

/-- The end of an expression as the sources' own loop finds it, from an index on. -/
def sourceEnd (quoted : Bool) (index : Nat) : Text → Option Nat
  | [] => none
  | char :: rest =>
      if char = '\'' then sourceEnd (!quoted) (index + 1) rest
      else if char = '}' ∧ !quoted ∧ rest.head? = some '}' then some index
      else sourceEnd quoted (index + 1) rest

/-- The text of each expression of a text, without what opens it and ends it. -/
def sources (text : Text) : List Text :=
  match _split : splitOnce opening text with
  | none => []
  | some (_, body) =>
      match sourceEnd false 0 body with
      | none => []
      | some end_ => body.take end_ :: sources (body.drop (end_ + 2))
termination_by text.length
decreasing_by
  have := length_of_opening _split
  simp only [List.length_drop]
  omega

/-- The shell variable of the (number)th expression that is not pasted. -/
def variable_ (number : Nat) : Text :=
  '$' :: '{' :: '_' :: "_CI_E".toList ++ Nat.toDigits 10 number ++ ['}']

/-- A script as it is rewritten: the sources of the expressions that follow, those of the ones that are
not pasted, and whether one was met that cannot be a variable.
-/
structure Rewriting where
  sources
    : List Text
  exprs
    : List Text := []
  refused
    : Bool := false

def rewrite (readsVariables : Bool) (state : Rewriting) (_ : Nat) (expr : Expr ext) : Text × Rewriting :=
  let source := state.sources.head?.getD []
  let next := { state with sources := state.sources.tail }
  if expr.pasted then (opening ++ source ++ closing, next)
  else
    let exprs := state.exprs ++ [trim source]
    (variable_ exprs.length,
      { next with exprs := exprs, refused := state.refused || !readsVariables })

variable (ext)

/-- A step's script as the step runner is handed it, with the expressions that are variables there. -/
def script (run : Text) (readsVariables : Bool) : Except Error (Option (Text × List Text)) := do
  let read ← template ext run
  let (rewritten, after) := read.replace (rewrite readsVariables) { sources := sources run }
  return if after.refused then none else some (rewritten, after.exprs)

variable {ext}

/-- The text that the step runner runs: the script with the expressions that are left in it pasted. -/
def scriptText (host : Host ext) (run : Text) : Except Error (Option Text) := do
  match ← script ext run true with
  | none => return none
  | some (rewritten, _) => do
      let read ← template ext rewritten
      some <$> read.text host

end Dagron.CiExpr
