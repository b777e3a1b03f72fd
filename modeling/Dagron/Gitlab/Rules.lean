import Dagron.Gitlab.Tokens
import Dagron.Library.Slices

/-! Conditions of rules: the parser that reads one from its tokens, and the grammar that it reads.
-/

namespace Dagron.Gitlab

open Dagron.Library

/-- What is compared. -/
inductive Operand where
  | var (name : Text)
  | str (text : Text)
  | null
  | regex (pattern : Text) (fold : Bool)
  deriving DecidableEq

/-- A condition. -/
inductive Expr where
  | or (left right : Expr)
  | and (left right : Expr)
  | defined (name : Text)
  | compare (left : Operand) (op : Op) (right : Operand)
  deriving DecidableEq

def maxLen : Nat :=
  4096

def maxDepth : Nat :=
  32

-- Tokens and operands in errors

def Op.debug : Op → String
  | eq => "Eq"
  | ne => "Ne"
  | match_ => "Match"
  | noMatch => "NoMatch"

variable (hidden : Char → Bool)

def debugRegex (pattern : Text) (fold : Bool) : String :=
  "Regex(" ++ quotedText hidden pattern ++ ", " ++ toString fold ++ ")"

def Token.debug : Token → String
  | var name => "Var(" ++ quotedText hidden name ++ ")"
  | str text => "Str(" ++ quotedText hidden text ++ ")"
  | regex pattern fold => debugRegex hidden pattern fold
  | null => "Null"
  | op compares => "Op(" ++ compares.debug ++ ")"
  | and => "And"
  | or => "Or"
  | open_ => "Open"
  | close => "Close"

def Operand.debug : Operand → String
  | var name => "Var(" ++ quotedText hidden name ++ ")"
  | str text => "Str(" ++ quotedText hidden text ++ ")"
  | null => "Null"
  | regex pattern fold => debugRegex hidden pattern fold

-- The parser

/-- What was read from some tokens, one at least. -/
structure Read (Result : Type) (tokens : List Token) where
  value
    : Result
  rest
    : List Token
  fewer
    : rest.length < tokens.length

/-- What was read on from some tokens, with no more of them left. -/
structure ReadOn (tokens : List Token) where
  value
    : Expr
  rest
    : List Token
  noMore
    : rest.length ≤ tokens.length

abbrev Reader :=
  (tokens : List Token) → Except String (Read Expr tokens)

/-- Reads on after a condition, while what joins it to another follows. -/
def joinedRest (item : Reader) (joins : Token) (join : Expr → Expr → Expr) (left : Expr)
    : (tokens : List Token) → Except String (ReadOn tokens)
  | [] => .ok ⟨left, [], Nat.le_refl _⟩
  | token :: rest =>
      if token = joins then do
        let right ← item rest
        let all ← joinedRest item joins join (join left right.value) right.rest
        return ⟨all.value, all.rest, Nat.le_succ_of_le (Nat.le_trans all.noMore (Nat.le_of_lt right.fewer))⟩
      else .ok ⟨left, token :: rest, Nat.le_refl _⟩
  termination_by tokens => tokens.length
  decreasing_by exact Nat.lt_succ_of_lt right.fewer

def joined (item : Reader) (joins : Token) (join : Expr → Expr → Expr) : Reader :=
  fun tokens => do
    let left ← item tokens
    let all ← joinedRest item joins join left.value left.rest
    return ⟨all.value, all.rest, Nat.lt_of_le_of_lt all.noMore left.fewer⟩

def Token.operand : Token → Option Operand
  | var name => some (.var name)
  | str text => some (.str text)
  | regex pattern fold => some (.regex pattern fold)
  | null => some .null
  | op _ | and | or | open_ | close => none

def operand (tokens : List Token) : Except String (Read Operand tokens) :=
  match tokens with
  | [] => .error "ends where a variable, a string or null goes"
  | token :: rest =>
      match token.operand with
      | some operand => .ok ⟨operand, rest, Nat.lt_succ_self _⟩
      | none => .error (token.debug hidden ++ " is where a variable, a string or null goes")

/-- Whether an operator matches its left against its right. -/
def Op.matches_ (op : Op) : Bool :=
  op = .match_ || op = .noMatch

/-- Whether an operand is, or may hold, a regular expression. -/
def Operand.isPattern : Operand → Bool
  | var _ => true
  | regex _ _ => true
  | str _ => false
  | null => false

def comparison : Reader :=
  fun tokens => do
    let left ← operand hidden tokens
    match _next : left.rest with
    | .op op :: rest => do
        let right ← operand hidden rest
        if op.matches_ && !right.value.isPattern then
          .error "=~ and !~ match against a /regular expression/, or a variable that holds one"
        else
          return ⟨.compare left.value op right.value, right.rest,
            Nat.lt_trans right.fewer (Nat.lt_trans (_next ▸ Nat.lt_succ_self _) left.fewer)⟩
    | _ =>
        match left.value with
        | .var name => return ⟨.defined name, left.rest, left.fewer⟩
        | other => .error (other.debug hidden ++ " alone is no condition: compare it with == or !=")

/-- Reads what is in parentheses, to the one that closes them. -/
def grouped (inner : Reader) (rest : List Token) : Except String (Read Expr (.open_ :: rest)) := do
  let read ← inner rest
  match _next : read.rest with
  | .close :: tail =>
      return ⟨read.value, tail, Nat.lt_succ_of_lt
        (Nat.lt_trans (_next ▸ Nat.lt_succ_self _) read.fewer)⟩
  | _ => .error "a ( with no ) to end it"

/-- Reads what operators join, where parentheses may nest so much deeper. -/
def unit : Nat → Reader
  | deeper, .open_ :: rest =>
      match deeper with
      | 0 => .error ("nests parentheses more than " ++ toString maxDepth ++ " deep")
      | deeper + 1 => grouped (joined (joined (unit deeper) .and .and) .or .or) rest
  | _, tokens => comparison hidden tokens

def and (deeper : Nat) : Reader :=
  joined (unit hidden deeper) .and .and

def or (deeper : Nat) : Reader :=
  joined (and hidden deeper) .or .or

def parse (text : Text) : Except String Expr :=
  if maxLen < bytesOf text then
    .error ("is over the " ++ toString maxLen ++ " characters an expression may be")
  else do
    let all ← tokens hidden text
    if all.isEmpty then .error "is empty"
    else do
      let read ← or hidden maxDepth all
      match read.rest with
      | [] => return read.value
      | token :: _ => .error (token.debug hidden ++ " is left over after the expression")

end Dagron.Gitlab
