import Dagron.CiExpr.Value
import Mathlib.Algebra.GroupWithZero.Nat

/-! An expression's text read: its tokens, and the tree that they are of. Each reader takes the tokens that
are left and hands back fewer, so that every text is read to an end.
-/

namespace Dagron.CiExpr

open Dagron.Spec

/-- What is wrong with an expression, and the byte of its text it is wrong at. -/
structure Error where
  at_
    : Nat
  message
    : String
  deriving DecidableEq

def error {Result : Type} (at_ : Nat) (message : String) : Except Error Result :=
  .error ⟨at_, message⟩

-- Tokens

inductive Op where
  | less
  | lessOrEqual
  | greater
  | greaterOrEqual
  | equal
  | notEqual
  | and
  | or
  deriving DecidableEq

inductive Token (Num : Type) where
  | number (value : Num)
  | text (text : Text)
  | name (name : Text)
  | open_
  | close
  | openIndex
  | closeIndex
  | dot
  | comma
  | star
  | not
  | op (op : Op)

abbrev Tokens (Num : Type) := List (Nat × Token Num)

def byteLen (text : Text) : Nat :=
  (text.map Char.utf8Size).sum

/-- What a string holds whose opening quote is read, and how many characters there are up to its end. -/
def quotedText : Text → Option (Text × Nat)
  | [] => none
  | '\'' :: '\'' :: rest => (quotedText rest).map fun (text, count) => ('\'' :: text, count + 2)
  | '\'' :: _ => some ([], 1)
  | char :: rest => (quotedText rest).map fun (text, count) => (char :: text, count + 1)

def holds (pattern text : Text) : Bool :=
  (splitOnce pattern text).isSome

def numberOf (seen : Text) : Text → Text
  | [] => seen
  | char :: rest =>
      let exponentSign := (char == '+' || char == '-')
        && seen.getLast?.any (fun last => last == 'e' || last == 'E')
        && !holds ['0', 'x'] seen && !holds ['0', 'X'] seen
      if char.isAlphanum || char == '.' || exponentSign then numberOf (seen ++ [char]) rest else seen

/-- Whether a number begins with a character, before another. -/
def beginsNumber (char : Char) (next : Option Char) : Bool :=
  char.isDigit
    || ((char == '-' || char == '+' || char == '.')
      && next.any fun after => after.isDigit || after == '.')

variable (ext : Externals)

/-- The token that a text begins with, and how many characters it has. -/
def tokenAt (at_ : Nat) (char : Char) (rest : Text) : Except Error (Token ext.Num × Nat) :=
  match char, rest with
  | '(', _ => .ok (.open_, 1)
  | ')', _ => .ok (.close, 1)
  | '[', _ => .ok (.openIndex, 1)
  | ']', _ => .ok (.closeIndex, 1)
  | ',', _ => .ok (.comma, 1)
  | '*', _ => .ok (.star, 1)
  | '\'', _ =>
      match quotedText rest with
      | some (text, count) => .ok (.text text, count + 1)
      | none => error at_ "a string is not closed with a '"
  | '"', _ =>
      error at_ "a string is written in single quotes: 'text', and '' for a quote in it"
  | '=', '=' :: _ => .ok (.op .equal, 2)
  | '!', '=' :: _ => .ok (.op .notEqual, 2)
  | '<', '=' :: _ => .ok (.op .lessOrEqual, 2)
  | '>', '=' :: _ => .ok (.op .greaterOrEqual, 2)
  | '&', '&' :: _ => .ok (.op .and, 2)
  | '|', '|' :: _ => .ok (.op .or, 2)
  | '<', _ => .ok (.op .less, 1)
  | '>', _ => .ok (.op .greater, 1)
  | '!', _ => .ok (.not, 1)
  | char, rest =>
      if beginsNumber char rest.head? then
        let text := numberOf [char] rest
        match parseNumber ext text with
        | some num => .ok (.number num, text.length)
        | none => error at_ ("\"" ++ String.ofList text ++ "\" is not a number")
      else if char = '.' then .ok (.dot, 1)
      else if char.isAlpha || char == '_' then
        let more := rest.takeWhile fun char => char.isAlphanum || char == '_' || char == '-'
        .ok (.name (char :: more), more.length + 1)
      else error at_ (String.ofList (ext.debug char) ++ " is not part of an expression")

def tokensFrom (at_ : Nat) (text : Text) : Except Error (Tokens ext.Num) :=
  match text with
  | [] => .ok []
  | char :: rest =>
      if char = ' ' ∨ char = '\t' ∨ char = '\r' ∨ char = '\n' then tokensFrom (at_ + 1) rest
      else do
        let (token, count) ← tokenAt ext at_ char rest
        let more ← tokensFrom (at_ + byteLen ((char :: rest).take count)) (rest.drop (count - 1))
        return (at_, token) :: more
termination_by text.length
decreasing_by
  · simp only [List.length_cons]
    omega
  · simp only [List.length_drop, List.length_cons]
    omega

def tokens (text : Text) : Except Error (Tokens ext.Num) :=
  tokensFrom ext 0 text

-- Trees

/-- An expression's tree; a call has the byte it is at. -/
inductive Node (Num : Type) where
  | literal (value : Value Num)
  | context (name : Text)
  | property (base : Node Num) (name : Text)
  | index (base index : Node Num)
  | every (base : Node Num)
  | call (at_ : Nat) (name : Text) (args : List (Node Num))
  | not (inner : Node Num)
  | binary (op : Op) (left right : Node Num)

def maxDepth : Nat :=
  50

def maxHeight : Nat :=
  100

/-- A node, and how tall it stands. -/
structure Tall (Num : Type) where
  node
    : Node Num
  height
    : Nat

def leaf {Num : Type} (node : Node Num) : Tall Num :=
  ⟨node, 0⟩

def over_ {Num : Type} (at_ below : Nat) (node : Node Num) : Except Error (Tall Num) :=
  if maxHeight ≤ below then
    error at_
      ("the expression is too deep: more than 100 of its operators, "
        ++ "properties and calls stand one on another")
  else .ok ⟨node, below + 1⟩

def binary {Num : Type} (at_ : Nat) (op : Op) (left right : Tall Num) : Except Error (Tall Num) :=
  over_ at_ (max left.height right.height) (.binary op left.node right.node)

-- The parser

/-- The levels of the operators that stand between two operands, from the one that binds least. -/
inductive Level where
  | or
  | and
  | equality
  | comparison
  deriving DecidableEq

def Level.takes : Level → Op → Bool
  | or, op => op == .or
  | and, op => op == .and
  | equality, op => op == .equal || op == .notEqual
  | comparison, op =>
      op == .less || op == .lessOrEqual || op == .greater || op == .greaterOrEqual

def Level.rank : Level → Nat
  | or => 3
  | and => 2
  | equality => 1
  | comparison => 0

theorem Level.rank_le (level : Level)
    : level.rank ≤ 3 := by
  cases level <;> decide

def named (name : Text) : Node ext.Num :=
  if name = "true".toList then .literal (.bool true)
  else if name = "false".toList then .literal (.bool false)
  else if name = "null".toList then .literal .null
  else if name = "NaN".toList then .literal (.number ext.nan)
  else if name = "Infinity".toList then .literal (.number ext.infinity)
  else .context name

/-- What was read of some tokens, with fewer of them left. -/
structure Read (Num Result : Type) (tokens : Tokens Num) where
  value
    : Result
  rest
    : Tokens Num
  fewer
    : rest.length < tokens.length

/-- What was read on from some tokens, with no more of them left. -/
structure ReadOn (Num Result : Type) (tokens : Tokens Num) where
  value
    : Result
  rest
    : Tokens Num
  noMore
    : rest.length ≤ tokens.length

/-- The byte that the next token is at, in a text with so many bytes. -/
def nextAt {Num : Type} (size : Nat) : Tokens Num → Nat
  | [] => size
  | (at_, _) :: _ => at_

def expect {Num : Type} (size : Nat) (want : Token Num → Bool) (what : String) (tokens : Tokens Num)
    : Except Error (Read Num Unit tokens) :=
  match tokens with
  | (at_, token) :: rest =>
      if want token then .ok ⟨(), rest, Nat.lt_succ_self _⟩ else error at_ ("expected " ++ what)
  | [] => error size ("expected " ++ what)

/-- Reads what follows an argument of a call: whether another does. -/
def argumentEnd {Num : Type} (size : Nat) (tokens : Tokens Num)
    : Except Error (Read Num Bool tokens) :=
  match tokens with
  | (_, .comma) :: rest => .ok ⟨true, rest, Nat.lt_succ_self _⟩
  | (_, .close) :: rest => .ok ⟨false, rest, Nat.lt_succ_self _⟩
  | tokens => error (nextAt size tokens) "expected ',' or ')' in a call"

mutual
/-- Operands with the operators of a level between them, from the left. -/
def level (size depth : Nat) (of_ : Level) (tokens : Tokens ext.Num)
    : Except Error (Read ext.Num (Tall ext.Num) tokens) := do
  let left ← operand size depth of_ tokens
  let all ← levelRest size depth of_ left.value left.rest
  return ⟨all.value, all.rest, Nat.lt_of_le_of_lt all.noMore left.fewer⟩
termination_by tokens.length * 12 + of_.rank * 2 + 3
decreasing_by
  · omega
  · have := left.fewer
    omega

def operand (size depth : Nat) (of_ : Level) (tokens : Tokens ext.Num)
    : Except Error (Read ext.Num (Tall ext.Num) tokens) :=
  match of_ with
  | .or => level size depth .and tokens
  | .and => level size depth .equality tokens
  | .equality => level size depth .comparison tokens
  | .comparison => unary size depth tokens
termination_by tokens.length * 12 + of_.rank * 2 + 2
decreasing_by
  all_goals
    simp only [Level.rank]
    omega

def levelRest (size depth : Nat) (of_ : Level) (left : Tall ext.Num) (tokens : Tokens ext.Num)
    : Except Error (ReadOn ext.Num (Tall ext.Num) tokens) :=
  match tokens with
  | (at_, .op op) :: rest =>
      if of_.takes op then do
        let right ← operand size depth of_ rest
        let both ← binary at_ op left right.value
        let all ← levelRest size depth of_ both right.rest
        return ⟨all.value, all.rest, Nat.le_trans all.noMore (Nat.le_succ_of_le (Nat.le_of_lt right.fewer))⟩
      else .ok ⟨left, (at_, .op op) :: rest, Nat.le_refl _⟩
  | tokens => .ok ⟨left, tokens, Nat.le_refl _⟩
termination_by tokens.length * 12
decreasing_by
  · have := of_.rank_le
    simp only [List.length_cons]
    omega
  · have := right.fewer
    simp only [List.length_cons]
    omega

def unary (size depth : Nat) (tokens : Tokens ext.Num)
    : Except Error (Read ext.Num (Tall ext.Num) tokens) :=
  match tokens with
  | (at_, .not) :: rest =>
      if maxDepth < depth + 1 then error at_ "the expression nests too deeply"
      else do
        let inner ← unary size (depth + 1) rest
        let tall ← over_ at_ inner.value.height (.not inner.value.node)
        return ⟨tall, inner.rest, Nat.lt_succ_of_lt inner.fewer⟩
  | tokens => do
      let base ← primary size depth tokens
      let all ← postfixRest size depth base.value base.rest
      return ⟨all.value, all.rest, Nat.lt_of_le_of_lt all.noMore base.fewer⟩
termination_by tokens.length * 12 + 1
decreasing_by
  · simp only [List.length_cons]
    omega
  · omega
  · have := base.fewer
    omega

def postfixRest (size depth : Nat) (base : Tall ext.Num) (tokens : Tokens ext.Num)
    : Except Error (ReadOn ext.Num (Tall ext.Num) tokens) :=
  match tokens with
  | (at_, .dot) :: (_, .name name) :: rest => do
      let tall ← over_ at_ base.height (.property base.node name)
      let all ← postfixRest size depth tall rest
      return ⟨all.value, all.rest, Nat.le_succ_of_le (Nat.le_succ_of_le all.noMore)⟩
  | (at_, .dot) :: (_, .star) :: rest => do
      let tall ← over_ at_ base.height (.every base.node)
      let all ← postfixRest size depth tall rest
      return ⟨all.value, all.rest, Nat.le_succ_of_le (Nat.le_succ_of_le all.noMore)⟩
  | (_, .dot) :: rest => error (nextAt size rest) "expected a property's name after '.'"
  | (at_, .openIndex) :: rest => do
      let index ← nested size depth rest
      let close ← expect size (fun token => token matches .closeIndex) "a ']'" index.rest
      let tall ← over_ at_ (max base.height index.value.height)
        (.index base.node index.value.node)
      let all ← postfixRest size depth tall close.rest
      return ⟨all.value, all.rest, Nat.le_trans all.noMore
        (Nat.le_succ_of_le (Nat.le_of_lt (Nat.lt_trans close.fewer index.fewer)))⟩
  | tokens => .ok ⟨base, tokens, Nat.le_refl _⟩
termination_by tokens.length * 12
decreasing_by
  all_goals
    simp only [List.length_cons]
  · omega
  · omega
  · omega
  · have := index.fewer
    have := close.fewer
    omega

def nested (size depth : Nat) (tokens : Tokens ext.Num)
    : Except Error (Read ext.Num (Tall ext.Num) tokens) :=
  if maxDepth < depth + 1 then error (nextAt size tokens) "the expression nests too deeply"
  else level size (depth + 1) .or tokens
termination_by tokens.length * 12 + 10
decreasing_by
  simp only [Level.rank]
  omega

def primary (size depth : Nat) (tokens : Tokens ext.Num)
    : Except Error (Read ext.Num (Tall ext.Num) tokens) :=
  match tokens with
  | (_, .number num) :: rest => .ok ⟨leaf (.literal (.number num)), rest, Nat.lt_succ_self _⟩
  | (_, .text text) :: rest => .ok ⟨leaf (.literal (.string text)), rest, Nat.lt_succ_self _⟩
  | (_, .open_) :: rest => do
      let inner ← nested size depth rest
      let close ← expect size (fun token => token matches .close) "a ')'" inner.rest
      return ⟨inner.value, close.rest, Nat.lt_succ_of_lt (Nat.lt_trans close.fewer inner.fewer)⟩
  | (at_, .name name) :: (_, .open_) :: (_, .close) :: rest => do
      let tall ← over_ at_ 0 (.call at_ name [])
      return ⟨tall, rest, by simp only [List.length_cons]; omega⟩
  | (at_, .name name) :: (_, .open_) :: rest => do
      let args ← arguments size depth rest
      let tall ← over_ at_ args.value.2 (.call at_ name args.value.1)
      return ⟨tall, args.rest, Nat.lt_succ_of_lt (Nat.lt_succ_of_lt args.fewer)⟩
  | (_, .name name) :: rest => .ok ⟨leaf (named ext name), rest, Nat.lt_succ_self _⟩
  | (at_, .star) :: _ => error at_ "'*' follows a '.', as in needs.*.result"
  | (at_, _) :: _ => error at_ "expected a value"
  | [] => error size "the expression ends where a value is expected"
termination_by tokens.length * 12
decreasing_by
  all_goals
    simp only [List.length_cons]
    omega

/-- The arguments of a call, to its end, and how tall the tallest of them is. -/
def arguments (size depth : Nat) (tokens : Tokens ext.Num)
    : Except Error (Read ext.Num (List (Node ext.Num) × Nat) tokens) := do
  let arg ← nested size depth tokens
  let next ← argumentEnd size arg.rest
  if next.value then do
    let more ← arguments size depth next.rest
    return ⟨(arg.value.node :: more.value.1, max arg.value.height more.value.2), more.rest,
      Nat.lt_trans more.fewer (Nat.lt_trans next.fewer arg.fewer)⟩
  else
    return ⟨([arg.value.node], arg.value.height), next.rest, Nat.lt_trans next.fewer arg.fewer⟩
termination_by tokens.length * 12 + 11
decreasing_by
  · omega
  · have := arg.fewer
    have := next.fewer
    omega
end

/-- An expression that was read. -/
structure Expr where
  node
    : Node ext.Num

def parse (text : Text) : Except Error (Expr ext) := do
  let tokens ← tokens ext text
  if tokens.isEmpty then error 0 "the expression is empty"
  else do
    let read ← level ext (byteLen text) 0 .or tokens
    if read.rest.isEmpty then return ⟨read.value.node⟩
    else error (nextAt (byteLen text) read.rest) "the expression goes on past its end"

end Dagron.CiExpr
