import Mathlib.Data.List.Basic
import Mathlib.Order.Basic
import Mathlib.Tactic.SplitIfs
import Dagron.CiExpr.Parse

/-! What an expression comes to against a host, and which of the contexts it reads.
-/

namespace Dagron.CiExpr

open Dagron.Spec

variable {ext : Externals}

/-- What an expression is evaluated against: the contexts that are known, and the functions that are no
others' to answer.
-/
structure Host (ext : Externals) where
  context
    : Text → Option (Value ext.Num)
  call
    : Text → List (Value ext.Num) → Option (Except String (Value ext.Num))

-- Contexts

def notAnOutsiders : List Text :=
  ["action", "api_url", "event_name", "job", "ref_type", "repository", "repository_owner",
    "retention_days", "run_attempt", "run_id", "run_number", "server_url", "sha", "workflow",
    "workspace"].map String.toList

mutual

/-- The contexts that a tree reads, each with the property read of it, where that is written as a name. -/
def Node.contexts : Node ext.Num → List (Text × Option Text)
  | .literal _ => []
  | .context name => [(name, none)]
  | .property (.context name) property => [(name, some property)]
  | .property base _ => base.contexts
  | .index (.context name) (.literal (.string property)) => [(name, some property)]
  | .index base index => base.contexts ++ index.contexts
  | .every base => base.contexts
  | .not inner => inner.contexts
  | .call _ _ args => contextsOf args
  | .binary _ left right => left.contexts ++ right.contexts

def contextsOf : List (Node ext.Num) → List (Text × Option Text)
  | [] => []
  | arg :: rest => arg.contexts ++ contextsOf rest

end

local instance lawfulText : LawfulBEq (List Char) :=
  inferInstance

def ownContexts : List Text :=
  ["matrix", "strategy", "runner", "job", "vars"].map String.toList

/-- Whether no outsider chooses what is read of a context. -/
def ours (read : Text × Option Text) : Bool :=
  if toAsciiLowercase read.1 ∈ ownContexts then true
  else if toAsciiLowercase read.1 = "github".toList then
    read.2.any fun property => toAsciiLowercase property ∈ notAnOutsiders
  else false

/-- Whether no outsider chooses the expression's value. -/
def Expr.pasted (expr : Expr ext) : Bool :=
  expr.node.contexts.all ours

-- Functions

mutual

/-- The functions that a tree calls, as they are written. -/
def Node.functions : Node ext.Num → List Text
  | .literal _ | .context _ => []
  | .property base _ | .every base | .not base => base.functions
  | .index base index => base.functions ++ index.functions
  | .call _ name args => name :: functionsOf args
  | .binary _ left right => left.functions ++ right.functions

def functionsOf : List (Node ext.Num) → List Text
  | [] => []
  | arg :: rest => arg.functions ++ functionsOf rest

end

/-- The functions that say how the job or the workflow stands. -/
def statusFunctions : List Text :=
  ["always", "cancelled", "failure", "success"].map String.toList

/-- Whether the expression asks how the job or the workflow stands. -/
def Expr.asksStatus (expr : Expr ext) : Bool :=
  expr.node.functions.any fun name => toAsciiLowercase name ∈ statusFunctions

/-- How two values stand to each other: those of one type as that type, of two as numbers. -/
def order (left right : Value ext.Num) : Option Ordering :=
  match left, right with
  | .string first, .string second => some (compare (ext.toLowercase first) (ext.toLowercase second))
  | .null, .null => some .eq
  | .bool first, .bool second => some (compare first second)
  | .array _, .array _ | .object _, .object _ => none
  | left, right => ext.partialCmp left.toNumber right.toNumber

def compare_ (op : Op) (left right : Value ext.Num) : Bool :=
  match op, order left right with
  | .notEqual, none => true
  | _, none => false
  | .equal, some found => found == .eq
  | .notEqual, some found => found != .eq
  | .less, some found => found == .lt
  | .lessOrEqual, some found => found != .gt
  | .greater, some found => found == .gt
  | .greaterOrEqual, some found => found != .lt
  | .and, _ | .or, _ => false

theorem length_of_splitOnce {pattern text before after : Text}
    (split : splitOnce pattern text = some (before, after))
    : after.length ≤ text.length := by
  induction text generalizing before with
  | nil =>
      rw [splitOnce] at split
      split_ifs at split
      cases split
      exact Nat.le_refl _
  | cons char rest ih =>
      rw [splitOnce] at split
      split_ifs at split
      · cases split
        rw [List.length_drop]
        exact Nat.sub_le ..
      · obtain ⟨⟨before', after'⟩, later, same⟩ := Option.map_eq_some_iff.mp split
        cases same
        exact Nat.le_succ_of_le (ih later)

/-- A text with each number in braces replaced by the argument of that number, and two braces by one. -/
def format (at_ : Nat) (args : List (Value ext.Num)) (text : Text) : Except Error Text :=
  match text with
  | [] => .ok []
  | '{' :: '{' :: rest => ('{' :: ·) <$> format at_ args rest
  | '}' :: '}' :: rest => ('}' :: ·) <$> format at_ args rest
  | '{' :: rest =>
      match _split : splitOnce ['}'] rest with
      | none => error at_ "format: a '\x7b' is not closed"
      | some (inner, rest') =>
          match parseU64 (trim inner) with
          | none =>
              error at_ ("format: \x7b" ++ String.ofList inner ++ "\x7d is not a number of an argument")
          | some number =>
              match args[number]? with
              | none => error at_ ("format: there is no argument " ++ toString number)
              | some arg => (arg.text ++ ·) <$> format at_ args rest'
  | '}' :: _ => error at_ "format: a '\x7d' closes nothing; write '\x7d\x7d' for a brace"
  | char :: rest => (char :: ·) <$> format at_ args rest
termination_by text.length
decreasing_by
  · simp only [List.length_cons]
    omega
  · simp only [List.length_cons]
    omega
  · have := length_of_splitOnce _split
    simp only [List.length_cons]
    omega
  · simp only [List.length_cons]
    omega

/-- Whether a call has as many arguments as its function takes. -/
def takes (at_ : Nat) (name : Text) (least most : Nat) (args : List (Value ext.Num))
    : Except Error Unit :=
  if least ≤ args.length ∧ args.length ≤ most then .ok ()
  else
    let count := if least = most then toString least else toString least ++ " to " ++ toString most
    error at_
      (String.ofList name ++ " takes " ++ count ++ " arguments, and has " ++ toString args.length)

def call (host : Host ext) (at_ : Nat) (name : Text) (args : List (Value ext.Num))
    : Except Error (Value ext.Num) :=
  let lower (value : Value ext.Num) : Text := ext.toLowercase value.text
  let arg (place : Nat) : Value ext.Num := args.getD place .null
  match String.ofList (toAsciiLowercase name) with
  | "contains" => do
      takes at_ name 2 2 args
      match arg 0 with
      | .array items => return .bool (items.any fun item => compare_ .equal item (arg 1))
      | search => return .bool (holds (lower (arg 1)) (lower search))
  | "startswith" => do
      takes at_ name 2 2 args
      return .bool ((lower (arg 1)).isPrefixOf (lower (arg 0)))
  | "endswith" => do
      takes at_ name 2 2 args
      return .bool ((lower (arg 1)).isSuffixOf (lower (arg 0)))
  | "format" =>
      if args.isEmpty then error at_ "format takes a text and what to put in it"
      else .string <$> format at_ args.tail (arg 0).text
  | "join" => do
      takes at_ name 1 2 args
      let separator := (args[1]?).elim [','] Value.text
      match arg 0 with
      | .array items => return .string (separator.intercalate (items.map Value.text))
      | other => return .string other.text
  | "tojson" => do
      takes at_ name 1 1 args
      return .string ((ext.toStringPretty (arg 0).toJson).getD [])
  | "fromjson" => do
      takes at_ name 1 1 args
      match ext.fromStr (arg 0).text with
      | .ok json => return .ofJson json
      | .error why => error at_ ("fromJSON was given what is not JSON: " ++ why)
  | _ =>
      match host.call name args with
      | some (.ok value) => .ok value
      | some (.error why) => error at_ (String.ofList name ++ ": " ++ why)
      | none =>
          error at_ ("`" ++ String.ofList name ++ "` is not a function that can be called here")

-- Evaluation

def spread : Value ext.Num → List (Value ext.Num)
  | .object fields => fields.map Prod.snd
  | .array items => items
  | _ => []

mutual

/-- A tree's value, and whether what is read of it is read of each of its elements. -/
def Node.eval (host : Host ext) : Node ext.Num → Except Error (Value ext.Num × Bool)
  | .literal value => .ok (value, false)
  | .context name =>
      match host.context name with
      | some value => .ok (value, false)
      | none =>
          error 0 ("the context `" ++ String.ofList name ++ "` is not known here, or is not one")
  | .property base name => do
      let (base, every) ← base.eval host
      if every then
        match base with
        | .array items =>
            return (.array ((items.filter fun item => item matches .object _).map fun item =>
              item.get name), true)
        | _ => return (.array [], true)
      else return (base.get name, false)
  | .index base index => do
      let (base, every) ← base.eval host
      let (index, _) ← index.eval host
      match every, base with
      | true, .array items => return (.array (items.map fun item => item.at_ index), true)
      | _, base => return (base.at_ index, false)
  | .every base => do
      let (base, every) ← base.eval host
      match every, base with
      | true, .array items => return (.array (items.flatMap spread), true)
      | _, base => return (.array (spread base), true)
  | .not inner => do
      let (value, _) ← inner.eval host
      return (.bool !value.truthy, false)
  | .binary op left right => do
      let (left, _) ← left.eval host
      match op with
      | .and =>
          if left.truthy then return ((← right.eval host).1, false) else return (left, false)
      | .or =>
          if left.truthy then return (left, false) else return ((← right.eval host).1, false)
      | op =>
          let (right, _) ← right.eval host
          return (.bool (compare_ op left right), false)
  | .call at_ name args => do
      let values ← evalArgs host args
      return (← call host at_ name values, false)

def evalArgs (host : Host ext) : List (Node ext.Num) → Except Error (List (Value ext.Num))
  | [] => .ok []
  | arg :: rest => do
      let (value, _) ← arg.eval host
      let values ← evalArgs host rest
      return value :: values

end

def Expr.eval (expr : Expr ext) (host : Host ext) : Except Error (Value ext.Num) :=
  Prod.fst <$> expr.node.eval host

end Dagron.CiExpr
