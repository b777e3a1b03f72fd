import Dagron.Spec.Duration

/-! The values an expression of a workflow reads or makes: what they are as a condition, as text, as a
number and as JSON.
-/

namespace Dagron.CiExpr

open Dagron.Spec

abbrev Text := List Char

/-- A JSON text, read; (int) is a number that was read as a whole one. -/
inductive Json (Num : Type) where
  | null
  | bool (value : Bool)
  | int (value : Int)
  | float (value : Num)
  | string (text : Text)
  | array (items : List (Json Num))
  | object (fields : List (Text × Json Num))

/-- What the expressions take from the language's floating-point numbers and from its tables of letters,
and from the JSON reader and writer.
-/
structure Externals where
  Num
    : Type
  nan
    : Num
  infinity
    : Num
  ofInt
    : Int → Num
  neg
    : Num → Num
  /-- A number in decimal digits, with a point or an exponent. -/
  parse
    : Text → Option Num
  isNan
    : Num → Bool
  isInfinite
    : Num → Bool
  isZero
    : Num → Bool
  isPositive
    : Num → Bool
  partialCmp
    : Num → Num → Option Ordering
  /-- The whole number that a number is, if it is one. -/
  whole
    : Num → Option Int
  display
    : Num → Text
  toLowercase
    : Text → Text
  /-- A character as an error shows it. -/
  debug
    : Char → Text
  toStringPretty
    : Json Num → Option Text
  fromStr
    : Text → Except String (Json Num)
  /-- What is not a number is not a whole one. -/
  whole_nan
    : whole nan = none

/-- A value; an object's fields are in the order in which they were given. -/
inductive Value (Num : Type) where
  | null
  | bool (value : Bool)
  | number (value : Num)
  | string (text : Text)
  | array (items : List (Value Num))
  | object (fields : List (Text × Value Num))

-- Numbers

def hexDigit (char : Char) : Option Nat :=
  if char.isDigit then some (char.toNat - '0'.toNat)
  else if 'a' ≤ char ∧ char ≤ 'f' then some (char.toNat - 'a'.toNat + 10)
  else if 'A' ≤ char ∧ char ≤ 'F' then some (char.toNat - 'A'.toNat + 10)
  else none

def parseHex (text : Text) : Option Nat :=
  let digits := if text.head? = some '+' then text.tail else text
  if digits = [] then none
  else
    (digits.mapM hexDigit).bind fun values =>
      let number := values.foldl (fun number digit => number * 16 + digit) 0
      if number < 2 ^ 64 then some number else none

variable (ext : Externals)

def numberText (num : ext.Num) : Text :=
  if ext.isNan num then "NaN".toList
  else if ext.isInfinite num then (if ext.isPositive num then "Infinity" else "-Infinity").toList
  else
    match (ext.whole num).filter (fun whole => whole.natAbs < 10 ^ 15) with
    | some whole => (toString whole).toList
    | none => ext.display num

/-- A number as an expression or a string has it: in decimal, with a sign, a fraction or an exponent,
or in hexadecimal; an empty text is zero.
-/
def parseNumber (text : Text) : Option ext.Num :=
  if text = [] then some (ext.ofInt 0)
  else
    let (negative, digits) := match dropStart ['-'] text with
      | some rest => (true, rest)
      | none => (false, (dropStart ['+'] text).getD text)
    let signed (num : ext.Num) : ext.Num := if negative then ext.neg num else num
    match dropStart ['0', 'x'] digits <|> dropStart ['0', 'X'] digits with
    | some hex => (parseHex hex).map fun whole => signed (ext.ofInt whole)
    | none =>
        let shaped := digits.head?.any (fun char => char.isDigit || char == '.')
          && digits.all fun char =>
            char.isDigit || char == '.' || char == 'e' || char == 'E' || char == '+' || char == '-'
        if shaped then (ext.parse digits).map signed else none

-- Values

def toAsciiLowercase (text : Text) : Text :=
  text.map Char.toLower

namespace Value

variable {ext}

def truthy : Value ext.Num → Bool
  | null => false
  | bool value => value
  | number num => !ext.isZero num && !ext.isNan num
  | string text => !text.isEmpty
  | array _ | object _ => true

def text : Value ext.Num → Text
  | null => []
  | bool value => (toString value).toList
  | number num => numberText ext num
  | string text => text
  | array _ => "Array".toList
  | object _ => "Object".toList

/-- A value as a number, to be compared with one of another type. -/
def toNumber : Value ext.Num → ext.Num
  | null => ext.ofInt 0
  | bool value => ext.ofInt (if value then 1 else 0)
  | number num => num
  | string text => (parseNumber ext (trim text)).getD ext.nan
  | array _ | object _ => ext.nan

/-- A property of an object: by its name as it is written, or else in any case. -/
def get (value : Value ext.Num) (name : Text) : Value ext.Num :=
  match value with
  | object fields =>
      (((fields.find? fun field => field.1 == name)
          <|> fields.find? fun field => toAsciiLowercase field.1 == toAsciiLowercase name).map
        Prod.snd).getD null
  | _ => null

def at_ (value index : Value ext.Num) : Value ext.Num :=
  match value with
  | array items =>
      match ext.whole index.toNumber with
      | some (.ofNat place) => items.getD place null
      | _ => null
  | object _ => value.get index.text
  | _ => null

end Value

-- JSON

variable {Num : Type}

/-- Fields in the order of their names, with a value put under a name. -/
def insertField (name : Text) (json : Json Num) : List (Text × Json Num) → List (Text × Json Num)
  | [] => [(name, json)]
  | (other, value) :: rest =>
      if name = other then (name, json) :: rest
      else if name < other then (name, json) :: (other, value) :: rest
      else (other, value) :: insertField name json rest

namespace Value

variable {ext}

mutual
/-- A value as JSON: a whole number is written as one, and what JSON has no number for as null. -/
def toJson : Value ext.Num → Json ext.Num
  | null => .null
  | bool value => .bool value
  | number num =>
      match (ext.whole num).filter fun whole => whole.natAbs < 9 * 10 ^ 15 with
      | some whole => .int whole
      | none => if ext.isNan num || ext.isInfinite num then .null else .float num
  | string text => .string text
  | array items => .array (toJsons items)
  | object fields => .object (toJsonFields fields)

def toJsons : List (Value ext.Num) → List (Json ext.Num)
  | [] => []
  | item :: rest => toJson item :: toJsons rest

def toJsonFields : List (Text × Value ext.Num) → List (Text × Json ext.Num)
  | [] => []
  | (name, value) :: rest =>
      let fields := toJsonFields rest
      if fields.any fun field => field.1 == name then fields
      else insertField name (toJson value) fields
end

mutual
def ofJson : Json ext.Num → Value ext.Num
  | .null => null
  | .bool value => bool value
  | .int whole => number (ext.ofInt whole)
  | .float num => number num
  | .string text => string text
  | .array items => array (ofJsons items)
  | .object fields => object (ofJsonFields fields)

def ofJsons : List (Json ext.Num) → List (Value ext.Num)
  | [] => []
  | item :: rest => ofJson item :: ofJsons rest

def ofJsonFields : List (Text × Json ext.Num) → List (Text × Value ext.Num)
  | [] => []
  | (name, value) :: rest => (name, ofJson value) :: ofJsonFields rest
end

end Value

end Dagron.CiExpr
