import Dagron.CiExpr.Value
import Dagron.Library.Fresh
import Dagron.Library.Numbered

/-! A job's matrix, expanded to its rows: every combination of its axes, less what is excluded, with what is
included; and the labels that its rows' jobs are told apart by.
-/

namespace Dagron.CiExpr

open Dagron.Library

/-- The keys and the values of a combination, in the order in which they are written. -/
abbrev Row (Num : Type) := List (Text × Json Num)

/-- The axes of a matrix, each with its values, and the rows that it includes and excludes. -/
structure Matrix (Num : Type) where
  axes
    : List (Text × List (Json Num))
  include_
    : List (Row Num)
  exclude
    : List (Row Num)

section Rows

variable {Num : Type} [BEq (Json Num)]

def withAxis (rows : List (Row Num)) (axis : Text) (values : List (Json Num)) : List (Row Num) :=
  rows.flatMap fun row => values.map fun value => row ++ [(axis, value)]

/-- The rows with the axes that are left, or how many there are once they are more than (most). -/
def withAxes (most : Nat)
    : List (Text × List (Json Num)) → List (Row Num) → Except Nat (List (Row Num))
  | [], rows => .ok rows
  | (axis, values) :: axes, rows =>
      let rows := withAxis rows axis values
      if rows.length > most then .error rows.length else withAxes most axes rows

def rowMatches (row wanted : Row Num) : Bool :=
  wanted.all fun (k, v) => row.any fun (rk, rv) => rk == k && rv == v

/-- Whether what is included disagrees with no axis of a row. -/
def rowAgrees (axes : List Text) (extra was : Row Num) : Bool :=
  (extra.filter fun (k, _) => k ∈ axes).all fun (k, v) =>
    was.any fun (rk, rv) => rk == k && rv == v

/-- A row with a key of what is included, unless it is an axis. -/
def addKey (axes : List Text) (row : Row Num) (entry : Text × Json Num) : Row Num :=
  if entry.1 ∈ axes then row else row.filter (fun (rk, _) => rk != entry.1) ++ [entry]

def addKeys (axes : List Text) (row extra : Row Num) : Row Num :=
  extra.foldl (addKey axes) row

/-- The rows with what is included added to those it fits, by what they were at first, and whether it fits
one.
-/
def fit (axes : List Text) (extra : Row Num)
    : List (Row Num) → List (Row Num) → List (Row Num) × Bool
  | row :: rows, was :: original =>
      let (rows, fitted) := fit axes extra rows original
      if rowAgrees axes extra was && !was.isEmpty then (addKeys axes row extra :: rows, true)
      else (row :: rows, fitted)
  | rows, _ => (rows, false)

/-- What is included, added to the rows it fits, or else as a row of its own. -/
def addExtra (axes : List Text) (original rows : List (Row Num)) (extra : Row Num)
    : List (Row Num) :=
  let (rows, fitted) := fit axes extra rows original
  if fitted then rows else rows ++ [extra]

/-- The combinations that a matrix comes to; else how many there were once they were more than (most). -/
def Matrix.rows (matrix : Matrix Num) (most : Nat) : Except Nat (List (Row Num)) := do
  let rows ← withAxes most matrix.axes [[]]
  let rows := if matrix.axes.isEmpty then [] else rows
  let original := rows.filter fun row => !matrix.exclude.any fun wanted => rowMatches row wanted
  let axes := matrix.axes.map Prod.fst
  let rows := matrix.include_.foldl (addExtra axes original) original
  if rows.length > most then .error rows.length else .ok rows

end Rows

section Labels

variable {Num : Type} (toText : Json Num → Text)

def Json.isNested : Json Num → Bool
  | .array _ => true
  | .object _ => true
  | _ => false

def valueText : Json Num → Text
  | .string text => text
  | other => toText other

def isLabelChar (char : Char) : Bool :=
  char.isAlphanum || char == '_'

def labelOf (row : Row Num) : Text :=
  let words := (row.filter fun (_, v) => !v.isNested).map fun (_, v) => valueText toText v
  ((['-'].intercalate words).map fun char => if isLabelChar char then char else '-').take 40

def isBlank (label : Text) : Bool :=
  (label.dropWhile (· == '-')).reverse.dropWhile (· == '-') |>.isEmpty

/-- A row's place as a label, and what it is told apart by from the second try on. -/
def placeLabel (index : Nat) : Nat → Text
  | 0 => decimal index
  | again + 1 => decimal index ++ '-' :: decimal (again + 1)

/-- A label for each row from (index) on, where those seen are taken. -/
def labelledFrom (seen : List Text) (index : Nat) : List (Row Num) → List (Text × Row Num)
  | [] => []
  | row :: rows =>
      let label := labelOf toText row
      let label :=
        if isBlank label || label ∈ seen then firstFree seen (placeLabel index) seen.length 0
        else label
      (label, row) :: labelledFrom (label :: seen) (index + 1) rows

def labelled (rows : List (Row Num)) : List (Text × Row Num) :=
  labelledFrom toText [] 0 rows

end Labels

end Dagron.CiExpr
