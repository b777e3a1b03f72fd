import Dagron.CiPipeline.Form

/-! What the reading of a pipeline asks of single values.
-/

namespace Dagron.CiPipeline

open Dagron.Spec (Json trim splitOnce parseU64)
open Dagron.CiExpr (Text)
open Dagron.Library

def get? (map : List (String × Json)) (key : String) : Option Json :=
  (map.find? fun entry => entry.1 = key).map Prod.snd

def asObject : Json → Option (List (String × Json))
  | .object fields => some fields
  | _ => none

def asU64 : Json → Option Nat
  | .number text => parseU64 text.toList
  | _ => none

end Dagron.CiPipeline
