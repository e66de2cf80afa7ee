import Stencil.Json.Basic

/-!
This module contains shorthands for building JSON values and for looking into them.
-/

namespace Stencil

namespace Json

def ofNat (n : Nat) : Json := int n

def ofStrings (ss : List String) : Json := array (ss.map string)

def ofList (f : α → Json) (as : List α) : Json := array (as.map f)

def ofOption (f : α → Json) : Option α → Json
  | some a => f a
  | none => null

def ofPair (a b : Json) : Json := array [a, b]

def ofOrdering : Ordering → Json
  | .lt => int (-1)
  | .eq => int 0
  | .gt => int 1

def ofError (kind message : String) : Json :=
  object [("error", string kind), ("message", string message)]

def get? (j : Json) (key : String) : Option Json :=
  match j with
  | object members =>
    match members.find? (·.1 == key) with
    | some (_, null) => none
    | some (_, value) => some value
    | none => none
  | _ => none

def toFloat? : Json → Option Float
  | int i => some (Float.ofInt i)
  | float x => some x
  | string "nan" => some (0.0 / 0.0)
  | string "-nan" => some (0.0 / 0.0)
  | string "inf" => some (1.0 / 0.0)
  | string "-inf" => some (-1.0 / 0.0)
  | _ => none

def getString? (j : Json) (key : String) : Option String := (j.get? key).bind toString?

def getItems? (j : Json) (key : String) : Option (List Json) :=
  match j.get? key with
  | some items => items.toList?
  | none => some []

end Json

end Stencil
