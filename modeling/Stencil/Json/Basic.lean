import Stencil.Word

/-!
This module contains JSON values. Integers and other numbers are kept apart as they are written.
Two kinds of tokens have no value, but make a text unreadable only if somebody asks for theirs.
-/

namespace Stencil

inductive Json where
  | null
  | bool (b : Bool)
  | int (i : Int)
  | float (x : Float)
  | string (s : String)
  | array (items : List Json)
  | object (members : List (String × Json))
  | outOfRange
  /-- A string with half a surrogate pair, or an object with such a key. -/
  | unpaired

namespace Json

mutual

def isReadable (depth : Nat) : Json → Bool
  | outOfRange => false
  | unpaired => false
  | array items =>
    match depth with
    | 0 => false
    | depth + 1 => areReadable depth items
  | object members =>
    match depth with
    | 0 => false
    | depth + 1 => membersAreReadable depth members
  | _ => true

def areReadable (depth : Nat) : List Json → Bool
  | [] => true
  | j :: js => isReadable depth j && areReadable depth js

def membersAreReadable (depth : Nat) : List (String × Json) → Bool
  | [] => true
  | (_, j) :: js => isReadable depth j && membersAreReadable depth js

end

mutual

def depth : Json → Nat
  | array items => depthOfList items + 1
  | object members => depthOfMembers members + 1
  | _ => 0

def depthOfList : List Json → Nat
  | [] => 0
  | j :: js => max j.depth (depthOfList js)

def depthOfMembers : List (String × Json) → Nat
  | [] => 0
  | (_, j) :: js => max j.depth (depthOfMembers js)

end

/-- An object with these members, of which a key is absent if half a surrogate pair is in it. -/
def ofMembers (members : List (Option String × Json)) : Json :=
  match members.mapM fun m => m.1.map (·, m.2) with
  | some members => object members
  | none => unpaired

/-- A double as a number; infinities and NaN are no numbers and become null. -/
def ofFloat (x : Float) : Json := if x.isFinite then float x else null

def toString? : Json → Option String
  | string s => some s
  | _ => none

def toBool? : Json → Option Bool
  | bool b => some b
  | _ => none

def toInt? : Json → Option Int
  | int i => if Word.isSigned i then some i else none
  | _ => none

def toShort? : Json → Option Int
  | int i => if Word.isShort i then some i else none
  | _ => none

def toNat? : Json → Option Nat
  | int i => if 0 ≤ i ∧ Word.isUnsigned i.toNat then some i.toNat else none
  | _ => none

def toList? : Json → Option (List Json)
  | array items => some items
  | _ => none

def toListOf? (read : Json → Option α) (j : Json) : Option (List α) := do
  (← j.toList?).mapM read

def toPair? (read : Json → Option α) : Json → Option (α × α)
  | array [a, b] => do return (← read a, ← read b)
  | _ => none

def toOption? (read : Json → Option α) : Json → Option (Option α)
  | null => some none
  | j => some <$> read j

/-- Reads one of several names: the name itself, or an object with it as the only key and null. -/
def toName? : Json → Option String
  | string s => some s
  | object [(s, null)] => some s
  | _ => none

def member? (members : List (String × Json)) (key : String) : Option (Option Json) :=
  match members.filter (·.1 == key) with
  | [] => some none
  | [(_, j)] => some (some j)
  | _ => none

/--
The fields of a record, in the order of their names. A record is an object, in which fields may be
missing and other keys are ignored, or an array of its first fields.
-/
def toFields? (names : List String) : Json → Option (List (Option Json))
  | object members => names.mapM (member? members)
  | array items =>
    if items.length ≤ names.length then
      some (items.map some ++ List.replicate (names.length - items.length) none)
    else
      none
  | _ => none

def optionalMember (key : String) (write : α → Json) (value : Option α) : List (String × Json) :=
  (value.map fun v => (key, write v)).toList

def required (read : Json → Option α) (field : Option Json) : Option α := field.bind read

def withDefault (default : α) (read : Json → Option α) : Option Json → Option α
  | none => some default
  | some j => read j

def optional (read : Json → Option α) : Option Json → Option (Option α)
  | none => some none
  | some j => j.toOption? read

end Json

end Stencil
