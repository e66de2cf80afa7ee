import Stencil.Text.Extending
import Stencil.Text.Unprintable

/-!
This module contains quoted texts, in which every character can be seen: quotes and backslashes have
a backslash in front, and characters without a shape of their own are written by their code.
-/

namespace Stencil

namespace Text

def inRanges (code : Nat) : List (Nat × Nat) → Bool
  | [] => false
  | (first, last) :: rest =>
    if code < first then false else if code ≤ last then true else inRanges code rest

def isHidden (c : Char) : Bool := inRanges c.toNat unprintable || inRanges c.toNat extending

def escaped (c : Char) : String :=
  if c == '"' then "\\\""
  else if c == '\\' then "\\\\"
  else if c == '\n' then "\\n"
  else if c == '\r' then "\\r"
  else if c == '\t' then "\\t"
  else if c.toNat == 0 then "\\0"
  else if isHidden c then "\\u\x7b" ++ String.ofList (Nat.toDigits 16 c.toNat) ++ "\x7d"
  else c.toString

def quoted (s : String) : String := "\"" ++ String.join (s.toList.map escaped) ++ "\""

end Text

end Stencil
