import Stencil.Decimal.Shortest
import Stencil.Json.Basic

/-!
This module contains the writer of JSON values, without blanks.
-/

namespace Stencil

namespace Json

def hexDigit (n : Nat) : Char := if n < 10 then Char.ofNat (48 + n) else Char.ofNat (87 + n)

/-- The escapes that have a letter, the other control characters by their code. -/
def escapeChar (c : Char) : List Char :=
  if c == '"' then ['\\', '"']
  else if c == '\\' then ['\\', '\\']
  else if c == '\n' then ['\\', 'n']
  else if c == '\r' then ['\\', 'r']
  else if c == '\t' then ['\\', 't']
  else if c == '\x08' then ['\\', 'b']
  else if c == '\x0c' then ['\\', 'f']
  else if c.toNat < 0x20 then
    ['\\', 'u', '0', '0', hexDigit (c.toNat / 16), hexDigit (c.toNat % 16)]
  else [c]

def quote (s : String) : String := String.ofList ('"' :: s.toList.flatMap escapeChar ++ ['"'])

def floatText (x : Float) : String :=
  match Double.ofFloat x with
  | .finite negative mantissa exponent => Decimal.token negative mantissa exponent
  | _ => "null"

mutual

def text : Json → String
  | null => "null"
  | bool b => if b then "true" else "false"
  | int i => toString i
  | float x => floatText x
  | string s => quote s
  | array items => "[" ++ ",".intercalate (texts items) ++ "]"
  | object members => "\x7b" ++ ",".intercalate (memberTexts members) ++ "\x7d"
  | outOfRange => "null"
  | unpaired => "null"

def texts : List Json → List String
  | [] => []
  | j :: js => j.text :: texts js

def memberTexts : List (String × Json) → List String
  | [] => []
  | (k, j) :: js => (quote k ++ ":" ++ j.text) :: memberTexts js

end

end Json

end Stencil
