import Stencil.Json.Number

/-!
This module contains the reader of JSON texts. Every function takes the characters that are left and
returns those that are left after it.
-/

namespace Stencil

namespace Json

def isBlank (c : Char) : Bool := c == ' ' || c == '\n' || c == '\t' || c == '\r'

def skipBlanks (cs : List Char) : List Char := cs.dropWhile isBlank

def digitValue (c : Char) : Nat := c.toNat - '0'.toNat

def readDigits (cs : List Char) : List Nat × List Char :=
  ((cs.takeWhile Char.isDigit).map digitValue, cs.dropWhile Char.isDigit)

def hexValue? (c : Char) : Option Nat :=
  if c.isDigit then
    some (digitValue c)
  else if 'a' ≤ c ∧ c ≤ 'f' then
    some (c.toNat - 'a'.toNat + 10)
  else if 'A' ≤ c ∧ c ≤ 'F' then
    some (c.toNat - 'A'.toNat + 10)
  else
    none

def readHex? : List Char → Option (Nat × List Char)
  | a :: b :: c :: d :: rest => do
    let a ← hexValue? a
    let b ← hexValue? b
    let c ← hexValue? c
    let d ← hexValue? d
    return (((a * 16 + b) * 16 + c) * 16 + d, rest)
  | _ => none

def isHighSurrogate (n : Nat) : Bool := decide (0xD800 ≤ n) && decide (n ≤ 0xDBFF)

def isLowSurrogate (n : Nat) : Bool := decide (0xDC00 ≤ n) && decide (n ≤ 0xDFFF)

/--
The character after the `u` of an escape. Characters beyond 16 bits take two escapes; half of such
a pair is no character.
-/
def readUnicode? (cs : List Char) : Option (Option Char × List Char) := do
  let (n, rest) ← readHex? cs
  if isHighSurrogate n then
    match rest with
    | '\\' :: 'u' :: rest' =>
      match readHex? rest' with
      | some (m, rest'') =>
        if isLowSurrogate m then
          return (some (Char.ofNat (0x10000 + (n - 0xD800) * 0x400 + (m - 0xDC00))), rest'')
        else
          return (none, rest)
      | none => none
    | _ => return (none, rest)
  else if isLowSurrogate n then
    return (none, rest)
  else
    return (some (Char.ofNat n), rest)

def readEscape? : List Char → Option (Option Char × List Char)
  | '"' :: rest => some (some '"', rest)
  | '\\' :: rest => some (some '\\', rest)
  | '/' :: rest => some (some '/', rest)
  | 'b' :: rest => some (some '\x08', rest)
  | 'f' :: rest => some (some '\x0c', rest)
  | 'n' :: rest => some (some '\n', rest)
  | 'r' :: rest => some (some '\r', rest)
  | 't' :: rest => some (some '\t', rest)
  | 'u' :: rest => readUnicode? rest
  | _ => none

/-- The characters up to the closing quote, the last one first, with escapes as they are. -/
def splitString? (acc : List Char) : List Char → Option (List Char × List Char)
  | [] => none
  | '"' :: rest => some (acc, rest)
  | '\\' :: c :: rest => splitString? (c :: '\\' :: acc) rest
  | c :: rest => splitString? (c :: acc) rest

/--
The characters that a quoted text stands for, the last one first. There are none if half a surrogate
pair is among them.
-/
def unescape? (acc : Option (List Char)) (fuel : Nat) (cs : List Char) :
    Option (Option (List Char)) :=
  match fuel with
  | 0 => none
  | fuel + 1 =>
    match cs with
    | [] => some acc
    | '\\' :: rest => do
      let (c, rest) ← readEscape? rest
      unescape? (acc.bind fun acc => c.map (· :: acc)) fuel rest
    | c :: rest => if c.toNat < 0x20 then none else unescape? (acc.map (c :: ·)) fuel rest

def readString? (cs : List Char) : Option (Option String × List Char) := do
  let (quoted, rest) ← splitString? [] cs
  let text ← unescape? (some []) (quoted.length + 1) quoted.reverse
  return (text.map fun acc => String.ofList acc.reverse, rest)

def readFraction? : List Char → Option (Option (List Nat) × List Char)
  | '.' :: rest =>
    let (digits, rest) := readDigits rest
    if digits.isEmpty then none else some (some digits, rest)
  | cs => some (none, cs)

def readExponent? : List Char → Option (Option (Bool × List Nat) × List Char)
  | c :: rest =>
    if c == 'e' || c == 'E' then
      let (negative, rest) :=
        match rest with
        | '+' :: rest => (false, rest)
        | '-' :: rest => (true, rest)
        | rest => (false, rest)
      let (digits, rest) := readDigits rest
      if digits.isEmpty then none else some (some (negative, digits), rest)
    else
      some (none, c :: rest)
  | [] => some (none, [])

/-- The number in front. Only zero itself begins with a zero. -/
def readNumber? (cs : List Char) : Option (Json × List Char) := do
  let (negative, cs) :=
    match cs with
    | '-' :: rest => (true, rest)
    | cs => (false, cs)
  let (whole, cs) := readDigits cs
  match whole with
  | [] => none
  | 0 :: _ :: _ => none
  | whole =>
    let (fraction, cs) ← readFraction? cs
    let (exponent, cs) ← readExponent? cs
    let token : NumberToken :=
      { negative := negative
        whole := whole
        fraction := fraction.getD []
        exponent := exponent
        isDecimal := fraction.isSome || exponent.isSome }
    return (token.toJson, cs)

def readWord? (word : String) (cs : List Char) : Option (List Char) :=
  if word.toList.isPrefixOf cs then some (cs.drop word.length) else none

mutual

def readValue? (fuel : Nat) (cs : List Char) : Option (Json × List Char) :=
  match fuel with
  | 0 => none
  | fuel + 1 =>
    match skipBlanks cs with
    | [] => none
    | 'n' :: rest => do return (null, ← readWord? "ull" rest)
    | 't' :: rest => do return (bool true, ← readWord? "rue" rest)
    | 'f' :: rest => do return (bool false, ← readWord? "alse" rest)
    | '"' :: rest => do
      let (s, rest) ← readString? rest
      return ((s.map string).getD unpaired, rest)
    | '[' :: rest =>
      match skipBlanks rest with
      | ']' :: rest => some (array [], rest)
      | rest => do
        let (items, rest) ← readItems? fuel rest
        return (array items, rest)
    | '{' :: rest =>
      match skipBlanks rest with
      | '}' :: rest => some (object [], rest)
      | rest => do
        let (members, rest) ← readMembers? fuel rest
        return (ofMembers members, rest)
    | cs => readNumber? cs

def readItems? (fuel : Nat) (cs : List Char) : Option (List Json × List Char) :=
  match fuel with
  | 0 => none
  | fuel + 1 => do
    let (item, rest) ← readValue? fuel cs
    match skipBlanks rest with
    | ']' :: rest => return ([item], rest)
    | ',' :: rest =>
      let (items, rest) ← readItems? fuel rest
      return (item :: items, rest)
    | _ => none

def readMembers? (fuel : Nat) (cs : List Char) :
    Option (List (Option String × Json) × List Char) :=
  match fuel with
  | 0 => none
  | fuel + 1 =>
    match skipBlanks cs with
    | '"' :: rest => do
      let (key, rest) ← readString? rest
      match skipBlanks rest with
      | ':' :: rest =>
        let (value, rest) ← readValue? fuel rest
        match skipBlanks rest with
        | '}' :: rest => return ([(key, value)], rest)
        | ',' :: rest =>
          let (members, rest) ← readMembers? fuel rest
          return ((key, value) :: members, rest)
        | _ => none
      | _ => none
    | _ => none

end

def parse? (text : String) : Option Json := do
  let cs := text.toList
  let (value, rest) ← readValue? (cs.length + 1) cs
  if (skipBlanks rest).isEmpty then return value else none

end Json

end Stencil
