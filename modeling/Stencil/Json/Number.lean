import Stencil.Json.Basic

/-!
This module contains the values of JSON number tokens. Integers are exact as long as they are
machine words. All other numbers are doubles: the leading digits that fit into a word are multiplied
or divided by a power of ten, each step being rounded.
-/

namespace Stencil

namespace Json

structure NumberToken where
  negative : Bool
  whole : List Nat
  fraction : List Nat
  exponent : Option (Bool × List Nat)
  isDecimal : Bool

namespace NumberToken

/-- Appends digits to a significand as long as it stays a word. Returns the digits left over. -/
def takeDigits (significand : Nat) : List Nat → Nat × List Nat
  | [] => (significand, [])
  | d :: ds =>
    if Word.isUnsigned (significand * 10 + d) then
      takeDigits (significand * 10 + d) ds
    else
      (significand, d :: ds)

def exponentValue? (digits : List Nat) : Option Nat :=
  digits.foldlM (fun e d => if e * 10 + d ≤ 2147483647 then some (e * 10 + d) else none) 0

def powerOfTen (n : Nat) : Float := Float.ofScientific 1 false n

/-- Divides by a power of ten, in steps that are powers of ten as doubles. -/
def divide (x : Float) (n : Nat) : Nat → Float
  | 0 => x
  | fuel + 1 =>
    if n ≤ 308 then
      x / powerOfTen n
    else if x == 0 then
      x
    else
      divide (x / powerOfTen 308) (n - 308) fuel

def double? (significand : Nat) (exponent : Int) : Option Float :=
  let x := significand.toUInt64.toFloat
  if exponent < 0 then
    some (divide x (-exponent).toNat (-exponent).toNat)
  else if exponent ≤ 308 then
    let y := x * powerOfTen exponent.toNat
    if y.isInf then none else some y
  else if x == 0 then
    some x
  else
    none

def clampExponent (e : Int) : Int := max (-2147483648) (min 2147483647 e)

def magnitude? (t : NumberToken) : Option Float :=
  let (significand, dropped) := takeDigits 0 t.whole
  let (significand, rest) := takeDigits significand t.fraction
  let shift : Int := dropped.length - (t.fraction.length - rest.length : Nat)
  match t.exponent with
  | none => double? significand shift
  | some (negative, digits) =>
    match exponentValue? digits with
    | some e => double? significand (clampExponent (if negative then shift - e else shift + e))
    | none => if significand = 0 || negative then some 0 else none

/-- The value of a number token. Zero with a minus sign is not an integer. -/
def toJson (t : NumberToken) : Json :=
  let (significand, dropped) := takeDigits 0 t.whole
  let isWord := dropped.isEmpty && !t.isDecimal
  if isWord && !t.negative then
    int significand
  else if isWord && 0 < significand && significand ≤ 9223372036854775808 then
    int (-significand)
  else
    match t.magnitude? with
    | some x => float (if t.negative then -x else x)
    | none => outOfRange

end NumberToken

end Json

end Stencil
