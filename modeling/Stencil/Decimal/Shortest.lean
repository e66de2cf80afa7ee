import Stencil.Decimal.Fixed

/-!
This module contains the shortest decimal that reads back as a given double, and its two spellings:
with an exponent where that is shorter, and without.
-/

namespace Stencil

namespace Decimal

/-- The number `digits * 10 ^ exponent`. -/
structure Digits where
  digits : Nat
  exponent : Int

/-- A positive fraction, and the bounds between which numbers read back as the same double. -/
structure Target where
  low : Nat
  value : Nat
  high : Nat
  den : Nat
  /-- Whether the bounds themselves read back as the double. -/
  closed : Bool

/--
The neighbours of a double are one unit of its mantissa away, except that the one below a power of
two is only half as far away. In quarters of a unit the bounds are integers.
-/
def Target.ofMantissa (mantissa : Nat) (exponent : Int) : Target :=
  let below := if mantissa = 4503599627370496 ∧ -1074 < exponent then 1 else 2
  let scale := if 0 ≤ exponent - 2 then Nat.pow 2 (exponent - 2).toNat else 1
  { low := (4 * mantissa - below) * scale
    value := 4 * mantissa * scale
    high := (4 * mantissa + 2) * scale
    den := if 0 ≤ exponent - 2 then 1 else Nat.pow 2 (2 - exponent).toNat
    closed := mantissa % 2 = 0 }

def Target.contains (t : Target) (d : Digits) : Bool :=
  let num := d.digits * Nat.pow 10 d.exponent.toNat * t.den
  let scale := Nat.pow 10 (-d.exponent).toNat
  if t.closed then
    t.low * scale ≤ num && num ≤ t.high * scale
  else
    t.low * scale < num && num < t.high * scale

/-- The exponent `e` with `10 ^ (e - 1) ≤ value < 10 ^ e`. -/
def Target.magnitude (t : Target) : Int :=
  let e : Int := (toString t.value).length - (toString t.den).length
  if t.value * Nat.pow 10 (-e).toNat < t.den * Nat.pow 10 e.toNat then e else e + 1

def Target.withDigits? (t : Target) (n : Nat) : Option Digits :=
  let e := t.magnitude - n
  let num := t.value * Nat.pow 10 (-e).toNat
  let den := t.den * Nat.pow 10 e.toNat
  let lower : Digits := ⟨num / den, e⟩
  let upper : Digits := ⟨num / den + 1, e⟩
  let nearer := if 2 * (num % den) ≤ den then lower else upper
  let farther := if 2 * (num % den) ≤ den then upper else lower
  if t.contains nearer then
    some nearer
  else if t.contains farther then
    some farther
  else
    none

def Digits.trim (fuel : Nat) (d : Digits) : Digits :=
  match fuel with
  | 0 => d
  | fuel + 1 =>
    if d.digits ≠ 0 ∧ d.digits % 10 = 0 then
      trim fuel ⟨d.digits / 10, d.exponent + 1⟩
    else
      d

/-- The fewest digits that read back as `mantissa * 2 ^ exponent`; 17 are always enough. -/
def shortest (mantissa : Nat) (exponent : Int) : Digits :=
  let t := Target.ofMantissa mantissa exponent
  let found := (List.range 17).findSome? fun n => t.withDigits? (n + 1)
  (found.getD ⟨0, 0⟩).trim 20

def Digits.positional (d : Digits) : String :=
  let text := toString d.digits
  if 0 ≤ d.exponent then
    text ++ String.ofList (List.replicate d.exponent.toNat '0')
  else
    let places := (-d.exponent).toNat
    let text := padZeros (places + 1) text
    let whole := text.toList.take (text.length - places)
    let fraction := text.toList.drop (text.length - places)
    String.ofList whole ++ "." ++ String.ofList fraction

def plain (x : Float) : String :=
  match Double.ofFloat x with
  | .nan => "NaN"
  | .infinity negative => if negative then "-inf" else "inf"
  | .finite negative mantissa exponent =>
    let text := if mantissa = 0 then "0" else (shortest mantissa exponent).positional
    (if negative then "-" else "") ++ text

def Digits.scientific (d : Digits) : String :=
  let text := (toString d.digits).toList
  let exponent := d.exponent + text.length - 1
  let fraction := text.drop 1
  let mantissa := text.take 1 ++ (if fraction.isEmpty then [] else '.' :: fraction)
  String.ofList mantissa ++ "e" ++ toString exponent

/--
A finite double as a number token that cannot be taken for an integer: with a point as long as it
has up to 16 digits before and up to four zeros after it, and with an exponent otherwise.
-/
def token (negative : Bool) (mantissa : Nat) (exponent : Int) : String :=
  let sign := if negative then "-" else ""
  if mantissa = 0 then
    sign ++ "0.0"
  else
    let d := shortest mantissa exponent
    let magnitude := d.exponent + (toString d.digits).length
    if -5 < magnitude ∧ magnitude ≤ 16 then
      let text := d.positional
      sign ++ (if 0 ≤ d.exponent then text ++ ".0" else text)
    else
      sign ++ d.scientific

end Decimal

end Stencil
