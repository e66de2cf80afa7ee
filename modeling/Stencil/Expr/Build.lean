import Stencil.Expr.Basic
import Stencil.Sort

/-!
This module contains the operations that build expressions. They keep sums and products flat, with
at most one number and with their arguments in order, so that expressions that differ by
associativity and commutativity only are the same expression.
-/

namespace Stencil

namespace Expr

def ofInt (i : Int) : Expr := num i

def ofDimension (d : Dimension) : Expr := sym d.name

def isNumber : Expr → Bool
  | num _ => true
  | _ => false

def toInt? : Expr → Option Int
  | num q => Fraction.toInt? q
  | _ => none

def sort (es : List Expr) : List Expr := sortBy (fun a b => (Expr.cmp a b).isLE) es

def terms : Expr → List Expr
  | add ts => ts
  | e => [e]

def factors : Expr → List Expr
  | mul fs => fs
  | e => [e]

def foldNumbers (op : Rat → Rat → Checked Rat) (c : Rat) : List Expr → Checked Rat
  | [] => pure c
  | num q :: es => do foldNumbers op (← op c q) es
  | _ :: es => foldNumbers op c es

def ofTerms (c : Rat) (ts : List Expr) : Expr :=
  match sort (if c = 0 then ts else ts ++ [num c]) with
  | [] => num 0
  | [t] => t
  | ts => add ts

def ofFactors (c : Rat) (fs : List Expr) : Expr :=
  if c = 0 then
    num 0
  else
    match sort (if c = 1 then fs else fs ++ [num c]) with
    | [] => num 1
    | [f] => f
    | fs => mul fs

def sum (es : List Expr) : Checked Expr := do
  let ts := es.flatMap terms
  let c ← foldNumbers Fraction.add 0 ts
  return ofTerms c (ts.filter (!·.isNumber))

def product (es : List Expr) : Checked Expr := do
  let fs := es.flatMap factors
  let c ← foldNumbers Fraction.mul 1 fs
  return ofFactors c (fs.filter (!·.isNumber))

def plus (a b : Expr) : Checked Expr := sum [a, b]

def times (a b : Expr) : Checked Expr := product [a, b]

def neg (a : Expr) : Checked Expr := product [num (-1), a]

def minus (a b : Expr) : Checked Expr := do sum [a, ← neg b]

/-- An integer power. Zero to a negative power stays as it is. -/
def power (base : Expr) (n : Int) : Checked Expr :=
  if n = 0 then
    pure (num 1)
  else if n = 1 then
    pure base
  else
    match base with
    | num q => if 0 < n ∨ q ≠ 0 then num <$> Fraction.pow q n else pure (pow (num q) n)
    | b => pure (pow b n)

end Expr

namespace GridFunction

def indexify (f : GridFunction) : Expr := .access f (f.dimensions.map .ofDimension)

end GridFunction

end Stencil
