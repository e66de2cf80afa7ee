import Stencil.Expr.Build

/-!
This module contains affine forms, the normal form of index functions: a constant plus a multiple of
each of some scalars. It also contains the simplification of expressions through this form.
-/

namespace Stencil

/-- A constant and the non-zero coefficients of scalars. -/
structure Affine where
  constant : Rat
  terms : OrdMap String Rat
  deriving DecidableEq

namespace Affine

def ofConstant (c : Rat) : Affine := ⟨c, .empty⟩

def ofSymbol (s : String) : Affine := ⟨0, OrdMap.empty.insert s 1⟩

def isConstant (a : Affine) : Bool := a.terms.isEmpty

def isZero (a : Affine) : Bool := a.isConstant && a.constant == 0

def toConstant? (a : Affine) : Option Rat := if a.isConstant then some a.constant else none

def toInt? (a : Affine) : Option Int := a.toConstant?.bind Fraction.toInt?

def isIntegral (a : Affine) : Bool := a.constant.den == 1 && a.terms.values.all (·.den == 1)

def coeff (a : Affine) (s : String) : Rat := (a.terms.find? s).getD 0

def symbols (a : Affine) : List String := a.terms.keys

def sign? (a : Affine) : Option Int :=
  a.toConstant?.map fun c => if c < 0 then -1 else if c = 0 then 0 else 1

def addTerm (a : Affine) (s : String) (c : Rat) : Checked Affine := do
  let c ← Fraction.add (a.coeff s) c
  return { a with terms := if c = 0 then a.terms.erase s else a.terms.insert s c }

def add (a b : Affine) : Checked Affine := do
  let constant ← Fraction.add a.constant b.constant
  b.terms.entries.foldlM (fun a e => a.addTerm e.1 e.2) { a with constant := constant }

def scale (a : Affine) (c : Rat) : Checked Affine :=
  if c = 0 then
    pure (ofConstant 0)
  else do
    let constant ← Fraction.mul a.constant c
    Checked.ensure (a.terms.values.all fun v => (Fraction.mul v c).fits)
    return ⟨constant, a.terms.mapValues (· * c)⟩

def neg (a : Affine) : Checked Affine := a.scale (-1)

def sub (a b : Affine) : Checked Affine := do a.add (← b.neg)

/-- The product of two forms, of which one has to be constant. -/
def mul (a b : Affine) : Checked (Option Affine) :=
  match a.toConstant?, b.toConstant? with
  | some c, _ => some <$> b.scale c
  | none, some c => some <$> a.scale c
  | none, none => pure none

def evaluate (ρ : String → Option Int) (a : Affine) : Checked (Option Rat) :=
  go a.constant a.terms.entries
where
  go (acc : Rat) : List (String × Rat) → Checked (Option Rat)
    | [] => pure (some acc)
    | (s, c) :: es =>
      match ρ s with
      | none => pure none
      | some v => do go (← Fraction.add acc (← Fraction.mul c v)) es

mutual

def ofExpr : Expr → Checked (Option Affine)
  | .num q => pure (some (ofConstant q))
  | .sym s => pure (some (ofSymbol s))
  | .access _ _ => pure none
  | .add ts => ofSum (ofConstant 0) ts
  | .mul fs => ofProduct (ofConstant 1) fs
  | .pow b n => do
    match ← ofExpr b with
    | none => return none
    | some a =>
      if n = 1 then
        return some a
      else
        match a.toConstant? with
        | none => return none
        | some c =>
          if 0 ≤ n ∨ c ≠ 0 then return some (ofConstant (← Fraction.pow c n)) else return none
  | .call _ _ => pure none

def ofSum (acc : Affine) : List Expr → Checked (Option Affine)
  | [] => pure (some acc)
  | e :: es => do
    match ← ofExpr e with
    | none => return none
    | some a => ofSum (← acc.add a) es

def ofProduct (acc : Affine) : List Expr → Checked (Option Affine)
  | [] => pure (some acc)
  | e :: es => do
    match ← ofExpr e with
    | none => return none
    | some a =>
      match ← acc.mul a with
      | none => return none
      | some acc => ofProduct acc es

end

def termToExpr (e : String × Rat) : Expr :=
  if e.2 = 1 then .sym e.1 else .mul [.num e.2, .sym e.1]

def toExpr (a : Affine) : Checked Expr :=
  let ts := a.terms.entries.map termToExpr
  Expr.sum (if a.constant ≠ 0 ∨ ts.isEmpty then ts ++ [.num a.constant] else ts)

def cmp (a b : Affine) : Ordering :=
  cmpPair Fraction.cmp (List.compareLex (cmpPair compare Fraction.cmp))
    (a.constant, a.terms.entries) (b.constant, b.terms.entries)

end Affine

namespace Expr

/-- An expression in affine normal form, if it has one, and as it is otherwise. -/
def simplify (e : Expr) : Checked Expr := do
  match ← Affine.ofExpr e with
  | some a => a.toExpr
  | none => return e

def difference (a b : Expr) : Checked Expr :=
  if a = b then
    pure (num 0)
  else do
    match ← Affine.ofExpr a, ← Affine.ofExpr b with
    | some a, some b => do (← a.sub b).toExpr
    | _, _ => a.minus b

end Expr

end Stencil
