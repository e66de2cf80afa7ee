import Stencil.Expr.Build

/-!
This module contains the functions that look into expressions: which arrays they read, which
scalars they mention, what they cost. Index functions count as part of the value only where this is
said.
-/

namespace Stencil

structure Reference where
  function : GridFunction
  indices : List Expr
  deriving DecidableEq

namespace Reference

def toExpr (r : Reference) : Expr := .access r.function r.indices

def rank (r : Reference) : Nat := r.indices.length

end Reference

namespace Expr

def toReference? : Expr → Option Reference
  | access f is => some ⟨f, is⟩
  | _ => none

def toSymbol? : Expr → Option String
  | sym s => some s
  | _ => none

def isLeaf : Expr → Bool
  | num _ => true
  | sym _ => true
  | _ => false

def isOperation : Expr → Bool
  | add _ => true
  | mul _ => true
  | pow _ _ => true
  | call _ _ => true
  | _ => false

def args : Expr → List Expr
  | add ts => ts
  | mul fs => fs
  | pow b _ => [b]
  | call _ as => as
  | _ => []

mutual

/-- All array elements, outermost first, with those in index functions. -/
def references : Expr → List Reference
  | num _ => []
  | sym _ => []
  | access f is => ⟨f, is⟩ :: referencesOfList is
  | add ts => referencesOfList ts
  | mul fs => referencesOfList fs
  | pow b _ => b.references
  | call _ as => referencesOfList as

def referencesOfList : List Expr → List Reference
  | [] => []
  | e :: es => e.references ++ referencesOfList es

end

mutual

/-- The array elements outside of index functions. -/
def valueReferences : Expr → List Reference
  | num _ => []
  | sym _ => []
  | access f is => [⟨f, is⟩]
  | add ts => valueReferencesOfList ts
  | mul fs => valueReferencesOfList fs
  | pow b _ => b.valueReferences
  | call _ as => valueReferencesOfList as

def valueReferencesOfList : List Expr → List Reference
  | [] => []
  | e :: es => e.valueReferences ++ valueReferencesOfList es

end

def hasReference (e : Expr) : Bool := !e.valueReferences.isEmpty

mutual

def symbols : Expr → List String
  | num _ => []
  | sym s => [s]
  | access _ is => symbolsOfList is
  | add ts => symbolsOfList ts
  | mul fs => symbolsOfList fs
  | pow b _ => b.symbols
  | call _ as => symbolsOfList as

def symbolsOfList : List Expr → List String
  | [] => []
  | e :: es => e.symbols ++ symbolsOfList es

end

def freeSymbols (e : Expr) : OrdSet String := .ofList e.symbols

mutual

def valueSymbols : Expr → List String
  | num _ => []
  | sym s => [s]
  | access _ _ => []
  | add ts => valueSymbolsOfList ts
  | mul fs => valueSymbolsOfList fs
  | pow b _ => b.valueSymbols
  | call _ as => valueSymbolsOfList as

def valueSymbolsOfList : List Expr → List String
  | [] => []
  | e :: es => e.valueSymbols ++ valueSymbolsOfList es

end

mutual

def operations : Expr → List Expr
  | num _ => []
  | sym _ => []
  | access _ _ => []
  | add ts => add ts :: operationsOfList ts
  | mul fs => mul fs :: operationsOfList fs
  | pow b n => pow b n :: b.operations
  | call s as => call s as :: operationsOfList as

def operationsOfList : List Expr → List Expr
  | [] => []
  | e :: es => e.operations ++ operationsOfList es

end

mutual

/-- The number of operations that a value takes; index functions are free. -/
def cost : Expr → Nat
  | num _ => 0
  | sym _ => 0
  | access _ _ => 0
  | add ts => (ts.length - 1) + costOfList ts
  | mul fs => (fs.length - 1) + costOfList fs
  | pow b _ => 1 + b.cost
  | call _ as => 1 + costOfList as

def costOfList : List Expr → Nat
  | [] => 0
  | e :: es => e.cost + costOfList es

end

def occurrences (es : List Expr) : OrdMap Expr Nat :=
  es.foldl (fun counts e => counts.alter e fun n => n.getD 0 + 1) .empty

mutual

/-- Replaces whole subexpressions and rebuilds what contains them; index functions are kept. -/
def replace (σ : Expr → Option Expr) (e : Expr) : Checked Expr :=
  match σ e with
  | some e' => pure e'
  | none =>
    match e with
    | add ts => do sum (← replaceList σ ts)
    | mul fs => do product (← replaceList σ fs)
    | pow b n => do power (← replace σ b) n
    | call s as => do return call s (← replaceList σ as)
    | e => pure e

def replaceList (σ : Expr → Option Expr) : List Expr → Checked (List Expr)
  | [] => pure []
  | e :: es => do return (← replace σ e) :: (← replaceList σ es)

end

end Expr

end Stencil
