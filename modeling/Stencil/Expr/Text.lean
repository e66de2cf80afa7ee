import Stencil.Expr.Traverse

/-!
This module contains the text of expressions. A sum has its number last, and subtracts the terms
that begin with a negative number. For that the opposite of such a term is built, which need not
stay in range.
-/

namespace Stencil

namespace Expr

def isNegative : Expr → Bool
  | mul (num q :: _) => decide (q < 0)
  | _ => false

/-- Puts the text of a factor in brackets where it would be read differently without. -/
def bracketFactor (e : Expr) (text : String) : String :=
  match e with
  | add _ => "(" ++ text ++ ")"
  | num q => if q.den = 1 then text else "(" ++ text ++ ")"
  | _ => text

def productText (c : Rat) (factors : List String) : String :=
  if c = -1 then
    "-" ++ "*".intercalate factors
  else
    "*".intercalate (bracketFactor (num c) (Fraction.text c) :: factors)

structure FactorText where
  factor : Expr
  text : Checked String

def FactorText.bracketed (f : FactorText) : Checked String := do
  return bracketFactor f.factor (← f.text)

def mulText : List FactorText → Checked String
  | ⟨num c, _⟩ :: fs => do return productText c (← fs.mapM FactorText.bracketed)
  | fs => do return "*".intercalate (← fs.mapM FactorText.bracketed)

def ofFactorsText (c : Rat) (fs : List FactorText) : Checked String :=
  if c = 0 then
    pure (Fraction.text 0)
  else
    match sortBy (fun f g => (Expr.cmp f.factor g.factor).isLE)
        (if c = 1 then fs else fs ++ [⟨num c, pure (Fraction.text c)⟩]) with
    | [] => pure (Fraction.text 1)
    | [f] => f.text
    | fs => mulText fs

def accessText (name : String) (indices : List String) : String :=
  name ++ "[" ++ ", ".intercalate indices ++ "]"

/-- A term of a sum: whether it is subtracted, and the text of what is added or subtracted. -/
structure TermText where
  isSubtracted : Bool
  text : Checked String

/-- The number `q` as a term. The first term of a sum is never subtracted. -/
def numberText (isFirst : Bool) (q : Rat) : TermText :=
  if isFirst || decide (0 ≤ q) then
    ⟨false, pure (Fraction.text q)⟩
  else
    ⟨true, do return Fraction.text (← Fraction.mul (-1) q)⟩

def numberTexts (isFirst : Bool) : List Expr → List TermText
  | [] => []
  | num q :: es => numberText isFirst q :: numberTexts false es
  | _ :: es => numberTexts isFirst es

def sumText : List TermText → Checked String
  | [] => pure ""
  | t :: rest => do go (← t.text) rest
where
  go (acc : String) : List TermText → Checked String
    | [] => pure acc
    | t :: rest => do go (acc ++ (if t.isSubtracted then " - " else " + ") ++ (← t.text)) rest

mutual

def text : Expr → Checked String
  | num q => pure (Fraction.text q)
  | sym s => pure s
  | access f is => do return accessText f.name (← texts is)
  | add ts =>
    let terms := termTexts true ts
    sumText (terms ++ numberTexts terms.isEmpty ts)
  | mul fs => mulText (factorTexts fs)
  | pow (sym s) n => pure (s ++ "**" ++ toString n)
  | pow (access f is) n => do return accessText f.name (← texts is) ++ "**" ++ toString n
  | pow b n => do return "(" ++ (← b.text) ++ ")**" ++ toString n
  | call s as => do return s ++ "(" ++ ", ".intercalate (← texts as) ++ ")"

def negatedText : Expr → Checked String
  | mul fs => do
    let c ← foldNumbers Fraction.mul 1 (num (-1) :: fs)
    ofFactorsText c ((factorTexts fs).filter (!·.factor.isNumber))
  | _ => pure ""

def texts : List Expr → Checked (List String)
  | [] => pure []
  | e :: es => do return (← e.text) :: (← texts es)

def factorTexts : List Expr → List FactorText
  | [] => []
  | e :: es => ⟨e, e.text⟩ :: factorTexts es

def termTexts (isFirst : Bool) : List Expr → List TermText
  | [] => []
  | e :: es =>
    if e.isNumber then
      termTexts isFirst es
    else if isFirst || !e.isNegative then
      ⟨false, e.text⟩ :: termTexts false es
    else
      ⟨true, e.negatedText⟩ :: termTexts false es

end

end Expr

namespace Reference

def text (r : Reference) : Checked String := do
  return Expr.accessText r.function.name (← Expr.texts r.indices)

end Reference

end Stencil
