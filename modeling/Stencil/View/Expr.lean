import Stencil.Affine
import Stencil.Expr.Text
import Stencil.Json.Build

/-!
This module contains the JSON form of expressions, for tools that read what was derived.
-/

namespace Stencil

namespace Expr

mutual

def tree : Expr → Json
  | num q => .array [.string "num", .string (Fraction.ratioText q)]
  | sym s => .array [.string "sym", .string s]
  | access f is => .array [.string "idx", .string f.name, .array (trees is)]
  | add ts => .array [.string "add", .array (trees ts)]
  | mul fs => .array [.string "mul", .array (trees fs)]
  | pow b n => .array [.string "pow", b.tree, .int n]
  | call s as => .array [.string "call", .string s, .array (trees as)]

def trees : List Expr → List Json
  | [] => []
  | e :: es => e.tree :: trees es

end

def label (e : Expr) : Checked Json := .string <$> e.text

def labels (es : List Expr) : Checked Json := Json.ofStrings <$> Expr.texts es

def view (e : Expr) : Checked Json := do
  return .object [("display", ← e.label), ("tree", e.tree)]

def facts (e : Expr) : Checked (List (String × Json)) := do
  let reference ← e.toReference?.mapM fun r => do
    return Json.ofPair (.string (← r.text)) (.ofNat r.rank)
  let operations ← (occurrences e.operations).entries.mapM fun (op, n) => do
    return Json.ofPair (← op.label) (.ofNat n)
  return [
    ("as_integer", .ofOption .int e.toInt?), ("is_number", .bool e.isNumber),
    ("is_leaf", .bool e.isLeaf), ("is_op", .bool e.isOperation),
    ("as_symbol", .ofOption .string e.toSymbol?), ("as_indexed", reference.getD .null),
    ("args", ← labels e.args),
    ("indexeds", .ofStrings (← e.references.mapM Reference.text)),
    ("has_indexed", .bool e.hasReference), ("free_symbols", .ofStrings e.freeSymbols.keys),
    ("cost", .ofNat e.cost), ("ops", .array operations)]

end Expr

namespace Affine

def view (a : Affine) : Checked Json := do
  let display ← (← a.toExpr).text
  return .object [
    ("constant", .string (Fraction.ratioText a.constant)),
    ("terms", .ofList (fun t => .ofPair (.string t.1) (.string (Fraction.ratioText t.2)))
      a.terms.entries),
    ("display", .string display),
    ("is_constant", .bool a.isConstant),
    ("is_zero", .bool a.isZero),
    ("as_integer", .ofOption .int a.toInt?),
    ("is_integral", .bool a.isIntegral),
    ("sign", .ofOption .int a.sign?)]

end Affine

end Stencil
