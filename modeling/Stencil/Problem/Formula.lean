import Stencil.Expr.Build
import Stencil.Fraction.Approximate
import Stencil.Json.Writer
import Stencil.SymbolTable

/-!
This module contains expressions as they are written in a problem file, where arrays are named and
nothing is simplified yet.
-/

namespace Stencil

inductive Formula where
  | int (value : Int)
  | float (value : Float)
  | name (name : String)
  | access (function : String) (indices : List Formula)
  | add (args : List Formula)
  | mul (args : List Formula)
  | neg (arg : Formula)
  | pow (base : Formula) (exponent : Int)
  | call (name : String) (args : List Formula)

namespace Formula

inductive Tag where
  | access
  | add
  | mul
  | neg
  | pow
  | call
  deriving DecidableEq

namespace Tag

def all : List Tag := [access, add, mul, neg, pow, call]

def name : Tag → String
  | access => "access"
  | add => "add"
  | mul => "mul"
  | neg => "neg"
  | pow => "pow"
  | call => "call"

def fields : Tag → List String
  | access => ["function", "indices"]
  | add => ["args"]
  | mul => ["args"]
  | neg => ["arg"]
  | pow => ["base", "exp"]
  | call => ["name", "args"]

def ofJson? : Json → Option Tag
  | .string s => all.find? (·.name == s)
  | .int i => if 0 ≤ i then all[i.toNat]? else none
  | _ => none

end Tag

/--
Takes a node apart. It is an object with its tag as `op`, or an array of the tag and all fields.
-/
def node? : Json → Option (Tag × List Json)
  | .object members => do
    let tag ← Tag.ofJson? (← (← Json.member? members "op"))
    return (tag, ← tag.fields.mapM fun key => do (← Json.member? members key))
  | .array (tag :: items) => do
    let tag ← Tag.ofJson? tag
    if items.length = tag.fields.length then return (tag, items) else none
  | _ => none

def ofJson? (fuel : Nat) (j : Json) : Option Formula :=
  match fuel with
  | 0 => none
  | fuel + 1 =>
    match j with
    | .int i => some (if Word.isSigned i then int i else float (Float.ofInt i))
    | .float x => some (float x)
    | .string s => some (name s)
    | j =>
      match node? j with
      | some (.access, [f, is]) => do
        return access (← f.toString?) (← is.toListOf? (ofJson? fuel))
      | some (.add, [as]) => add <$> as.toListOf? (ofJson? fuel)
      | some (.mul, [as]) => mul <$> as.toListOf? (ofJson? fuel)
      | some (.neg, [a]) => neg <$> ofJson? fuel a
      | some (.pow, [b, n]) => do return pow (← ofJson? fuel b) (← n.toShort?)
      | some (.call, [s, as]) => do return call (← s.toString?) (← as.toListOf? (ofJson? fuel))
      | _ => none

/--
Reads a formula in which at most `depth` arrays and objects are nested. Every token of it has to
have a value, whether it is needed or not.
-/
def read? (depth : Nat) (j : Json) : Option Formula :=
  if j.isReadable depth then ofJson? (depth + 1) j else none

mutual

def toJson : Formula → Json
  | int i => .int i
  | float x => .ofFloat x
  | name s => .string s
  | access f is =>
    .object [("op", .string "access"), ("function", .string f), ("indices", .array (toJsons is))]
  | add as => .object [("op", .string "add"), ("args", .array (toJsons as))]
  | mul as => .object [("op", .string "mul"), ("args", .array (toJsons as))]
  | neg a => .object [("op", .string "neg"), ("arg", a.toJson)]
  | pow b n => .object [("op", .string "pow"), ("base", b.toJson), ("exp", .int n)]
  | call s as =>
    .object [("op", .string "call"), ("name", .string s), ("args", .array (toJsons as))]

def toJsons : List Formula → List Json
  | [] => []
  | a :: as => a.toJson :: toJsons as

end

mutual

def toExpr (t : SymbolTable) : Formula → ExceptT LoadError Checked Expr
  | int i => pure (.ofInt i)
  | float x =>
    match Fraction.approximate? x with
    | some q => pure (.num q)
    | none => throw (.invalid (Decimal.plain x) .notFinite)
  | name s => pure (.sym s)
  | access f is => do
    let f ← t.function f
    if is.length ≠ f.dimensions.length then
      throw (.invalid f.name (.indexCount is.length f.dimensions.length))
    return .access f (← toExprs t is)
  | add as => do Expr.sum (← toExprs t as)
  | mul as => do Expr.product (← toExprs t as)
  | neg a => do Expr.neg (← toExpr t a)
  | pow b n => do Expr.power (← toExpr t b) n
  | call s as => do return .call s (← toExprs t as)

def toExprs (t : SymbolTable) : List Formula → ExceptT LoadError Checked (List Expr)
  | [] => pure []
  | a :: as => do return (← toExpr t a) :: (← toExprs t as)

end

end Formula

end Stencil
