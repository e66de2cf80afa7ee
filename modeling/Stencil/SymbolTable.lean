import Stencil.Expr.Basic
import Stencil.Interner
import Stencil.LoadError

/-!
This module contains the table of the dimensions and arrays that a problem declares. The two kinds
of names are independent of each other, although they get their keys from the same interner.
Declaring something again is fine, declaring something else under its name is not.
-/

namespace Stencil

structure SymbolTable where
  /-- All names that were ever looked at by a declaration, whether it was accepted or not. -/
  names : Interner
  dimensions : OrdMap Nat Dimension
  functions : OrdMap Nat GridFunction
  isKey_dimensions : ∀ e ∈ dimensions.entries, names.IsKey e.1
  isKey_functions : ∀ e ∈ functions.entries, names.IsKey e.1

namespace SymbolTable

def empty : SymbolTable where
  names := .empty
  dimensions := .empty
  functions := .empty
  isKey_dimensions _ h := by cases h
  isKey_functions _ h := by cases h

def size (t : SymbolTable) : Nat := t.dimensions.size + t.functions.size

def isEmpty (t : SymbolTable) : Bool := t.size == 0

def dimension? (t : SymbolTable) (name : String) : Option Dimension :=
  (t.names.key? name).bind t.dimensions.find?

def function? (t : SymbolTable) (name : String) : Option GridFunction :=
  (t.names.key? name).bind t.functions.find?

section

variable {α : Type} [DecidableEq α]

/-- Binds a key, unless it is bound to something else. Returns what the key is bound to. -/
def declareAt (m : OrdMap Nat α) (key : Nat) (name : String) (a : α) :
    Except LoadError α × OrdMap Nat α :=
  match m.find? key with
  | some known => (if known = a then .ok known else .error (.redeclaration name), m)
  | none => (.ok a, m.insert key a)

theorem isKey_declareAt {m : OrdMap Nat α} {n : Interner} (h : ∀ e ∈ m.entries, n.IsKey e.1)
    (name : String) (a : α) :
    ∀ e ∈ (declareAt m (n.intern name).1 name a).2.entries, (n.intern name).2.IsKey e.1 := by
  unfold declareAt
  split
  · exact fun e he => (h e he).intern name
  · intro e he
    rcases OrdMap.mem_alterEntries he with heq | ⟨e', he', heq⟩
    · exact heq ▸ n.isKey_intern name
    · exact heq ▸ (h e' he').intern name

end

def declareDimension (t : SymbolTable) (d : Dimension) : Except LoadError Dimension × SymbolTable :=
  let interned := t.names.intern d.name
  let declared := declareAt t.dimensions interned.1 d.name d
  (declared.1, { t with
    names := interned.2
    dimensions := declared.2
    isKey_dimensions := isKey_declareAt t.isKey_dimensions d.name d
    isKey_functions := fun e he => (t.isKey_functions e he).intern d.name })

def declareFunction (t : SymbolTable) (f : GridFunction) :
    Except LoadError GridFunction × SymbolTable :=
  match f.malformation? with
  | some m => (.error (.invalid f.name (.malformed m)), t)
  | none =>
    let interned := t.names.intern f.name
    let declared := declareAt t.functions interned.1 f.name f
    (declared.1, { t with
      names := interned.2
      functions := declared.2
      isKey_dimensions := fun e he => (t.isKey_dimensions e he).intern f.name
      isKey_functions := isKey_declareAt t.isKey_functions f.name f })

/-- Forgets all declarations. Names keep their keys. -/
def clear (t : SymbolTable) : SymbolTable where
  names := t.names
  dimensions := .empty
  functions := .empty
  isKey_dimensions _ h := by cases h
  isKey_functions _ h := by cases h

def dimension (t : SymbolTable) (name : String) : Except LoadError Dimension :=
  match t.dimension? name with
  | some d => .ok d
  | none => .error (.unknownDimension name)

def function (t : SymbolTable) (name : String) : Except LoadError GridFunction :=
  match t.function? name with
  | some f => .ok f
  | none => .error (.unknownFunction name)

end SymbolTable

end Stencil
