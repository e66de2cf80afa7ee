import Stencil.FunctionDecl

/-!
This module contains the ways in which a problem can fail to load, and their messages.
-/

namespace Stencil

inductive Defect where
  | missingParent
  | missingFactor
  | gridRank
  | notFinite
  | indexCount (given declared : Nat)
  | notAssignable
  | malformed (m : Malformation)
  deriving DecidableEq

def Defect.message : Defect → String
  | missingParent => "missing parent dimension"
  | missingFactor => "missing or non-positive factor"
  | gridRank => "shape and dimensions differ in length"
  | notFinite => "not a finite number"
  | indexCount given declared => s!"accessed with {given} indices, declared with {declared}"
  | notAssignable => "left-hand side must be an access or a symbol"
  | malformed m => m.message

inductive LoadError where
  | unknownDimension (name : String)
  | unknownFunction (name : String)
  | redeclaration (name : String)
  | invalid (name : String) (defect : Defect)
  | unreadable
  deriving DecidableEq

def LoadError.message : LoadError → String
  | unknownDimension name => s!"unknown dimension `{name}`"
  | unknownFunction name => s!"unknown function `{name}`"
  | redeclaration name => s!"conflicting redeclaration of `{name}`"
  | invalid name defect => s!"invalid declaration of `{name}`: " ++ defect.message
  | unreadable => "malformed problem file"

end Stencil
