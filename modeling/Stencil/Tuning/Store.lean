import Stencil.OrdMap
import Stencil.Tuning.Elapsed

/-!
This module contains the store: the contents of the buffers and profilers that arguments refer to.
An argument is a number or a reference into the store, so two arguments are equal if they are the
same number or refer to the same place, whatever is stored there.
-/

namespace Stencil.Tuning

abbrev Profile (τ : Type) := OrdMap String τ

namespace Profile

variable {τ : Type} [Elapsed τ]

def record (p : Profile τ) (region : String) (t : τ) : Profile τ :=
  p.alter region fun old => Elapsed.add (old.getD Elapsed.zero) t

def total (p : Profile τ) : τ := p.values.foldl Elapsed.add Elapsed.none

end Profile

inductive Argument where
  | int (value : Int)
  | buffer (position : Nat)
  | profiler (position : Nat)
  deriving DecidableEq

abbrev Arguments := OrdMap String Argument

/-- The contents of buffers and profilers. Positions are never given up. -/
structure Store (τ : Type) where
  buffers : List (List Float)
  profilers : List (Profile τ)

namespace Store

variable {τ : Type}

def empty : Store τ := ⟨[], []⟩

def buffer (s : Store τ) (i : Nat) : List Float := s.buffers.getD i []

def profile (s : Store τ) (i : Nat) : Profile τ := s.profilers.getD i .empty

def addBuffer (s : Store τ) (data : List Float) : Argument × Store τ :=
  (.buffer s.buffers.length, { s with buffers := s.buffers ++ [data] })

def addProfile (s : Store τ) (p : Profile τ) : Argument × Store τ :=
  (.profiler s.profilers.length, { s with profilers := s.profilers ++ [p] })

def modifyBuffer (s : Store τ) (i : Nat) (f : List Float → List Float) : Store τ :=
  { s with buffers := s.buffers.modify i f }

def modifyProfile (s : Store τ) (i : Nat) (f : Profile τ → Profile τ) : Store τ :=
  { s with profilers := s.profilers.modify i f }

end Store

namespace Argument

def toInt? : Argument → Option Int
  | int v => some v
  | _ => none

/-- An argument that shares nothing with this one. The copy of a profiler has recorded nothing. -/
def copy {τ : Type} (s : Store τ) : Argument → Argument × Store τ
  | int v => (int v, s)
  | buffer i => s.addBuffer (s.buffer i)
  | profiler _ => s.addProfile .empty

def text {τ : Type} (s : Store τ) : Argument → String
  | int v => toString v
  | buffer i => s!"<buffer of {(s.buffer i).length}>"
  | profiler _ => "<profiler>"

end Argument

namespace Arguments

def int? (args : Arguments) (name : String) : Option Int := (args.find? name).bind Argument.toInt?

def elapsed? {τ : Type} [Elapsed τ] (args : Arguments) (s : Store τ) (name : String) : Option τ :=
  match args.find? name with
  | some (.profiler i) => some (s.profile i).total
  | _ => none

def copyOutputs {τ : Type} (args : Arguments) (names : List String) (s : Store τ) :
    Arguments × Store τ :=
  go args s names
where
  go (copied : Arguments) (s : Store τ) : List String → Arguments × Store τ
    | [] => (copied, s)
    | name :: names =>
      match args.find? name with
      | some a =>
        let (a, s) := a.copy s
        go (copied.insert name a) s names
      | none => go copied s names

end Arguments

end Stencil.Tuning
