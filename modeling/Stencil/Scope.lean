import Stencil.Dependence
import Stencil.LoweredEquation

/-!
This module contains scopes: the accesses of a list of equations in program order, and all
dependences between them.
-/

namespace Stencil

abbrev AccessMap := OrdMap GridFunction (List TimedAccess)

namespace AccessMap

def of (m : AccessMap) (f : GridFunction) : List TimedAccess := (m.find? f).getD []

def push (m : AccessMap) (a : TimedAccess) : AccessMap :=
  m.alter a.function fun as => as.getD [] ++ [a]

def ofList (as : List TimedAccess) : AccessMap := as.foldl push OrdMap.empty

end AccessMap

namespace Equation

def timedReads (space : IterationSpace) (timestamp : Nat) (eq : Equation) : List TimedAccess :=
  let written := if eq.isIncrement then eq.write?.toList else []
  (eq.reads ++ written).map (.ofReference space timestamp eq.isIncrement .read)

def timedWrites (space : IterationSpace) (timestamp : Nat) (eq : Equation) : List TimedAccess :=
  eq.write?.toList.map (.ofReference space timestamp eq.isIncrement .write)

end Equation

structure Scope where
  reads : AccessMap
  writes : AccessMap
  flow : List Dependence
  anti : List Dependence
  output : List Dependence

namespace Scope

/--
A read depends on a write if it comes first in the iteration, or comes at the same point and not
earlier in the program.
-/
def isFlow (write read : TimedAccess) : Analysis Bool := do
  match ← read.compare? write with
  | none => return true
  | some .lt => return true
  | some _ => return (← read.samePoint write) && decide (write.timestamp ≤ read.timestamp)

/--
A write depends on a read if the read comes last in the iteration, or at the same point and earlier
in the program.
-/
def isAnti (read write : TimedAccess) : Analysis Bool := do
  match ← read.compare? write with
  | none => return true
  | some .gt => return true
  | some _ => return (← read.samePoint write) && decide (read.timestamp < write.timestamp)

/--
There is an output dependence from the write that comes last in the iteration, or at the same point
and later in the program.
-/
def isOutput (source sink : TimedAccess) : Analysis Bool := do
  match ← source.compare? sink with
  | none => return true
  | some .gt => return true
  | some _ => return (← source.samePoint sink) && decide (sink.timestamp < source.timestamp)

def gather (kind : DependenceKind) (test : TimedAccess → TimedAccess → Analysis Bool) :
    List (TimedAccess × TimedAccess) → Analysis (List Dependence)
  | [] => pure []
  | (source, sink) :: rest => do
    if ← test source sink then
      let d ← Dependence.between kind source sink
      return d :: (← gather kind test rest)
    else
      gather kind test rest

def writeReadPairs (reads writes : AccessMap) : List (TimedAccess × TimedAccess) :=
  writes.entries.flatMap fun e => e.2.flatMap fun w => (reads.of e.1).map fun r => (w, r)

def writeWritePairs (writes : AccessMap) : List (TimedAccess × TimedAccess) :=
  writes.entries.flatMap fun e => e.2.flatMap fun w₁ => e.2.map fun w₂ => (w₂, w₁)

def ofAccesses (reads writes : AccessMap) : Analysis Scope := do
  let flow ← gather .flow isFlow (writeReadPairs reads writes)
  let anti ← gather .anti isAnti ((writeReadPairs reads writes).map Prod.swap)
  let output ← gather .output isOutput (writeWritePairs writes)
  return { reads, writes, flow, anti, output }

def ofEquations (eqs : List (Equation × IterationSpace)) : Analysis Scope :=
  let timed := eqs.zipIdx
  ofAccesses (.ofList (timed.flatMap fun e => e.1.1.timedReads e.1.2 e.2))
    (.ofList (timed.flatMap fun e => e.1.1.timedWrites e.1.2 e.2))

def ofDirections (directions : OrdMap Dimension Direction) (eqs : List Equation) :
    Analysis Scope :=
  ofEquations (eqs.map fun eq => (eq, .ofDirections directions))

def ofLowered (es : List LoweredEquation) : Analysis Scope :=
  ofEquations (es.map fun e => (e.equation, e.iterationSpace))

def dependences (s : Scope) : List Dependence := s.flow ++ s.anti ++ s.output

def functions (s : Scope) : OrdSet GridFunction := .ofList (s.reads.keys ++ s.writes.keys)

def accesses (s : Scope) (f : GridFunction) : List TimedAccess := s.writes.of f ++ s.reads.of f

def padLeft (width : Nat) (text : String) : String :=
  String.ofList (List.replicate (width - text.length) ' ') ++ text

def column (indent : Nat) (as : List TimedAccess) : Checked String := do
  let separator := "\n" ++ String.ofList (List.replicate indent ' ')
  return separator.intercalate (← as.mapM TimedAccess.text)

/-- The writes and reads of each array. Names are aligned by their length in bytes. -/
def text (s : Scope) : Checked String := do
  let fs := s.functions.toList
  let width := (fs.map fun f => f.name.utf8ByteSize).foldl max 1
  let blocks ← fs.mapM fun f => do
    let writes ← column (width + 9) (s.writes.of f)
    let reads ← column (width + 9) (s.reads.of f)
    return padLeft width f.name ++ " =>  W : " ++ writes ++ "\n" ++
      padLeft width "" ++ "     R : " ++ reads
  return "\n".intercalate blocks

end Scope

end Stencil
