import Stencil.CommandLine
import Stencil.Problem.Basic
import Stencil.Remark.Schedule
import Stencil.Text.Quoted

/-!
This module contains the reports of the program: the text of a schedule, and what is said when
something goes wrong.
-/

namespace Stencil

namespace Report

def line (text : String) : String := text ++ "\n"

def scopeText (s : Schedule) : Checked String := do
  return line "=== Scope ===" ++ line (← s.scope.text)

def dependenceText (d : Dependence) : Checked String := do
  return line ((← d.description) ++ if d.isIndirect then " (indirect)" else "")

def dependencesText (s : Schedule) : Checked String := do
  let ds := s.scope.dependences
  let none := if ds.isEmpty then line "(none)" else ""
  return line "=== Dependences ===" ++ none ++ String.join (← ds.mapM dependenceText)

def clustersText (s : Schedule) : Checked String := do
  let clusters ← s.clusters.mapM fun c => do return line (← c.text)
  return line "=== Clusters ===" ++ String.join clusters

def entryText (f : GridFunction) (e : HaloEntry) : Checked String := do
  let halos := ", ".intercalate (e.halos.map Halo.text)
  let indices ← e.localIndices.entries.mapM fun i => do return i.1.name ++ ": " ++ (← i.2.text)
  return line ("  " ++ f.name ++ " along " ++ Halo.dimensionsText e.halos ++ ": halos=[" ++ halos ++
    "] loc_indices=\x7b" ++ ", ".intercalate indices ++ "\x7d")

def schemeText (scheme : HaloScheme) (i : Nat) : Checked String := do
  let entries ← scheme.entries.entries.mapM fun e => entryText e.1 e.2
  return line (s!"[{i}] " ++ scheme.text) ++ String.join entries

def halosText (s : Schedule) (distributed : Bool) : Checked String := do
  let hint := if distributed then "" else line "(run with --mpi)"
  let schemes ← s.schemes.zipIdx.mapM fun e => schemeText e.1 e.2
  return line "=== Halo schemes ===" ++ hint ++ String.join schemes

def text (s : Schedule) (emission : Emission) (distributed : Bool) : Checked String := do
  let emit (part : Emission) (text : Checked String) : Checked String :=
    if emission = .all ∨ emission = part then text else pure ""
  let scope ← emit .scope (scopeText s)
  let dependences ← emit .dependences (dependencesText s)
  let clusters ← emit .clusters (clustersText s)
  let halos ← emit .halos (halosText s distributed)
  return scope ++ dependences ++ clusters ++ halos

def indent (text : String) : String := "    " ++ text.replace "\n" "\n    "

def failure (message cause : String) : String :=
  line ("Error: " ++ message ++ "\n\nCaused by:\n" ++ indent cause)

def readFailure (path cause : String) : String :=
  failure ("Failed to read input file: " ++ path) cause

def loadFailure (path : String) (e : LoadError) : String :=
  failure ("Failed to load problem: " ++ path) e.message

def writeFailure (path cause : String) : String :=
  failure ("Failed to write output file: " ++ Text.quoted path) cause

def scheduleFailure (e : ScheduleError) : String :=
  let notes := match e with
    | .access _ => []
    | .halo _ => ["rerun without --mpi to skip halo derivation"]
  line (Diagnostic.text ⟨.error, e.message, notes⟩) ++ failure e.message e.cause

end Report

structure Outcome where
  output : Option String
  messages : String

namespace Outcome

def failed (messages : String) : Outcome := ⟨none, messages⟩

def log (level : Level) (config : Configuration) (p : Problem) : Checked String := do
  let name := (p.name.map fun name => s!" ({name})").getD ""
  let loaded : Remark := ⟨.info, pure (s!"Loaded {p.equations.length} equations" ++ name)⟩
  let derivation ←
    if level.isShown .info || config.distributed then
      Schedule.remarks config p.equations p.directions
    else
      pure []
  Remark.report level (loaded :: derivation)

def ofSource (o : CommandLine.Options) (source : String) : Checked Outcome := do
  match ← (Problem.load source).run with
  | .error e => return failed (Report.loadFailure o.input e)
  | .ok problem =>
    let config : Configuration := ⟨o.fusion, o.distributed, o.optimization⟩
    let log ← log o.level config problem
    match ← (Schedule.ofEquations config problem.equations problem.directions).run with
    | .error e => return failed (log ++ Report.scheduleFailure e)
    | .ok schedule =>
      let diagnostics := schedule.schemes.flatMap (·.diagnostics)
      let text ← Report.text schedule o.emission o.distributed
      return ⟨some text, log ++ String.join (diagnostics.map fun d => Report.line d.text)⟩

end Outcome

end Stencil
