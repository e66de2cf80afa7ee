import Stencil.Json.Build
import Stencil.Json.Writer
import Stencil.Tuning.Simulated
import Stencil.Tuning.Tune

/-!
This module contains the JSON form of arguments, operators, options and results of the tuner.
-/

namespace Stencil.Tuning

namespace Seconds

def ofJson? : Json → Option Seconds
  | .string "nan" => some (invalid false)
  | .string "-nan" => some (invalid true)
  | j => number <$> j.toFloat?

end Seconds

namespace Argument

def view (s : Store Seconds) (a : Argument) : Json :=
  let content := match a with
    | int v => Json.int v
    | buffer i => .ofStrings ((s.buffer i).map Decimal.seconds)
    | profiler i => .object [
      ("timings", .ofList (fun e => .ofPair (.string e.1) (.string (Elapsed.text e.2)))
        (s.profile i).entries),
      ("elapsed", .string (Elapsed.text (s.profile i).total))]
  .object [("display", .string (a.text s)), ("content", content)]

/--
Reads an argument: a number, an array for a buffer, or an object with the time of each region for a
profiler.
-/
def ofJson? (s : Store Seconds) : Json → Option (Argument × Store Seconds)
  | .array items => do return s.addBuffer (← items.mapM Json.toFloat?)
  | .object members => do
    let times ← members.mapM fun (region, t) => do return (region, ← Seconds.ofJson? t)
    return s.addProfile (times.foldl (fun p (region, t) => p.record region t) .empty)
  | j => do return (int (← j.toInt?), s)

def viewAll (s : Store Seconds) (as : List Argument) : Json :=
  .object [
    ("slots", .ofList (view s) as),
    ("equal", .ofList (fun a => .ofList (fun b => .int (if a = b then 1 else 0)) as) as),
    ("ints", .ofList (fun a => .ofOption .int a.toInt?) as)]

end Argument

namespace Arguments

def ofJson? : Json → Option (Arguments × Store Seconds)
  | .object members => members.foldlM (fun (args, s) (name, j) => do
      let (a, s) ← Argument.ofJson? s j
      return (args.insert name a, s)) (.empty, .empty)
  | _ => some (.empty, .empty)

def view (s : Store Seconds) (args : Arguments) : Json :=
  .ofList (fun e => .ofPair (.string e.1) (e.2.view s)) args.entries

def intsView (args : Arguments) : Json :=
  .object (args.entries.filterMap fun (name, a) => a.toInt?.map fun v => (name, .int v))

end Arguments

namespace Options

def view (o : Options) : Json :=
  .object [
    ("squeezer", .int o.squeezer), ("blocksizes", .ofList .int o.blockSizes),
    ("stack_limit", .ofNat o.stackLimit), ("mode", .string o.mode.name),
    ("largest", .ofOption .int o.largest?), ("json", .string o.toJson.text)]

end Options

namespace BlockShape

def ofJson? (j : Json) : Option BlockShape := do
  let sizes ← j.toListOf? fun
    | .array [name, size] => do return (← name.toString?, ← size.toInt?)
    | _ => none
  return ⟨sizes⟩

def view (ps : List Parameter) (s : BlockShape) : Json :=
  .object [
    ("pairs", .ofList (fun (name, size) => .ofPair (.string name) (.int size)) s.sizes),
    ("len", .ofNat s.sizes.length), ("is_empty", .bool s.sizes.isEmpty),
    ("by_name", .ofList (fun p => .ofOption .int (s.size? p.name)) ps)]

end BlockShape

namespace Script

/-- Reads a scripted operator. Its profiler is called `timers` unless it is named. -/
def ofJson? (j : Json) : Option Script := do
  let faults ← (← j.getItems? "fail").mapM fun f => do
    return ⟨← f.getString? "arg", ← (f.get? "value").bind Json.toInt?, ← f.getString? "message"⟩
  let regions ← (← j.getItems? "regions").mapM fun r => do
    let terms ← (← r.getItems? "terms").mapM fun t => do
      return ⟨← t.getString? "arg", ← (t.get? "target").bind Json.toInt?,
        ← (t.get? "weight").bind Seconds.ofJson?⟩
    return ⟨← r.getString? "name", ← Json.withDefault (.number 0.0) Seconds.ofJson? (r.get? "base"),
      terms⟩
  let outputs ← (← j.getItems? "outputs").mapM Json.toString?
  return ⟨outputs, faults, regions, (j.getString? "profiler").getD "timers"⟩

end Script

namespace Trial

def view (t : Trial Seconds) : Json :=
  .object [
    ("shape", .string t.shape.text),
    ("elapsed", .ofOption (fun e => .string (Elapsed.text e)) t.elapsed?),
    ("skipped", .ofOption (fun r => .string r.text) t.skipReason?)]

end Trial

namespace Results

def view (r : Results Seconds) : Json :=
  .object [
    ("all", .ofList Trial.view r.trials), ("len", .ofNat r.trials.length),
    ("is_empty", .bool r.trials.isEmpty), ("timesteps", .int r.timesteps),
    ("best", .ofOption Trial.view r.best?), ("sorted", .ofList Trial.view r.sorted),
    ("csv", .string r.table)]

end Results

namespace Tuned

def view (op : Operator Seconds) (o : Options) (args : Arguments) (t : Tuned Seconds) : Json :=
  let unchanged := t.arguments.entries.filter fun (name, a) => args.find? name == some a
  .object [
    ("tuned", t.arguments.view t.store), ("unchanged", .ofStrings (unchanged.map (·.1))),
    ("same", .bool (t.arguments = args)),
    ("elapsed", .ofOption (fun e => .string (Elapsed.text e))
      (t.arguments.elapsed? t.store op.profilerName)),
    ("results", t.results.view), ("mode", .string o.mode.name),
    ("runs", .ofList Arguments.intsView t.runs)]

end Tuned

end Stencil.Tuning
