import Stencil.Halo.Scheme
import Stencil.View.Problem

/-!
This module contains the JSON form of halo schemes.
-/

namespace Stencil

namespace HaloEntry

def view (f : GridFunction) (e : HaloEntry) (mask : HaloMask) : Checked Json := do
  let indices ← e.localIndices.entries.mapM fun i => do
    return Json.ofPair i.1.label (← i.2.label)
  return .object [
    ("function", GridFunction.label f), ("halos", .ofStrings (e.halos.map Halo.text)),
    ("halo_dims", .string (Halo.dimensionsText e.halos)), ("loc_indices", .array indices),
    ("mask", .ofList (fun m => .array [m.1.1.label, .string m.1.2.text, .bool m.2]) mask)]

end HaloEntry

namespace Halo

def labelsView (c : Classification) : Json :=
  .ofList (fun (f, labels) => .ofPair (GridFunction.label f)
    (.ofList (fun (d, l) => .ofPair d.label (.string l.text)) labels.entries)) c.entries

end Halo

namespace HaloScheme

def view (s : HaloScheme) : Checked Json := do
  return .object [
    ("display", .string s.text), ("is_empty", .bool s.isEmpty),
    ("functions", .ofList GridFunction.label s.functions),
    ("diagnostics", .ofStrings (s.diagnostics.map Diagnostic.text)),
    ("entries", .array (← s.entries.entries.mapM fun e =>
      HaloEntry.view e.1 e.2 ((s.masks.find? e.1).getD [])))]

end HaloScheme

end Stencil
