import Stencil.Tuning.Operator
import Stencil.Tuning.Options

/-!
This module contains block shapes, which give every parameter a block size, and the list of the
shapes that are worth a trial.
-/

namespace Stencil.Tuning

structure BlockShape where
  sizes : List (String × Int)
  deriving DecidableEq

namespace BlockShape

def uniform (ps : List Parameter) (size : Int) : BlockShape := ⟨ps.map fun p => (p.name, size)⟩

def ofSizes (ps : List Parameter) (sizes : List Int) : BlockShape :=
  ⟨(ps.zip sizes).map fun (p, size) => (p.name, size)⟩

def size? (s : BlockShape) (name : String) : Option Int :=
  (s.sizes.find? (·.1 == name)).map (·.2)

def text (s : BlockShape) : String := ",".intercalate (s.sizes.map fun e => toString e.2)

def double (s : BlockShape) (positions : List Nat) : Checked BlockShape := do
  let sizes ← s.sizes.zipIdx.mapM fun ((name, size), i) => do
    return (name, ← if positions.contains i then Word.mul size 2 else pure size)
  return ⟨sizes⟩

def withLastOf (s t : BlockShape) : BlockShape :=
  match s.sizes.getLast?, t.sizes.getLast? with
  | some (name, _), some (_, size) => ⟨s.sizes.dropLast ++ [(name, size)]⟩
  | _, _ => s

def exceeds (s : BlockShape) (limits : List Int) : Bool :=
  (s.sizes.zip limits).any fun (e, limit) => decide (limit < e.2)

def bind (s : BlockShape) (args : Arguments) : Arguments :=
  s.sizes.foldl (fun args e => args.insert e.1 (.int e.2)) args

/-- Puts `t` behind the first occurrence of `s`, or at the end of the list if there is none. -/
def insertAfter (s t : BlockShape) : List BlockShape → List BlockShape
  | [] => [t]
  | s' :: shapes => if s' = s then s' :: t :: shapes else s' :: insertAfter s t shapes

def ramp (ps : List Parameter) (n : Nat) (s : BlockShape) (shapes : List BlockShape) :
    Checked (List BlockShape) :=
  match n with
  | 0 => pure shapes
  | n + 1 => do
    let t ← s.double (List.range ps.length)
    ramp ps n t (insertAfter s t shapes)

def sublistsOfLength (k : Nat) : List α → List (List α) :=
  fun as =>
    match k, as with
    | 0, _ => [[]]
    | _ + 1, [] => []
    | k + 1, a :: as => (sublistsOfLength k as).map (a :: ·) ++ sublistsOfLength (k + 1) as

def partialDoubles (s : BlockShape) : Checked (List BlockShape) :=
  let positions := List.range s.sizes.length
  (positions.flatMap fun k => sublistsOfLength (k + 1) positions).mapM s.double

/--
Adds larger and mixed shapes to a list: three doublings of the largest uniform shape, then the first
four shapes with the last size of every shape, then every shape with some of its sizes doubled. Each
shape is listed once.
-/
def enrich (ps : List Parameter) (largest : Int) (shapes : List BlockShape) :
    Checked (List BlockShape) := do
  let shapes ← ramp ps 3 (uniform ps largest) shapes
  let mixed := (shapes.take 4).flatMap fun s => shapes.map s.withLastOf
  let doubled ← shapes.mapM partialDoubles
  return (shapes ++ mixed ++ doubled.flatten).eraseDups

/--
The shapes to try: every block size on all parameters at once, the largest block of each parameter,
and in aggressive mode what these are enriched with.
-/
def candidates (ps : List Parameter) (limits : List Int) (o : Options) :
    Checked (List BlockShape) :=
  let shapes := o.blockSizes.map (uniform ps) ++ [ofSizes ps limits]
  match o.mode, o.largest? with
  | .aggressive, some largest => enrich ps largest shapes
  | _, _ => pure shapes

end BlockShape

end Stencil.Tuning
