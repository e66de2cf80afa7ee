import Stencil.Problem.File
import Stencil.Proofs.Json
import Stencil.Proofs.OrdMap

/-!
This module contains the fact that problem files are read back as they were written. The integers in
a file have to be words of the lengths that are read, and its doubles have to be finite, since other
doubles are written as null.
-/

namespace Stencil

namespace Formula

mutual

def each (p : Formula → Bool) : Formula → Bool
  | int i => p (int i)
  | float x => p (float x)
  | name s => p (name s)
  | access f is => p (access f is) && eachOf p is
  | add as => p (add as) && eachOf p as
  | mul as => p (mul as) && eachOf p as
  | neg a => p (neg a) && a.each p
  | pow b n => p (pow b n) && b.each p
  | call s as => p (call s as) && eachOf p as

def eachOf (p : Formula → Bool) : List Formula → Bool
  | [] => true
  | a :: as => a.each p && eachOf p as

end

def isWord : Formula → Bool
  | int i => Word.isSigned i
  | pow _ n => Word.isShort n
  | _ => true

def isFinite : Formula → Bool
  | float x => x.isFinite
  | _ => true

theorem toJsons_eq_map (as : List Formula) : toJsons as = as.map toJson := by
  induction as with
  | nil => rfl
  | cons a as ih => rw [toJsons, ih, List.map_cons]

mutual

theorem hasValues_toJson (a : Formula) : a.toJson.HasValues := by
  cases a with
  | int i => exact Json.hasValues_int i
  | float x => exact Json.hasValues_ofFloat x
  | name s => exact Json.hasValues_string s
  | access f is =>
    have his : (Json.array (toJsons is)).HasValues := .array (hasValues_toJsons is)
    exact .object (by simp [Json.hasValues_string, his])
  | add as | mul as | call s as =>
    have has : (Json.array (toJsons as)).HasValues := .array (hasValues_toJsons as)
    exact .object (by simp [Json.hasValues_string, has])
  | neg a => exact .object (by simp [Json.hasValues_string, hasValues_toJson a])
  | pow b n =>
    exact .object (by simp [Json.hasValues_string, Json.hasValues_int, hasValues_toJson b])

theorem hasValues_toJsons (as : List Formula) : ∀ j ∈ toJsons as, j.HasValues := by
  cases as with
  | nil => exact List.forall_mem_nil _
  | cons a as => exact List.forall_mem_cons.2 ⟨hasValues_toJson a, hasValues_toJsons as⟩

end

theorem depth_lt_of_mem_node {members : List (String × Json)} {j : Json} {fuel : Nat}
    (key : String) (hmem : (key, j) ∈ members)
    (hfuel : (Json.object members).depth < fuel + 1) : j.depth < fuel :=
  Nat.lt_of_lt_of_le (Json.depth_lt_of_mem_object hmem) (Nat.le_of_lt_succ hfuel)

theorem depth_lt_of_mem_args {members : List (String × Json)} {items : List Json} {fuel : Nat}
    (key : String) (hmem : (key, .array items) ∈ members)
    (hfuel : (Json.object members).depth < fuel + 1) : ∀ j ∈ items, j.depth < fuel := by
  intro j hj
  have hdepth := Json.depth_add_two_le hj hmem
  omega

mutual

theorem ofJson?_toJson (a : Formula) (hwords : a.each isWord = true)
    (hfinite : a.each isFinite = true) {fuel : Nat} (hfuel : a.toJson.depth < fuel) :
    ofJson? fuel a.toJson = some a := by
  cases fuel with
  | zero => cases hfuel
  | succ fuel =>
    -- The tag of a node is a literal, so the reader gets to its fields by evaluation.
    cases a with
    | int i =>
      have hi : Word.isSigned i = true := hwords
      change some (if Word.isSigned i then int i else _) = _
      rw [if_pos hi]
    | float x =>
      have hx : Json.ofFloat x = .float x := if_pos hfinite
      rw [toJson, hx]
      rfl
    | name s => rfl
    | access f is =>
      rw [each, Bool.and_eq_true] at hwords hfinite
      have his := mapM_toJsons is hwords.2 hfinite.2
        (depth_lt_of_mem_args "indices" (by simp) hfuel)
      change ((toJsons is).mapM (ofJson? fuel)).bind (fun is => some (access f is)) = _
      rw [his, Option.bind_some]
    | add as =>
      rw [each, Bool.and_eq_true] at hwords hfinite
      have has := mapM_toJsons as hwords.2 hfinite.2
        (depth_lt_of_mem_args "args" (by simp) hfuel)
      change ((toJsons as).mapM (ofJson? fuel)).map add = _
      rw [has, Option.map_some]
    | mul as =>
      rw [each, Bool.and_eq_true] at hwords hfinite
      have has := mapM_toJsons as hwords.2 hfinite.2
        (depth_lt_of_mem_args "args" (by simp) hfuel)
      change ((toJsons as).mapM (ofJson? fuel)).map mul = _
      rw [has, Option.map_some]
    | neg a =>
      rw [each, Bool.and_eq_true] at hwords hfinite
      have ha := ofJson?_toJson a hwords.2 hfinite.2
        (depth_lt_of_mem_node "arg" (by simp) hfuel)
      change (ofJson? fuel a.toJson).map neg = _
      rw [ha, Option.map_some]
    | pow b n =>
      rw [each, Bool.and_eq_true] at hwords hfinite
      have hb := ofJson?_toJson b hwords.2 hfinite.2
        (depth_lt_of_mem_node "base" (by simp) hfuel)
      have hn : Json.toShort? (.int n) = some n := Json.toShort?_int hwords.1
      change ((ofJson? fuel b.toJson).bind fun b =>
        (Json.toShort? (.int n)).bind fun n => some (pow b n)) = _
      rw [hb, hn, Option.bind_some, Option.bind_some]
    | call s as =>
      rw [each, Bool.and_eq_true] at hwords hfinite
      have has := mapM_toJsons as hwords.2 hfinite.2
        (depth_lt_of_mem_args "args" (by simp) hfuel)
      change ((toJsons as).mapM (ofJson? fuel)).bind (fun as => some (call s as)) = _
      rw [has, Option.bind_some]

theorem mapM_toJsons (as : List Formula) (hwords : eachOf isWord as = true)
    (hfinite : eachOf isFinite as = true) {fuel : Nat}
    (hfuel : ∀ j ∈ toJsons as, j.depth < fuel) :
    (toJsons as).mapM (ofJson? fuel) = some as := by
  cases as with
  | nil => rfl
  | cons a as =>
    rw [eachOf, Bool.and_eq_true] at hwords hfinite
    rw [toJsons, List.forall_mem_cons] at hfuel
    rw [toJsons, List.mapM_cons, ofJson?_toJson a hwords.1 hfinite.1 hfuel.1,
      mapM_toJsons as hwords.2 hfinite.2 hfuel.2]
    rfl

end

theorem read?_toJson {a : Formula} (hwords : a.each isWord = true)
    (hfinite : a.each isFinite = true) {depth : Nat} (hdepth : a.toJson.depth ≤ depth) :
    read? depth a.toJson = some a := by
  rw [read?, if_pos (hasValues_toJson a depth hdepth)]
  exact ofJson?_toJson a hwords hfinite (Nat.lt_succ_of_le hdepth)

end Formula

theorem DimensionKind.ofName?_name (k : DimensionKind) : ofName? k.name = some k := by
  cases k <;> rfl

theorem FunctionEntry.Kind.ofName?_name (k : FunctionEntry.Kind) : ofName? k.name = some k := by
  cases k <;> rfl

theorem ElementType.ofName?_name (t : ElementType) : ofName? t.name = some t := by
  cases t <;> rfl

theorem Direction.ofName?_name (d : Direction) : ofName? d.name = some d := by
  cases d <;> rfl

namespace DimensionEntry

def hasWords (e : DimensionEntry) : Bool := e.factor.all Word.isSigned

def slots (e : DimensionEntry) : List (String × Option Json) :=
  [("name", some (.string e.name)), ("kind", some (.string e.kind.name)),
    ("parent", e.parent.map .string), ("factor", e.factor.map .int)]

theorem toFields?_toJson (e : DimensionEntry) :
    e.toJson.toFields? ["name", "kind", "parent", "factor"] = some (e.slots.map (·.2)) := by
  have hjson : e.toJson = .object (Json.membersOf e.slots) := by
    simp [toJson, slots, Json.membersOf_cons_map]
  rw [hjson]
  exact Json.toFields?_membersOf e.slots (by simp [slots])

theorem ofJson?_toJson {e : DimensionEntry} (hwords : e.hasWords = true) :
    ofJson? e.toJson = some e := by
  rw [hasWords, Option.all_eq_true] at hwords
  have hkind := DimensionKind.ofName?_name e.kind
  have hparent := Json.optional_string e.parent
  have hfactor : Json.optional Json.toInt? (e.factor.map .int) = some e.factor :=
    Json.optional_map rfl fun i hi => Json.toInt?_int (hwords i hi)
  rw [ofJson?, toFields?_toJson]
  simp [slots, Json.toString?, Json.toName?, hkind, hparent, hfactor]

end DimensionEntry

namespace GridEntry

def hasWords (e : GridEntry) : Bool := e.shape.all Word.isUnsigned

def slots (e : GridEntry) : List (String × Option Json) :=
  [("shape", some (.array (e.shape.map fun n : Nat => .int n))),
    ("dimensions", some (.array (e.dimensions.map .string))),
    ("distributed", some (.array (e.distributed.map .string))),
    ("time", e.time.map .string), ("stepping", e.stepping.map .string)]

theorem toFields?_toJson (e : GridEntry) :
    e.toJson.toFields? ["shape", "dimensions", "distributed", "time", "stepping"] =
      some (e.slots.map (·.2)) := by
  have hjson : e.toJson = .object (Json.membersOf e.slots) := by
    simp [toJson, slots, Json.membersOf_cons_map]
  rw [hjson]
  exact Json.toFields?_membersOf e.slots (by simp [slots])

theorem ofJson?_toJson {e : GridEntry} (hwords : e.hasWords = true) :
    ofJson? e.toJson = some e := by
  rw [hasWords, List.all_eq_true] at hwords
  have hshape : Json.toListOf? Json.toNat? (.array (e.shape.map fun n : Nat => .int n)) =
      some e.shape :=
    Json.toListOf?_map fun n hn => Json.toNat?_int (hwords n hn)
  rw [ofJson?, toFields?_toJson]
  simp [slots, hshape, Json.toListOf?_strings, Json.optional_string]

end GridEntry

namespace FunctionEntry

def areWords (table : List (Nat × Nat)) : Bool :=
  table.all fun w => Word.isUnsigned w.1 && Word.isUnsigned w.2

def hasWords (e : FunctionEntry) : Bool :=
  e.shape.all (·.each Formula.isWord) && e.halo.all areWords && e.padding.all areWords &&
    e.timeSize.all Word.isUnsigned

def slots (e : FunctionEntry) : List (String × Option Json) :=
  [("name", some (.string e.name)), ("kind", some (.string e.kind.name)),
    ("dimensions", some (.array (e.dimensions.map .string))),
    ("shape", some (.array (e.shape.map Formula.toJson))), ("halo", e.halo.map widthsToJson),
    ("padding", e.padding.map widthsToJson),
    ("time_size", e.timeSize.map fun n : Nat => .int n),
    ("dtype", some (.string e.elementType.name)), ("on_stack", some (.bool e.onStack)),
    ("on_grid", e.onGrid.map .bool)]

theorem toJson_eq_membersOf (e : FunctionEntry) : e.toJson = .object (Json.membersOf e.slots) := by
  simp [toJson, slots, Json.membersOf_cons_map, Formula.toJsons_eq_map]

theorem toFields?_toJson (e : FunctionEntry) :
    e.toJson.toFields? ["name", "kind", "dimensions", "shape", "halo", "padding", "time_size",
      "dtype", "on_stack", "on_grid"] = some (e.slots.map (·.2)) := by
  rw [toJson_eq_membersOf]
  exact Json.toFields?_membersOf e.slots (by simp [slots])

theorem optional_widths {table : Option (List (Nat × Nat))} (hwords : table.all areWords = true) :
    Json.optional (Json.toListOf? (Json.toPair? Json.toNat?)) (table.map widthsToJson) =
      some table := by
  rw [Option.all_eq_true] at hwords
  refine Json.optional_map rfl fun widths hwidths => Json.toListOf?_map fun w hw => ?_
  have hw := List.all_eq_true.1 (hwords widths hwidths) w hw
  rw [Bool.and_eq_true] at hw
  rw [Json.toPair?, Json.toNat?_int hw.1, Json.toNat?_int hw.2]
  rfl

theorem ofJson?_toJson {e : FunctionEntry} (hwords : e.hasWords = true)
    (hfinite : e.shape.all (·.each Formula.isFinite) = true) {depth : Nat}
    (hdepth : e.toJson.depth ≤ depth) : ofJson? depth e.toJson = some e := by
  simp only [hasWords, Bool.and_eq_true] at hwords
  obtain ⟨⟨⟨hshape, hhalo⟩, hpadding⟩, htime⟩ := hwords
  have hshape : Json.toListOf? (Formula.read? (depth - 2)) (.array (e.shape.map Formula.toJson)) =
      some e.shape := by
    rw [List.all_eq_true] at hshape hfinite
    rw [toJson_eq_membersOf] at hdepth
    exact Json.toListOf?_items "shape" (by simp [slots]) hdepth
      fun a ha _ => Formula.read?_toJson (hshape a ha) (hfinite a ha)
  have hhalo := optional_widths hhalo
  have hpadding := optional_widths hpadding
  have htime : Json.optional Json.toNat? (e.timeSize.map fun n : Nat => .int n) =
      some e.timeSize :=
    Json.optional_map rfl fun n hn => Json.toNat?_int ((Option.all_eq_true _ _).1 htime n hn)
  have hgrid : Json.optional Json.toBool? (e.onGrid.map .bool) = some e.onGrid :=
    Json.optional_map rfl fun _ _ => rfl
  rw [ofJson?, toFields?_toJson]
  simp [slots, Json.toString?, Json.toName?, Json.toBool?, Json.toListOf?_strings, hshape, hhalo,
    hpadding, htime, hgrid, Kind.ofName?_name, ElementType.ofName?_name]

end FunctionEntry

namespace EquationEntry

def hasWords (e : EquationEntry) : Bool := e.lhs.each Formula.isWord && e.rhs.each Formula.isWord

def isFinite (e : EquationEntry) : Bool :=
  e.lhs.each Formula.isFinite && e.rhs.each Formula.isFinite

theorem toFields?_toJson (e : EquationEntry) :
    e.toJson.toFields? ["lhs", "rhs", "increment"] =
      some [some e.lhs.toJson, some e.rhs.toJson, some (.bool e.isIncrement)] := rfl

theorem ofJson?_toJson {e : EquationEntry} (hwords : e.hasWords = true)
    (hfinite : e.isFinite = true) {depth : Nat} (hdepth : e.toJson.depth ≤ depth) :
    ofJson? depth e.toJson = some e := by
  rw [hasWords, Bool.and_eq_true] at hwords
  rw [isFinite, Bool.and_eq_true] at hfinite
  have hlhs : e.lhs.toJson.depth < e.toJson.depth :=
    Json.depth_lt_of_mem_object (List.mem_cons_self ..)
  have hrhs : e.rhs.toJson.depth < e.toJson.depth :=
    Json.depth_lt_of_mem_object (List.mem_cons_of_mem _ (List.mem_cons_self ..))
  have hlhs : Formula.read? (depth - 1) e.lhs.toJson = some e.lhs :=
    Formula.read?_toJson hwords.1 hfinite.1 (by omega)
  have hrhs : Formula.read? (depth - 1) e.rhs.toJson = some e.rhs :=
    Formula.read?_toJson hwords.2 hfinite.2 (by omega)
  rw [ofJson?, toFields?_toJson]
  simp [Json.toBool?, hlhs, hrhs]

end EquationEntry

namespace ProblemFile

def hasWords (p : ProblemFile) : Bool :=
  p.dimensions.all DimensionEntry.hasWords && p.grid.all GridEntry.hasWords &&
    p.functions.all FunctionEntry.hasWords && p.equations.all EquationEntry.hasWords

def isFinite (p : ProblemFile) : Bool :=
  p.functions.all (fun e => e.shape.all (·.each Formula.isFinite)) &&
    p.equations.all EquationEntry.isFinite

def slots (p : ProblemFile) : List (String × Option Json) :=
  [("name", p.name.map .string),
    ("dimensions", some (.array (p.dimensions.map DimensionEntry.toJson))),
    ("grid", p.grid.map GridEntry.toJson),
    ("functions", some (.array (p.functions.map FunctionEntry.toJson))),
    ("directions", some (.object (p.directions.entries.map fun e => (e.1, .string e.2.name)))),
    ("equations", some (.array (p.equations.map EquationEntry.toJson)))]

theorem toJson_eq_membersOf (p : ProblemFile) : p.toJson = .object (Json.membersOf p.slots) := by
  simp [toJson, slots, Json.membersOf_cons_map]

theorem toFields?_toJson (p : ProblemFile) :
    p.toJson.toFields? ["name", "dimensions", "grid", "functions", "directions", "equations"] =
      some (p.slots.map (·.2)) := by
  rw [toJson_eq_membersOf]
  exact Json.toFields?_membersOf p.slots (by simp [slots])

theorem directionsOfJson?_toJson (m : OrdMap String Direction) :
    directionsOfJson? (.object (m.entries.map fun e => (e.1, .string e.2.name))) = some m := by
  have hentries : (m.entries.map fun e => (e.1, Json.string e.2.name)).mapM (fun e => do
      return (e.1, ← Direction.ofName? (← e.2.toName?))) = some (m.entries.map id) :=
    Json.mapM_map_eq_some fun e _ => by simp [Json.toName?, Direction.ofName?_name]
  rw [directionsOfJson?, hentries]
  simp [OrdMap.ofList_entries]

/-- A problem file is read back as it was written, with formulas of any shape and depth in it. -/
theorem decode?_toJson (p : ProblemFile) (hwords : p.hasWords = true)
    (hfinite : p.isFinite = true) : decode? p.toJson = some p := by
  simp only [hasWords, Bool.and_eq_true, List.all_eq_true, Option.all_eq_true] at hwords
  obtain ⟨⟨⟨hdimensions, hgrid⟩, hfunctions⟩, hequations⟩ := hwords
  rw [isFinite, Bool.and_eq_true, List.all_eq_true, List.all_eq_true] at hfinite
  have hdepth : (Json.object (Json.membersOf p.slots)).depth ≤ p.toJson.depth :=
    Nat.le_of_eq (congrArg Json.depth p.toJson_eq_membersOf.symm)
  have hdimensions : Json.toListOf? DimensionEntry.ofJson?
      (.array (p.dimensions.map DimensionEntry.toJson)) = some p.dimensions :=
    Json.toListOf?_map fun e he => DimensionEntry.ofJson?_toJson (hdimensions e he)
  have hgrid : Json.optional GridEntry.ofJson? (p.grid.map GridEntry.toJson) = some p.grid :=
    Json.optional_map rfl fun e he => GridEntry.ofJson?_toJson (hgrid e he)
  have hfunctions : Json.toListOf? (FunctionEntry.ofJson? (p.toJson.depth - 2))
      (.array (p.functions.map FunctionEntry.toJson)) = some p.functions :=
    Json.toListOf?_items "functions" (by simp [slots]) hdepth
      fun e he _ => FunctionEntry.ofJson?_toJson (hfunctions e he) (hfinite.1 e he)
  have hequations : Json.toListOf? (EquationEntry.ofJson? (p.toJson.depth - 2))
      (.array (p.equations.map EquationEntry.toJson)) = some p.equations :=
    Json.toListOf?_items "equations" (by simp [slots]) hdepth
      fun e he _ => EquationEntry.ofJson?_toJson (hequations e he) (hfinite.2 e he)
  rw [decode?, ofJson?, toFields?_toJson]
  simp [slots, Json.optional_string, hdimensions, hgrid, hfunctions, hequations,
    directionsOfJson?_toJson]

/--
A file in which every option is there in one declaration and absent in another one, a double is
integral, a name is that of an operation and a formula is nested.
-/
def weightedFile : ProblemFile where
  name := some "weighted"
  dimensions := [⟨"time", .time, none, none⟩, ⟨"c", .conditional, some "time", some (-4)⟩]
  grid := some ⟨[16, 18446744073709551615], ["x", "y"], ["x"], some "time", none⟩
  functions := [⟨"u", .dense, ["x", "y"], [.int 16, .mul [.float 2.0, .name "add"]],
      some [(0, 2), (1, 1)], none, some 2, .float64, false, some false⟩,
    ⟨"w", .array, ["c"], [.pow (.int 2) (-2147483648)], none, some [], none, .int32, true, none⟩]
  directions := .ofList [("x", .backward), ("c", .forward)]
  equations := [⟨.access "u" [.name "x", .int (-9223372036854775808)],
    .add [.neg (.call "exp" [.float 0.5, .access "w" []]), .mul []], true⟩]

theorem decode?_toJson_weighted :
    weightedFile.hasWords = true ∧ weightedFile.isFinite = true ∧
      decode? weightedFile.toJson = some weightedFile := by
  have hwords : weightedFile.hasWords = true := by decide +kernel
  have hfinite : weightedFile.isFinite = true := by decide +kernel
  exact ⟨hwords, hfinite, decode?_toJson weightedFile hwords hfinite⟩

end ProblemFile

end Stencil
