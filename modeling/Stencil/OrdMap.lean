/-!
This module contains finite maps that list their entries in the order of their keys. Two maps with
the same bindings are the same map, so maps can be compared by their entries.
-/

namespace Stencil

universe u v w

/-- A finite map whose entries are listed in increasing order of their keys. -/
structure OrdMap (κ : Type u) (υ : Type v) [Ord κ] where
  entries : List (κ × υ)
  ordered : entries.Pairwise (fun a b => compare a.1 b.1 = .lt)

abbrev OrdSet (κ : Type u) [Ord κ] := OrdMap κ Unit

namespace OrdMap

variable {κ : Type u} {υ : Type v} {υ' : Type w} [Ord κ]

@[ext]
protected theorem ext {m m' : OrdMap κ υ} (h : m.entries = m'.entries) : m = m' := by
  cases m
  cases m'
  simp_all

instance [DecidableEq κ] [DecidableEq υ] : DecidableEq (OrdMap κ υ) := fun m m' =>
  decidable_of_iff (m.entries = m'.entries) ⟨OrdMap.ext, fun h => h ▸ rfl⟩

def empty : OrdMap κ υ := ⟨[], .nil⟩

instance : EmptyCollection (OrdMap κ υ) := ⟨empty⟩

instance : Inhabited (OrdMap κ υ) := ⟨empty⟩

def isEmpty (m : OrdMap κ υ) : Bool := m.entries.isEmpty

def size (m : OrdMap κ υ) : Nat := m.entries.length

def keys (m : OrdMap κ υ) : List κ := m.entries.map (·.1)

def values (m : OrdMap κ υ) : List υ := m.entries.map (·.2)

def find? (m : OrdMap κ υ) (k : κ) : Option υ :=
  (m.entries.find? (fun e => compare k e.1 == .eq)).map (·.2)

def contains (m : OrdMap κ υ) (k : κ) : Bool := (m.find? k).isSome

def alterEntries (k : κ) (f : Option υ → υ) : List (κ × υ) → List (κ × υ)
  | [] => [(k, f none)]
  | (k', v) :: rest =>
    match compare k k' with
    | .lt => (k, f none) :: (k', v) :: rest
    | .eq => (k', f (some v)) :: rest
    | .gt => (k', v) :: alterEntries k f rest

theorem mem_alterEntries {k : κ} {f : Option υ → υ} {es : List (κ × υ)} {e : κ × υ}
    (h : e ∈ alterEntries k f es) : e.1 = k ∨ ∃ e' ∈ es, e.1 = e'.1 := by
  induction es with
  | nil => simp_all [alterEntries]
  | cons head rest ih =>
    simp only [alterEntries] at h
    split at h
    all_goals grind

theorem alterEntries_ordered [Std.TransOrd κ] (k : κ) (f : Option υ → υ) {es : List (κ × υ)}
    (h : es.Pairwise (fun a b => compare a.1 b.1 = .lt)) :
    (alterEntries k f es).Pairwise (fun a b => compare a.1 b.1 = .lt) := by
  induction es with
  | nil => simp [alterEntries]
  | cons head rest ih =>
    obtain ⟨hhead, hrest⟩ := List.pairwise_cons.1 h
    simp only [alterEntries]
    split
    case h_1 hlt =>
      refine List.pairwise_cons.2 ⟨fun e he => ?_, h⟩
      cases List.mem_cons.1 he with
      | inl heq => exact heq ▸ hlt
      | inr hmem => exact Std.TransCmp.lt_trans hlt (hhead e hmem)
    case h_2 => exact List.pairwise_cons.2 ⟨hhead, hrest⟩
    case h_3 hgt =>
      refine List.pairwise_cons.2 ⟨fun e he => ?_, ih hrest⟩
      cases mem_alterEntries he with
      | inl heq => exact heq ▸ Std.OrientedCmp.lt_of_gt hgt
      | inr hmem =>
        obtain ⟨e', he', heq⟩ := hmem
        exact heq ▸ hhead e' he'

variable [Std.TransOrd κ]

def alter (m : OrdMap κ υ) (k : κ) (f : Option υ → υ) : OrdMap κ υ :=
  ⟨alterEntries k f m.entries, alterEntries_ordered k f m.ordered⟩

def insert (m : OrdMap κ υ) (k : κ) (v : υ) : OrdMap κ υ := m.alter k (fun _ => v)

/-- The map of a list of bindings, of which the last one of a key counts. -/
def ofList (es : List (κ × υ)) : OrdMap κ υ := es.foldl (fun m e => m.insert e.1 e.2) empty

def filter (m : OrdMap κ υ) (p : κ → υ → Bool) : OrdMap κ υ :=
  ⟨m.entries.filter (fun e => p e.1 e.2), m.ordered.filter _⟩

def filterMap (m : OrdMap κ υ) (f : κ → υ → Option υ') : OrdMap κ υ' where
  entries := m.entries.filterMap fun e => (f e.1 e.2).map fun v => (e.1, v)
  ordered := m.ordered.filterMap _ fun a b h a' ha b' hb => by
    obtain ⟨_, _, rfl⟩ := Option.map_eq_some_iff.1 ha
    obtain ⟨_, _, rfl⟩ := Option.map_eq_some_iff.1 hb
    exact h

def erase (m : OrdMap κ υ) (k : κ) : OrdMap κ υ := m.filter (fun k' _ => compare k k' != .eq)

def mapValues (m : OrdMap κ υ) (f : υ → υ') : OrdMap κ υ' :=
  ⟨m.entries.map (fun e => (e.1, f e.2)), List.pairwise_map.2 m.ordered⟩

end OrdMap

namespace OrdSet

variable {κ : Type u} [Ord κ]

theorem eq_of_keys {s t : OrdSet κ} (h : OrdMap.keys s = OrdMap.keys t) : s = t := by
  refine OrdMap.ext (List.map_inj_right (fun a b hab => ?_) |>.1 h)
  exact Prod.ext hab rfl

variable [Std.TransOrd κ]

def ofList (ks : List κ) : OrdSet κ := ks.foldl (fun s k => OrdMap.insert s k ()) OrdMap.empty

def toList (s : OrdSet κ) : List κ := OrdMap.keys s

def union (s t : OrdSet κ) : OrdSet κ := (OrdMap.keys t).foldl (fun s k => OrdMap.insert s k ()) s

end OrdSet

end Stencil
