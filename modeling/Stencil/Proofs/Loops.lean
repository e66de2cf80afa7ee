import Stencil.Proofs.Points

/-!
This module contains the loops around an equation. They begin with the dimensions of the array that
is written, so points in the order of iteration are also in the order of these dimensions.
-/

namespace Stencil

namespace OrdSet

variable {κ : Type} [Ord κ] [Std.TransOrd κ] [Std.LawfulEqOrd κ] [DecidableEq κ]

theorem contains_foldl_insert (ks : List κ) (s : OrdSet κ) (k : κ) :
    OrdMap.contains (ks.foldl (fun s k => OrdMap.insert s k ()) s) k =
      (OrdMap.contains s k || decide (k ∈ ks)) := by
  induction ks generalizing s with
  | nil => simp
  | cons k' ks ih =>
    rw [List.foldl_cons, ih]
    unfold OrdMap.contains
    rw [OrdMap.find?_insert]
    by_cases hk : k' = k
    · simp [hk]
    · simp [hk, Ne.symm hk]

theorem contains_ofList (ks : List κ) (k : κ) :
    OrdMap.contains (ofList ks) k = decide (k ∈ ks) := by
  unfold ofList
  rw [contains_foldl_insert]
  simp [OrdMap.contains]

end OrdSet

theorem Dimension.root_root (d : Dimension) : d.root.root = d.root := by
  induction d with
  | stepping n p ih => exact ih
  | conditional n p f ih => exact ih
  | _ => rfl

theorem Axis.loop?_of_shift? {a : Axis} {k : Int} (h : a.index.shift? a.dimension = some k) :
    a.loop? = some a.dimension.root := by
  obtain ⟨form, hform, -, hcoeff⟩ := Expr.shift?_eq_some_iff.1 h
  have hmem : a.dimension.name ∈ a.index.symbols := by
    apply Classical.byContradiction
    intro hnot
    have hzero := Affine.coeff_ofExpr a.index hform hnot
    rw [hcoeff, if_pos rfl] at hzero
    exact one_ne_zero hzero
  unfold loop? Expr.freeSymbols
  rw [OrdSet.contains_ofList, if_pos (decide_eq_true hmem)]

section Lexicographic

variable {α : Type} {u v : α → Int}

theorem map_lt_of_append {as bs : List α} (h : (as ++ bs).map u < (as ++ bs).map v) :
    as.map u < as.map v ∨ ∀ a ∈ as, u a = v a := by
  induction as with
  | nil => simp
  | cons a as ih =>
    rw [List.cons_append, List.map_cons, List.map_cons, List.cons_lt_cons_iff] at h
    rw [List.map_cons, List.map_cons, List.cons_lt_cons_iff, List.forall_mem_cons]
    rcases h with h | ⟨heq, h⟩
    · exact .inl (.inl h)
    · rcases ih h with h | h
      · exact .inl (.inr ⟨heq, h⟩)
      · exact .inr ⟨heq, h⟩

theorem map_lt_of_filter [DecidableEq α] {a : α} (heq : u a = v a) {as : List α}
    (h : (as.filter fun b => !b == a).map u < (as.filter fun b => !b == a).map v) :
    as.map u < as.map v := by
  induction as with
  | nil => exact h
  | cons b as ih =>
    rw [List.map_cons, List.map_cons, List.cons_lt_cons_iff]
    by_cases hb : b = a
    · rw [List.filter_cons_of_neg (by simp [hb])] at h
      exact .inr ⟨by rw [hb, heq], ih h⟩
    · rw [List.filter_cons_of_pos (by simp [hb]), List.map_cons, List.map_cons,
        List.cons_lt_cons_iff] at h
      exact h.imp_right fun h => ⟨h.1, ih h.2⟩

theorem map_lt_of_eraseDups [DecidableEq α] {as : List α}
    (h : as.eraseDups.map u < as.eraseDups.map v) : as.map u < as.map v := by
  match as with
  | [] => exact h
  | a :: as =>
    rw [List.eraseDups_cons, List.map_cons, List.map_cons, List.cons_lt_cons_iff] at h
    rw [List.map_cons, List.map_cons, List.cons_lt_cons_iff]
    rcases h with h | ⟨heq, h⟩
    · exact .inl h
    · exact .inr ⟨heq, map_lt_of_filter heq (map_lt_of_eraseDups h)⟩
termination_by as.length
decreasing_by
  have hlength := List.length_filter_le (fun b => !b == a) as
  simp only [List.length_cons]
  omega

end Lexicographic

theorem Direction.signed_injective (d : Direction) : Function.Injective d.signed := by
  intro i j h
  cases d with
  | forward => exact h
  | backward => exact Int.neg_inj.1 h

theorem IterationSpace.coordinates_extend (space : IterationSpace) (p : Point)
    (ds : List Dimension) :
    p.extend.coordinates (ds.zip (ds.map space.direction)) =
      (ds.map Dimension.root).map fun d => (space.direction d).signed (p d) := by
  have hdirection (d : Dimension) : space.direction d.root = space.direction d := by
    unfold direction
    rw [Dimension.root_root]
  unfold Point.coordinates
  induction ds with
  | nil => rfl
  | cons d ds ih =>
    rw [List.map_cons, List.map_cons, List.map_cons, List.zip_cons_cons, List.map_cons, ih,
      hdirection]
    rfl

namespace Equation

variable {eq : Equation} {w : Reference}

theorem exists_loops_eq (hw : eq.write? = some w)
    (huniform : OffsetVector.Uniform w.function.dimensions w.indices) :
    ∃ inner, eq.loops = (w.function.dimensions.map Dimension.root ++ inner).eraseDups := by
  have hlist {f : GridFunction} {ds : List Dimension} {es : List Expr}
      (h : OffsetVector.Uniform ds es) :
      ((ds.zip es).map fun e => (⟨f, e.1, e.2⟩ : Axis)).filterMap Axis.loop? =
        ds.map Dimension.root := by
    induction h with
    | nil => rfl
    | @cons d e ds es hd _ ih =>
      obtain ⟨k, hk⟩ := hd
      have hloop : (⟨f, d, e⟩ : Axis).loop? = some d.root := Axis.loop?_of_shift? hk
      rw [List.zip_cons_cons, List.map_cons, List.filterMap_cons_some hloop, ih, List.map_cons]
  refine ⟨(eq.reads.flatMap Reference.axes).filterMap Axis.loop?, ?_⟩
  unfold loops axes references
  rw [hw, Option.toList_some, List.singleton_append, List.flatMap_cons, List.filterMap_append]
  unfold Reference.axes
  rw [hlist huniform]

theorem dimensions_iterationSpace (slots : OrdMap Dimension (List Slot))
    (directions : OrdMap Dimension Direction) :
    (eq.iterationSpace slots directions).dimensions = eq.loops := by
  unfold IterationSpace.dimensions iterationSpace
  rw [List.map_map]
  exact List.map_id _

theorem nodup_dimensions_iterationSpace (slots : OrdMap Dimension (List Slot))
    (directions : OrdMap Dimension Direction) :
    (eq.iterationSpace slots directions).dimensions.Nodup := by
  rw [dimensions_iterationSpace]
  exact nodup_eraseDups _

theorem coordinates_written (hw : eq.write? = some w)
    (huniform : OffsetVector.Uniform w.function.dimensions w.indices) {space : IterationSpace}
    (hspace : space.dimensions = eq.loops) {p q : Point}
    (h : p.coordinates space.loops < q.coordinates space.loops) :
    p.extend.coordinates (w.function.dimensions.zip (w.function.dimensions.map space.direction)) <
        q.extend.coordinates
          (w.function.dimensions.zip (w.function.dimensions.map space.direction)) ∨
      ∀ d ∈ w.function.dimensions, p d.root = q d.root := by
  -- The loops over the dimensions of `w` are the outermost ones, so they are the first to decide.
  obtain ⟨inner, hloops⟩ := exists_loops_eq hw huniform
  unfold Point.coordinates IterationSpace.loops at h
  rw [hspace, hloops, List.eraseDups_append, List.map_map, List.map_map] at h
  rw [space.coordinates_extend, space.coordinates_extend]
  rcases map_lt_of_append h with h | h
  · exact .inl (map_lt_of_eraseDups h)
  · right
    intro d hd
    have hsame := h d.root (List.mem_eraseDups.2 (List.mem_map_of_mem hd))
    exact (space.direction d.root).signed_injective hsame

end Equation

end Stencil
