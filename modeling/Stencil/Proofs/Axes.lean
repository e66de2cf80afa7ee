import Stencil.LoweredEquation
import Stencil.Proofs.Expr.Within

/-!
This module contains which array elements an equation accesses. They may stand at any depth, also in
the index functions of other elements, and all of them are found when the equation is lowered.
-/

namespace Stencil

namespace Expr

inductive Occurs (r : Reference) : Expr → Prop
  | self : Occurs r (access r.function r.indices)
  | arg {e a : Expr} (ha : a ∈ e.args) (h : Occurs r a) : Occurs r e
  | index {f : GridFunction} {is : List Expr} {i : Expr} (hi : i ∈ is) (h : Occurs r i) :
    Occurs r (access f is)

theorem mem_references_iff_occurs {r : Reference} {e : Expr} :
    r ∈ e.references ↔ e.Occurs r := by
  constructor
  · intro hr
    have hoperation {e : Expr} (he : e.isOperation = true)
        (ih : ∀ a ∈ e.args, r ∈ a.references → a.Occurs r) (hr : r ∈ e.references) :
        e.Occurs r := by
      rw [references_eq he, List.mem_flatMap] at hr
      obtain ⟨a, ha, hr⟩ := hr
      exact .arg ha (ih a ha hr)
    induction e with
    | num q => cases hr
    | sym s => cases hr
    | access f is _ ih =>
      rw [references, List.mem_cons, mem_referencesOfList] at hr
      rcases hr with rfl | ⟨i, hi, hr⟩
      · exact .self
      · exact .index hi (ih i hi hr)
    | add ts ih => exact hoperation rfl ih hr
    | mul fs ih => exact hoperation rfl ih hr
    | pow b n ih => exact hoperation rfl (List.forall_mem_singleton.2 ih) hr
    | call s as ih => exact hoperation rfl ih hr
  · intro hr
    induction hr with
    | self => exact List.mem_cons_self ..
    | @arg e a ha _ ih =>
      have he : e.isOperation = true := by
        rw [← Bool.not_eq_false]
        intro he
        rw [args_eq_nil he] at ha
        cases ha
      rw [references_eq he, List.mem_flatMap]
      exact ⟨a, ha, ih⟩
    | index hi _ ih =>
      rw [references, List.mem_cons, mem_referencesOfList]
      exact .inr ⟨_, hi, ih⟩

end Expr

theorem Reference.mem_axes {r : Reference} {a : Axis} :
    a ∈ r.axes ↔ a.function = r.function ∧
      ∃ i : Nat, r.function.dimensions[i]? = some a.dimension ∧ r.indices[i]? = some a.index := by
  unfold axes
  rw [List.mem_map]
  simp only [List.mem_iff_getElem?, List.getElem?_zip_eq_some]
  constructor
  · rintro ⟨e, ⟨i, hd, he⟩, rfl⟩
    exact ⟨rfl, i, hd, he⟩
  · rintro ⟨hf, i, hd, he⟩
    exact ⟨(a.dimension, a.index), ⟨i, hd, he⟩, by rw [← hf]⟩

namespace Equation

/--
An equation accesses an array element: it writes the element, or reads it for the value or in order
to find the element that is written.
-/
def Accesses (eq : Equation) (r : Reference) : Prop :=
  eq.write? = some r ∨ eq.rhs.Occurs r ∨ ∃ w, eq.write? = some w ∧ ∃ i ∈ w.indices, i.Occurs r

theorem mem_references_iff_accesses {eq : Equation} {r : Reference} :
    r ∈ eq.references ↔ eq.Accesses r := by
  unfold references reads Accesses
  rw [List.mem_append, List.mem_append, Option.mem_toList, Expr.mem_references_iff_occurs]
  cases eq.write? with
  | none => simp
  | some w => simp [Expr.mem_referencesOfList, Expr.mem_references_iff_occurs]

theorem mem_axes_iff_accesses {eq : Equation} {a : Axis} :
    a ∈ eq.axes ↔ ∃ r, eq.Accesses r ∧ a ∈ r.axes := by
  unfold axes
  rw [List.mem_flatMap]
  simp only [mem_references_iff_accesses]

end Equation

end Stencil
